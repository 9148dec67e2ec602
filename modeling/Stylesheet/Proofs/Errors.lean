import Stylesheet.Proofs.Turns

namespace Stylesheet

variable {ν α β : Type}

theorem Run.result_bind_eq_error {r : Run ν α} {f : α → Run ν β} {e : Halt} :
    (r >>= f).result = .error e
      ↔ r.result = .error e ∨ ∃ x, r.result = .ok x ∧ (f x).result = .error e := by
  cases h : r.result with
  | error e' => simp [bind_error h]
  | ok x => simp [bind_ok h]

theorem Run.result_map_eq_error {r : Run ν α} {f : α → β} {e : Halt} :
    (f <$> r).result = .error e ↔ r.result = .error e := by
  rw [map_eq]
  exact Except.map_eq_error

def Body.queries : Body → List String
  | traverse query _ _ => query.toList
  | attempt b => b.queries
  | within _ b => b.queries
  | seq a b => a.queries ++ b.queries
  | _ => []

theorem Registry.bodyAt_of_winner {g : Registry Body} {ev : Evaluator ν} {v : Visit ν}
    {rule : Rule Body} {fallback : Bool}
    (h : (ev.winner g v.node v.mode).result = .ok (some (rule, fallback))) :
    g.bodyAt ev v = rule.body := by
  simp [bodyAt, h]

theorem Registry.bodyAt_ofList {history : List (Registration Body)} (ev : Evaluator ν)
    (v : Visit ν) : (∃ x ∈ history, (ofList history).bodyAt ev v = x.body) ∨
      (ofList history).bodyAt ev v = .skip := by
  rw [bodyAt]
  split
  next rule fallback found => exact .inl (body_of_winner found)
  next => exact .inr rfl

variable [TreeNode ν] {enter : Visit ν → Run ν (Option String)} {ev : Evaluator ν} {v : Visit ν}
  {e : Halt}

theorem Body.queries_of_requests {b : Body} {s : Sites} :
    ∀ c ∈ b.requests enter ev v s, ∀ path ∈ c.1.query, path ∈ b.queries := by
  induction b generalizing s with
  | traverse query next gather => simp [requests, queries]
  | attempt b ih => exact ih
  | within depth b ih =>
    rw [requests]
    split
    · exact ih
    · exact List.forall_mem_nil _
  | seq a b iha ihb =>
    rw [requests, List.forall_mem_append]
    refine ⟨fun c hc path hp => List.mem_append_left _ (iha c hc path hp), ?_⟩
    split
    · exact fun c hc path hp => List.mem_append_right _ (ihb c hc path hp)
    · exact List.forall_mem_nil _
  | _ => exact List.forall_mem_nil _

theorem Visit.error_enterAll {hop : Nat → Hop} {mode : Mode} {position : Nat} {ns : List ν}
    (h : (v.enterAll enter hop mode position ns).result = .error e) :
    ∃ u ∈ v.entered enter hop mode position ns, (enter u).result = .error e := by
  induction ns generalizing position with
  | nil => cases h
  | cons n ns ih =>
    rw [enterAll] at h
    rw [entered]
    rcases Run.result_bind_eq_error.1 h with h | ⟨output, ho, h⟩
    · rw [h]
      exact ⟨_, List.mem_singleton_self _, h⟩
    · rw [bind_pure_comp, Run.result_map_eq_error] at h
      rw [ho]
      obtain ⟨u, hu, h⟩ := ih h
      exact ⟨u, List.mem_cons_of_mem _ hu, h⟩

/-- The body fails by itself, or a call or a visit that it makes comes to this end. -/
inductive Body.EndsBy (enter : Visit ν → Run ν (Option String)) (ev : Evaluator ν) (v : Visit ν)
    (b : Body) (s : Sites) : Halt → Prop
  | rule (message : String) : EndsBy enter ev v b s (.failure (.rule message))
  | query {c : Request × Sites} {e : Halt} (hc : c ∈ b.requests enter ev v s)
      (h : (c.1.select ev v).result = .error e) : EndsBy enter ev v b s e
  | entered {u : Visit ν} {e : Halt} (hu : u ∈ b.entered enter ev v s)
      (h : (enter u).result = .error e) : EndsBy enter ev v b s e

theorem Body.EndsBy.mono {b b' : Body} {s s' : Sites} (h : b.EndsBy enter ev v s e)
    (requests : ∀ c ∈ b.requests enter ev v s, c ∈ b'.requests enter ev v s') :
    b'.EndsBy enter ev v s' e := by
  cases h with
  | rule message => exact .rule message
  | query hc h => exact .query (requests _ hc) h
  | entered hu h =>
    obtain ⟨c, hc, hu⟩ := List.mem_flatMap.1 hu
    exact .entered (List.mem_flatMap.2 ⟨c, requests c hc, hu⟩) h

theorem Body.ends_of_error {b : Body} {s : Sites}
    (h : (b.perform enter ev v s).1.result = .error e) : b.EndsBy enter ev v s e := by
  induction b generalizing s with
  | skip => cases h
  | lit text => cases h
  | field f => cases h
  | attr name => cases h
  | fail message =>
    cases h
    exact .rule message
  | traverse query next gather =>
    simp only [perform, Run.result_map_eq_error, Visit.traverse_fst] at h
    rcases Run.result_bind_eq_error.1 h with h | ⟨ns, hns, h⟩
    · exact .query (List.mem_singleton_self _) h
    · obtain ⟨u, hu, h⟩ := Visit.error_enterAll h
      refine .entered (u := u) ?_ h
      simpa [entered, requests, Request.entered, hns] using hu
  | attempt b ih =>
    simp only [perform] at h
    split at h
    · cases h
    · exact (ih h).mono fun _ hc => hc
  | within depth b ih =>
    simp only [perform] at h
    split at h
    next above =>
      refine (ih h).mono fun c hc => ?_
      rwa [requests, if_pos above]
    next => cases h
  | seq a b iha ihb =>
    simp only [perform] at h
    cases ha : (a.perform enter ev v s).1.result with
    | error e' =>
      simp only [ha] at h
      cases h
      exact (iha ha).mono fun _ hc => List.mem_append_left _ hc
    | ok x =>
      simp only [ha, Except.map_eq_error] at h
      refine (ihb h).mono fun c hc => List.mem_append_right _ ?_
      rwa [ha]

/-- What ends a visit early: its search does, or no rule is found and this is a failure, or the body
at work ends early. -/
theorem Registry.error_visit {g : Registry Body} {policy : UnmatchedPolicy} {limit : Nat}
    (h : (g.visit ev policy (limit + 1) v).result = .error e) :
    (ev.winner g v.node v.mode).result = .error e ∨
      e = .failure (.unmatched v.key.text v.mode (TreeNode.kind v.node)) ∨
      (g.bodyAt ev v).EndsBy (g.visit ev policy limit) ev v .fresh e := by
  rw [visit_succ] at h
  refine (Run.result_bind_eq_error.1 h).imp_right ?_
  rintro ⟨found, hf, h⟩
  cases found with
  | none =>
    rw [Visit.answer] at h
    split at h <;> cases h
    exact .inl rfl
  | some found =>
    obtain ⟨rule, fallback⟩ := found
    rw [bodyAt_of_winner hf]
    rw [Visit.answer, Run.map_eq] at h
    exact .inr (Body.ends_of_error (Except.map_eq_error.1 h))

end Stylesheet
