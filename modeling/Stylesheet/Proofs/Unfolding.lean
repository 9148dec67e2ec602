import Stylesheet.Proofs.Visits

/-! How a visit unfolds. It searches for a rule, tells what it found, and performs the body, which
makes further visits; whatever the parts of a log have and their concatenation keeps, the log of a
run has. -/

namespace Stylesheet

variable {ν α β : Type}

theorem Except.map_eq_error {ε : Type} {f : α → β} {x : Except ε α} {e : ε} :
    x.map f = .error e ↔ x = .error e := by
  cases x <;> simp [Except.map]

theorem Run.log_bind (r : Run ν α) (f : α → Run ν β) :
    (∃ e, r.result = .error e ∧ (r >>= f).log = r.log) ∨
      ∃ x, r.result = .ok x ∧ (r >>= f).log = r.log ++ (f x).log := by
  cases h : r.result with
  | ok x => exact .inr ⟨x, rfl, by rw [bind_ok h]⟩
  | error e => exact .inl ⟨e, rfl, by rw [bind_error h]⟩

theorem Run.bind_congr_ok {r : Run ν α} {f g : α → Run ν β}
    (h : ∀ x, r.result = .ok x → f x = g x) : r >>= f = r >>= g := by
  cases hr : r.result with
  | error e => rw [bind_error hr, bind_error hr]
  | ok x => rw [bind_ok hr, bind_ok hr, h x hr]

theorem Evaluator.visits_winner (ev : Evaluator ν) (g : Registry β) (node : ν) (mode : Mode) :
    (ev.winner g node mode).visits = [] := by
  simpa [Run.routes] using ev.routes_winner g node mode

theorem Registry.visits_of_winner {ev : Evaluator ν} {g : Registry β} {v : Visit ν}
    {log : List (Step ν)} {result : Except Halt (Option (Rule β × Bool))}
    (h : ev.winner g v.node v.mode = ⟨log, result⟩) : log.filterMap Step.visit? = [] := by
  have := ev.visits_winner g v.node v.mode
  rwa [h] at this

variable [TreeNode ν]

/-- What a visit does once the search for its rule is over. -/
def Visit.answer (enter : Visit ν → Run ν (Option String)) (ev : Evaluator ν)
    (policy : UnmatchedPolicy) (v : Visit ν) : Option (Rule Body × Bool) → Run ν (Option String)
  | some (rule, fallback) => do
    Run.note (.invoke v rule.head fallback)
    some <$> (rule.body.perform enter ev v .fresh).1
  | none => do
    Run.note (.unmatched v)
    if policy = .error then Run.fail (.unmatched v.key.text v.mode (TreeNode.kind v.node))
    else return none

theorem Registry.visit_succ (g : Registry Body) (ev : Evaluator ν) (policy : UnmatchedPolicy)
    (limit : Nat) (v : Visit ν) : g.visit ev policy (limit + 1) v
      = ev.winner g v.node v.mode >>= v.answer (g.visit ev policy limit) ev policy := by
  refine bind_congr fun found => ?_
  cases found with
  | some found => rfl
  | none => cases policy <;> rfl

theorem Visit.log_answer_none (enter : Visit ν → Run ν (Option String)) (ev : Evaluator ν)
    (policy : UnmatchedPolicy) (v : Visit ν) :
    (v.answer enter ev policy none).log = [.unmatched v] := by
  simp only [answer]
  split <;> rfl

theorem Visit.log_answer_some (enter : Visit ν → Run ν (Option String)) (ev : Evaluator ν)
    (policy : UnmatchedPolicy) (v : Visit ν) (rule : Rule Body) (fallback : Bool) :
    (v.answer enter ev policy (some (rule, fallback))).log
      = .invoke v rule.head fallback :: (rule.body.perform enter ev v .fresh).1.log := by
  rw [answer, Run.map_eq, Run.bind_ok (x := ()) rfl]
  rfl

section

variable {Q : List (Step ν) → Prop} {enter : Visit ν → Run ν (Option String)} {ev : Evaluator ν}
  {v : Visit ν} (nil : Q []) (append : ∀ {l m}, Q l → Q m → Q (l ++ m))
  (entered : ∀ hop mode node, Q (enter (v.descend hop mode node)).log)

include nil append entered

theorem Visit.log_enterAll (hop : Nat → Hop) (mode : Mode) (position : Nat) (ns : List ν) :
    Q (v.enterAll enter hop mode position ns).log := by
  induction ns generalizing position with
  | nil => exact nil
  | cons n ns ih =>
    rw [enterAll]
    rcases Run.log_bind (enter (v.descend (hop position) mode n)) fun output => do
      return output.toList ++ (← v.enterAll enter hop mode (position + 1) ns)
      with ⟨_, -, h⟩ | ⟨output, -, h⟩
    · rw [h]
      exact entered ..
    · rw [h, bind_pure_comp, Run.map_eq]
      exact append (entered ..) (ih (position + 1))

variable (query : ∀ path, Q [.call (.select path v.node)])

include query

theorem Visit.log_traverse (path : Option String) (next : NextMode) (s : Sites) :
    Q (v.traverse enter ev path next s).1.log := by
  unfold traverse
  cases path with
  | some path =>
    dsimp only
    rcases Run.log_bind (ev.query path v.node) fun ns =>
      v.enterAll enter (.visit s.calls · (next.after v.mode)) (next.after v.mode) 0 ns
        with ⟨_, -, h⟩ | ⟨ns, -, h⟩
    · rw [h]
      exact query path
    · rw [h]
      exact append (query path) (log_enterAll nil append entered ..)
  | none =>
    dsimp only
    split <;> exact log_enterAll nil append entered ..

theorem Body.log_perform (b : Body) (s : Sites) : Q (b.perform enter ev v s).1.log := by
  induction b generalizing s with
  | skip => exact nil
  | lit text => exact nil
  | field f => exact nil
  | attr name => exact nil
  | fail message => exact nil
  | traverse path next gather =>
    simp only [perform, Run.map_eq]
    exact v.log_traverse nil append entered query path next s
  | attempt b ih =>
    simp only [perform]
    split <;> exact ih s
  | within depth b ih =>
    simp only [perform]
    split
    · exact ih s
    · exact nil
  | seq a b iha ihb =>
    simp only [perform]
    split
    · exact iha s
    · exact append (iha s) (ihb _)

end

/-- Induction on the visits of a run, by what they add to the log: `P` for a visit, `Q` for the part
of it that its body adds. -/
theorem Registry.visit_induction {g : Registry Body} {ev : Evaluator ν} {policy : UnmatchedPolicy}
    {P Q : Nat → Visit ν → List (Step ν) → Prop}
    (exhausted : ∀ v, P 0 v [])
    (failed : ∀ {limit v log e}, ev.winner g v.node v.mode = ⟨log, .error e⟩ → P (limit + 1) v log)
    (unmatched : ∀ {limit v log}, ev.winner g v.node v.mode = ⟨log, .ok none⟩ →
      P (limit + 1) v (log ++ [.unmatched v]))
    (invoked : ∀ {limit v log rule fallback below},
      ev.winner g v.node v.mode = ⟨log, .ok (some (rule, fallback))⟩ →
      (g.visit ev policy (limit + 1) v).log = log ++ .invoke v rule.head fallback :: below →
      Q limit v below → P (limit + 1) v (log ++ .invoke v rule.head fallback :: below))
    (nil : ∀ {limit v}, Q limit v [])
    (append : ∀ {limit v l m}, Q limit v l → Q limit v m → Q limit v (l ++ m))
    (query : ∀ {limit v} path, Q limit v [.call (.select path v.node)])
    (entered : ∀ {limit v hop mode node},
      P limit (v.descend hop mode node)
          (g.visit ev policy limit (v.descend hop mode node)).log →
        Q limit v (g.visit ev policy limit (v.descend hop mode node)).log)
    (limit : Nat) (v : Visit ν) : P limit v (g.visit ev policy limit v).log := by
  induction limit generalizing v with
  | zero => exact exhausted v
  | succ limit ih =>
    rw [visit_succ]
    cases hw : ev.winner g v.node v.mode with
    | mk log result =>
      cases result with
      | error e =>
        rw [Run.bind_error (e := e) rfl]
        exact failed hw
      | ok found =>
        rw [Run.bind_ok (x := found) rfl]
        cases found with
        | none =>
          rw [Visit.log_answer_none]
          exact unmatched hw
        | some found =>
          obtain ⟨rule, fallback⟩ := found
          have hv : (g.visit ev policy (limit + 1) v).log = log ++ .invoke v rule.head fallback ::
              (rule.body.perform (g.visit ev policy limit) ev v .fresh).1.log := by
            rw [visit_succ, hw, Run.bind_ok (x := some (rule, fallback)) rfl,
              Visit.log_answer_some]
          rw [Visit.log_answer_some]
          exact invoked hw hv (Body.log_perform nil append
            (fun hop mode node => entered (ih (v.descend hop mode node))) query rule.body .fresh)

/-- What holds of each search, with the step that tells what it found, and of each query, and is
kept by appending, holds of the log of a run. -/
theorem Registry.log_induction {g : Registry Body} {ev : Evaluator ν} {R : List (Step ν) → Prop}
    (nil : R []) (append : ∀ {l m}, R l → R m → R (l ++ m))
    (query : ∀ path node, R [.call (.select path node)])
    (failed : ∀ {v : Visit ν} {log e}, ev.winner g v.node v.mode = ⟨log, .error e⟩ → R log)
    (unmatched : ∀ {v : Visit ν} {log}, ev.winner g v.node v.mode = ⟨log, .ok none⟩ →
      R (log ++ [.unmatched v]))
    (invoked : ∀ {v : Visit ν} {log rule fallback},
      ev.winner g v.node v.mode = ⟨log, .ok (some (rule, fallback))⟩ →
        R (log ++ [.invoke v rule.head fallback]))
    (policy : UnmatchedPolicy) (limit : Nat) (v : Visit ν) : R (g.visit ev policy limit v).log := by
  refine visit_induction (P := fun _ _ => R) (Q := fun _ _ => R) (fun _ => nil) failed unmatched
    (fun h _ below => ?_) nil append (fun path => query path _) id limit v
  rw [List.append_cons]
  exact append (invoked h) below

end Stylesheet
