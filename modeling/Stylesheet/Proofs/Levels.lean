import Stylesheet.Proofs.Errors
import Stylesheet.Proofs.Route

namespace Stylesheet

variable {ν α β : Type}

theorem Run.ofReply_inexhaustible (c : Call ν) (reply : Except EvaluationError α) :
    (ofReply c reply).result ≠ .error .exhausted := by
  cases reply <;> simp [ofReply, Except.mapError]

theorem Run.inexhaustible (ev : Evaluator ν) :
    Lifts ev fun _ r (_ : Run ν _) => r.result ≠ .error .exhausted where
  pure x := nofun
  bind {α β r r' f f'} h hf he := by
    rcases result_bind_eq_error.1 he with he | ⟨x, hx, he⟩
    · exact h he
    · exact hf x hx he
  ask pattern node := ofReply_inexhaustible _ _
  query path node := ofReply_inexhaustible _ _
  fallBack mode := nofun

variable [TreeNode ν]

theorem Body.EndsBy.entered_of_exhausted {enter : Visit ν → Run ν (Option String)}
    {ev : Evaluator ν} {v : Visit ν} {b : Body} {s : Sites}
    (h : b.EndsBy enter ev v s .exhausted) :
    ∃ u ∈ b.entered enter ev v s, (enter u).result = .error .exhausted := by
  cases h with
  | @query c e hc h =>
    rw [Request.select] at h
    split at h
    · exact absurd h (Run.ofReply_inexhaustible _ _)
    · cases h
  | entered hu h => exact ⟨_, hu, h⟩

namespace Registry

variable {g : Registry Body} {ev : Evaluator ν} {policy : UnmatchedPolicy} {limit : Nat}
  {v : Visit ν}

theorem turns_of_entered (way : List (Link ν)) {u : Visit ν}
    (h : u ∈ (g.bodyAt ev v).entered (g.visit ev policy limit) ev v .fresh) :
    ∃ l, ∀ t ∈ g.turns ev policy limit u (way ++ [l]), t ∈ g.turns ev policy (limit + 1) v way := by
  rw [← Body.map_snd_links] at h
  obtain ⟨⟨l, u⟩, hl, rfl⟩ := List.mem_map.1 h
  exact ⟨l, fun t ht => List.mem_cons_of_mem _ (List.mem_flatMap.2 ⟨(l, u), hl, ht⟩)⟩

theorem turn_of_exhausted (way : List (Link ν))
    (h : (g.visit ev policy limit v).result = .error .exhausted) :
    ∃ t ∈ g.turns ev policy limit v way, t.levels = 0 := by
  induction limit generalizing v way with
  | zero => exact ⟨_, List.mem_singleton_self _, rfl⟩
  | succ limit ih =>
    rcases error_visit h with h | h | h
    · exact absurd h ((Run.inexhaustible ev).winner g v.node v.mode)
    · cases h
    · obtain ⟨u, hu, h⟩ := h.entered_of_exhausted
      obtain ⟨l, hl⟩ := turns_of_entered way hu
      obtain ⟨t, ht, none⟩ := ih (way ++ [l]) h
      exact ⟨t, hl t ht, none⟩

theorem visit_of_le {way : List (Link ν)}
    (levels : ∀ t ∈ g.turns ev policy limit v way, t.levels ≠ 0) {limit' : Nat}
    (h : limit ≤ limit') : g.visit ev policy limit' v = g.visit ev policy limit v := by
  induction limit generalizing v way limit' with
  | zero => exact absurd rfl (levels _ (List.mem_singleton_self _))
  | succ limit ih =>
    cases limit' with
    | zero => exact absurd h (Nat.not_succ_le_zero limit)
    | succ limit' =>
      have entered : ∀ u ∈ (g.bodyAt ev v).entered (g.visit ev policy limit) ev v .fresh,
          g.visit ev policy limit' u = g.visit ev policy limit u := by
        intro u hu
        obtain ⟨l, hl⟩ := turns_of_entered way hu
        exact ih (fun t ht => levels t (hl t ht)) (Nat.le_of_succ_le_succ h)
      rw [visit_succ, visit_succ]
      refine Run.bind_congr_ok fun found hf => ?_
      cases found with
      | none => rfl
      | some found =>
        obtain ⟨rule, fallback⟩ := found
        rw [bodyAt_of_winner hf] at entered
        rw [Visit.answer, Visit.answer, Body.perform_congr entered]

end Registry

end Stylesheet
