import Stylesheet.Proofs.Lockstep

/-! Runs side by side over one tree. Two runs that start at corresponding visits and whose searches
find the same rules go in step: they add corresponding steps to their logs and come to corresponding
ends. -/

namespace Stylesheet

variable {ν α β : Type}

/-- What corresponds in two runs: logs, early ends, visits and the texts they put out. -/
structure Coupling (ν : Type) [TreeNode ν] where
  log : List (Step ν) → List (Step ν) → Prop
  halt : Halt → Halt → Prop
  visit : Visit ν → Visit ν → Prop
  text : String → String → Prop
  log_nil : log [] []
  log_append {l l' m m' : List (Step ν)} : log l l' → log m m' → log (l ++ m) (l' ++ m')
  log_select (path : String) (node : ν) :
    log [.call (.select path node)] [.call (.select path node)]
  log_invoke {v v' : Visit ν} (rule : RuleHead) (fallback : Bool) :
    visit v v' → log [.invoke v rule fallback] [.invoke v' rule fallback]
  log_unmatched {v v' : Visit ν} : visit v v' → log [.unmatched v] [.unmatched v']
  halt_exhausted : halt .exhausted .exhausted
  halt_evaluation (e : EvaluationError) :
    halt (.failure (.evaluation e)) (.failure (.evaluation e))
  halt_rule (message : String) : halt (.failure (.rule message)) (.failure (.rule message))
  halt_unmatched {v v' : Visit ν} : visit v v' →
    halt (.failure (.unmatched v.key.text v.mode (TreeNode.kind v.node)))
      (.failure (.unmatched v'.key.text v'.mode (TreeNode.kind v'.node)))
  exhausted_iff {h h' : Halt} : halt h h' → (h = .exhausted ↔ h' = .exhausted)
  node_eq {v v' : Visit ν} : visit v v' → v'.node = v.node
  mode_eq {v v' : Visit ν} : visit v v' → v'.mode = v.mode
  descend {v v' : Visit ν} (hop : Hop) (mode : Mode) (node : ν) :
    visit v v' → visit (v.descend hop mode node) (v'.descend hop mode node)
  text_refl (s : String) : text s s
  text_append {s s' t t' : String} : text s s' → text t t' → text (s ++ t) (s' ++ t')

variable [TreeNode ν] {c : Coupling ν}

structure Run.Coupled (c : Coupling ν) (S : α → β → Prop) (r : Run ν α) (r' : Run ν β) : Prop where
  log : c.log r.log r'.log
  result : Ends c.halt S r.result r'.result

/-- Visits that correspond are at the same node and in the same mode, so that each call of the one
run is a call of the other. -/
def Coupling.lockstep (c : Coupling ν) : Lockstep ν ν where
  log := c.log
  halt := c.halt
  visit := c.visit
  node := (· = ·)
  sites := (· = ·)
  text := c.text
  log_nil := c.log_nil
  log_append := c.log_append
  log_unmatched := c.log_unmatched
  halt_exhausted := c.halt_exhausted
  halt_rule := c.halt_rule
  halt_unmatched := c.halt_unmatched
  exhausted_iff := c.exhausted_iff
  children hv := by rw [c.node_eq hv, List.forall₂_eq_eq_eq]
  attr name _ _ hv := by rw [c.node_eq hv]
  sites_fresh := rfl
  sites_passed query next _ _ _ _ hv hs := by rw [hs, Visit.passed, Visit.passed, c.mode_eq hv]
  descend query next position _ _ _ _ _ _ hv hs hn := by
    subst hs hn
    rw [c.mode_eq hv]
    exact c.descend _ _ _ hv
  text_refl := c.text_refl
  text_append := c.text_append

/-- The parts of a body that look at the visit or at a failure put out corresponding texts, and
those that depend on the depth are performed in both runs or in none. -/
def Body.Respects (c : Coupling ν) : Body → Prop
  | field f => ∀ {v v' : Visit ν}, c.visit v v' → c.text (v.field f) (v'.field f)
  | attempt b => (∀ {f f' : Failure}, c.halt (.failure f) (.failure f') →
      c.text ("!" ++ f.text ++ "!") ("!" ++ f'.text ++ "!")) ∧ b.Respects c
  | within depth b =>
    (∀ {v v' : Visit ν}, c.visit v v' → (v.depth < depth ↔ v'.depth < depth)) ∧ b.Respects c
  | seq a b => a.Respects c ∧ b.Respects c
  | _ => True

theorem Body.Respects.keepsStep {b : Body} (h : b.Respects c) : b.KeepsStep c.lockstep := by
  induction b with
  | field f => exact h
  | attempt b ih => exact ⟨h.1, ih h.2⟩
  | within depth b ih => exact ⟨h.1, ih h.2⟩
  | seq a b iha ihb => exact ⟨iha h.1, ihb h.2⟩
  | _ => trivial

/-- The same rule with a body that does the same in both runs, found in the same way. -/
structure Coupling.Finds (c : Coupling ν) (found found' : Rule Body × Bool) : Prop where
  head : found'.1.head = found.1.head
  body : found'.1.body = found.1.body
  fallback : found'.2 = found.2
  respects : found.1.body.Respects c

/-- Visits that correspond come to the same, once the searches of both runs do. -/
theorem Registry.coupled_visit {g g' : Registry Body} {ev : Evaluator ν}
    (winners : ∀ node mode,
      (ev.winner g node mode).Coupled c (Option.Rel c.Finds) (ev.winner g' node mode))
    (policy : UnmatchedPolicy) (limit : Nat) {v v' : Visit ν} (hv : c.visit v v') :
    (g.visit ev policy limit v).Coupled c (Option.Rel c.text) (g'.visit ev policy limit v') := by
  have searches {v v' : Visit ν} (hv : c.visit v v') :
      (ev.winner g v.node v.mode).InStep c.lockstep (Option.Rel (c.lockstep.Finds v v'))
        (ev.winner g' v'.node v'.mode) := by
    rw [c.node_eq hv, c.mode_eq hv]
    obtain ⟨log, result⟩ := winners v.node v.mode
    refine ⟨log, result.mono fun _ _ h => ?_⟩
    cases h with
    | none => exact .none
    | some h =>
      refine .some ⟨?_, h.body, h.respects.keepsStep⟩
      rw [h.head, h.fallback]
      exact c.log_invoke _ _ hv
  have queries (path : String) {v v' : Visit ν} (hv : c.visit v v') :
      (ev.query path v.node).InStep c.lockstep (List.Forall₂ (· = ·)) (ev.query path v'.node) := by
    rw [c.node_eq hv, List.forall₂_eq_eq_eq]
    refine ⟨c.log_select path v.node, ?_⟩
    simp only [Evaluator.query, Run.ofReply]
    cases ev.select path v.node with
    | ok ns => exact .ok rfl
    | error e => exact .error (c.halt_evaluation e)
  have h := inStep_visit (L := c.lockstep) searches queries policy limit hv
  exact ⟨h.log, h.result⟩

end Stylesheet
