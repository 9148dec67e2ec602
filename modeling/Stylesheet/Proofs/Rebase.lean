import Mathlib.Data.List.ReduceOption
import Stylesheet.Proofs.Coupling
import Stylesheet.Proofs.Winner

/-! A visit in the middle of a run does what a run from its node does, only that its keys go on from
the key of the visit and its depths from the depth of the visit. -/

namespace Stylesheet

/-- Where a run is taken up: the route and the depth of its first visit, and the scope that the
visits have which find no identifier on their way. -/
structure Base where
  hops : List Hop
  depth : Nat
  scope : Option String

variable {ν α : Type}

def Visit.rebase (b : Base) (v : Visit ν) : Visit ν :=
  ⟨v.node, v.mode, ⟨b.hops ++ v.key.hops, v.key.scope.orElse fun _ => b.scope⟩, b.depth + v.depth⟩

def Step.rebase (b : Base) : Step ν → Step ν
  | invoke v rule fallback => invoke (v.rebase b) rule fallback
  | unmatched v => unmatched (v.rebase b)
  | s => s

inductive Halt.Rebased (ν : Type) [TreeNode ν] (b : Base) : Halt → Halt → Prop
  | exhausted : Rebased ν b .exhausted .exhausted
  | evaluation (e : EvaluationError) :
      Rebased ν b (.failure (.evaluation e)) (.failure (.evaluation e))
  | rule (message : String) : Rebased ν b (.failure (.rule message)) (.failure (.rule message))
  | unmatched (v : Visit ν) :
      Rebased ν b (.failure (.unmatched v.key.text v.mode (TreeNode.kind v.node)))
        (.failure (.unmatched (v.rebase b).key.text v.mode (TreeNode.kind v.node)))

def Field.tellsPlace : Field → Bool
  | key | depth | renderer => true
  | _ => false

namespace Body

def depthless : Body → Bool
  | within .. => false
  | attempt b => b.depthless
  | seq a b => a.depthless && b.depthless
  | _ => true

/-- No text of the body tells the key or the depth, and failures are passed on. -/
def placeless : Body → Bool
  | field f => !f.tellsPlace
  | attempt _ => false
  | within _ b => b.placeless
  | seq a b => a.placeless && b.placeless
  | _ => true

end Body

theorem Visit.path_rebase (b : Base) (v : Visit ν) :
    (v.rebase b).key.path = Key.path ⟨b.hops, b.scope⟩ ++ v.key.path.tail := by
  simp [rebase, Key.path]

variable [TreeNode ν]

theorem Visit.rebase_descend (b : Base) (v : Visit ν) (hop : Hop) (mode : Mode) (node : ν) :
    (v.descend hop mode node).rebase b = (v.rebase b).descend hop mode node := by
  simp only [descend, rebase, Key.descend, List.append_assoc, Visit.mk.injEq, Key.mk.injEq,
    true_and, Nat.add_assoc, and_true]
  cases TreeNode.identifier node <;> rfl

/-- A visit is the first visit of a run from its node, taken up where it stands. -/
theorem Visit.descend_eq_rebase (v : Visit ν) (hop : Hop) (mode : Mode) (node : ν) :
    v.descend hop mode node
      = (root node mode).rebase ⟨v.key.hops ++ [hop], v.depth + 1, v.key.scope⟩ := by
  simp [descend, root, rebase, Key.descend, Key.root]

theorem Visit.root_rebase (node : ν) (mode : Mode) :
    (root node mode).rebase ⟨[], 0, none⟩ = root node mode := by
  simp only [root, rebase, Key.root]
  cases TreeNode.identifier node <;> rfl

/-- A run and the same run taken up at `b`; if no text tells the place, the texts are the same. -/
def Coupling.rebase (ν : Type) [TreeNode ν] (b : Base) (placeless : Prop) : Coupling ν where
  log l l' := l' = l.map (Step.rebase b)
  halt := Halt.Rebased ν b
  visit v v' := v' = v.rebase b
  text s s' := placeless → s' = s
  log_nil := rfl
  log_append h k := by rw [h, k, List.map_append]
  log_select _ _ := rfl
  log_invoke _ _ h := by rw [h]; rfl
  log_unmatched h := by rw [h]; rfl
  halt_exhausted := .exhausted
  halt_evaluation := .evaluation
  halt_rule := .rule
  halt_unmatched h := by rw [h]; exact .unmatched _
  exhausted_iff h := by cases h <;> simp
  node_eq h := by rw [h]; rfl
  mode_eq h := by rw [h]; rfl
  descend hop mode node h := by rw [h, Visit.rebase_descend]
  text_refl _ _ := rfl
  text_append h k hp := by rw [h hp, k hp]

theorem Body.respects_rebase {b : Base} {placeless : Prop} {body : Body}
    (level : body.depthless = true) (hp : placeless → body.placeless = true) :
    body.Respects (.rebase ν b placeless) := by
  induction body with
  | skip => trivial
  | lit text => trivial
  | attr name => trivial
  | traverse path next gather => trivial
  | fail message => trivial
  | field f =>
    rintro v v' rfl h
    have hf := hp h
    cases f with
    | key => simp [Body.placeless, Field.tellsPlace] at hf
    | depth => simp [Body.placeless, Field.tellsPlace] at hf
    | renderer => simp [Body.placeless, Field.tellsPlace] at hf
    | mode => rfl
    | kind => rfl
    | name => rfl
    | value => rfl
    | identifier => rfl
    | number => rfl
  | attempt body ih =>
    have hf : ¬placeless := by simpa [Body.placeless] using hp
    exact ⟨fun _ h => absurd h hf, ih level fun h => absurd h hf⟩
  | within depth body ih => simp [depthless] at level
  | seq a b iha ihb =>
    simp only [depthless, Bool.and_eq_true, Body.placeless] at level hp
    exact ⟨iha level.1 fun h => (hp h).1, ihb level.2 fun h => (hp h).2⟩

namespace Registry

variable {history : List (Registration Body)} {ev : Evaluator ν} {b : Base} {placeless : Prop}

theorem coupled_winner_rebase (level : ∀ r ∈ history, r.body.depthless = true)
    (hp : placeless → ∀ r ∈ history, r.body.placeless = true) (node : ν) (mode : Mode) :
    (ev.winner (ofList history) node mode).Coupled (.rebase ν b placeless)
      (Option.Rel (Coupling.rebase ν b placeless).Finds)
      (ev.winner (ofList history) node mode) where
  log := by
    have hv := ev.visits_winner (ofList history) node mode
    have fixed : ∀ s ∈ (ev.winner (ofList history) node mode).log, Step.rebase b s = s := by
      intro s hs
      have := List.filterMap_eq_nil_iff.1 hv s hs
      cases s <;> simp [Step.visit?] at this <;> rfl
    exact ((List.map_congr_left fixed).trans (List.map_id _)).symm
  result := by
    have searched := searched_ofList history ev node mode
    cases hr : (ev.winner (ofList history) node mode).result with
    | error e =>
      obtain ⟨f, rfl⟩ := searched.error hr
      exact .error (.evaluation f)
    | ok found =>
      cases found with
      | none => exact .ok .none
      | some found =>
        obtain ⟨x, hx, hb⟩ := body_of_winner hr
        refine .ok (.some ⟨rfl, rfl, rfl, ?_⟩)
        rw [hb]
        exact Body.respects_rebase (level x hx) fun h => hp h x hx

theorem coupled_visit_rebase (level : ∀ r ∈ history, r.body.depthless = true)
    (hp : placeless → ∀ r ∈ history, r.body.placeless = true) (policy : UnmatchedPolicy)
    (limit : Nat) (v : Visit ν) :
    ((ofList history).visit ev policy limit v).Coupled (.rebase ν b placeless)
      (Option.Rel fun s s' => placeless → s' = s)
      ((ofList history).visit ev policy limit (v.rebase b)) :=
  coupled_visit (coupled_winner_rebase level hp) policy limit rfl

end Registry

end Stylesheet
