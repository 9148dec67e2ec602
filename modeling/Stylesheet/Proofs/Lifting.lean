import Stylesheet.Proofs.Unfolding
import Stylesheet.Proofs.Winner

/-! Relations of runs that sequencing keeps. A body that passes errors on is put together from
calls, its own failures and visits by sequencing alone, so what relates these relates its runs. -/

namespace Stylesheet

variable {ν α β : Type}

/-- No part of the body recovers from a failure. -/
def Body.passesOn : Body → Bool
  | attempt _ => false
  | within _ b => b.passesOn
  | seq a b => a.passesOn && b.passesOn
  | _ => true

theorem Registry.passesOn_of_winner {history : List (Registration Body)}
    (passesOn : ∀ r ∈ history, r.body.passesOn = true) {ev : Evaluator ν} {node : ν} {mode : Mode}
    {rule : Rule Body} {fallback : Bool}
    (h : (ev.winner (ofList history) node mode).result = .ok (some (rule, fallback))) :
    rule.body.passesOn = true := by
  obtain ⟨r, hr, hb⟩ := body_of_winner h
  rw [hb]
  exact passesOn r hr

/-- Sequencing keeps the relation, and runs that make the same call have it. -/
structure Run.Lifts (ev : Evaluator ν) (R : ⦃α : Type⦄ → Run ν α → Run ν α → Prop) : Prop where
  pure {α : Type} (x : α) : R (Pure.pure x) (Pure.pure x)
  bind {α β : Type} {r r' : Run ν α} {f f' : α → Run ν β} :
    R r r' → (∀ x, r.result = .ok x → R (f x) (f' x)) → R (r >>= f) (r' >>= f')
  ask (pattern : String) (node : ν) : R (ev.ask pattern node) (ev.ask pattern node)
  query (path : String) (node : ν) : R (ev.query path node) (ev.query path node)
  fallBack (mode : Mode) : R (note (.fallBack mode)) (note (.fallBack mode))

section

variable [TreeNode ν]

def Visit.passed (v : Visit ν) (query : Option String) (next : NextMode) (s : Sites) : Sites :=
  ⟨s.calls + 1, s.childTaken || (query.isNone && (next.after v.mode).isDefault)⟩

theorem Visit.traverse_snd (enter : Visit ν → Run ν (Option String)) (ev : Evaluator ν)
    (v : Visit ν) (query : Option String) (next : NextMode) (s : Sites) :
    (v.traverse enter ev query next s).2 = v.passed query next s := by
  cases query with
  | some path => simp [traverse, passed]
  | none =>
    simp only [traverse, passed]
    split <;> simp_all

def Body.passed (v : Visit ν) : Body → Sites → Sites
  | traverse query next _, s => v.passed query next s
  | within depth b, s => if v.depth < depth then b.passed v s else s
  | seq a b, s => b.passed v (a.passed v s)
  | _, s => s

variable {enter : Visit ν → Run ν (Option String)} {ev : Evaluator ν} {v : Visit ν}

theorem Body.perform_snd {b : Body} (hb : b.passesOn = true) {s : Sites} {x : String}
    (h : (b.perform enter ev v s).1.result = .ok x) :
    (b.perform enter ev v s).2 = b.passed v s := by
  induction b generalizing s x with
  | skip => rfl
  | lit text => rfl
  | field f => rfl
  | attr name => rfl
  | fail message => rfl
  | traverse query next gather => exact v.traverse_snd enter ev query next s
  | attempt b ih => cases hb
  | within depth b ih =>
    simp only [perform, passed] at h ⊢
    split at h
    next hd => rw [if_pos hd, if_pos hd, ih hb h]
    next hd => rw [if_neg hd, if_neg hd]
  | seq a b iha ihb =>
    simp only [passesOn, Bool.and_eq_true] at hb
    simp only [perform] at h ⊢
    cases ha : (a.perform enter ev v s).1.result with
    | error e =>
      rw [ha] at h
      cases h
    | ok y =>
      rw [ha] at h
      rw [iha hb.1 ha] at h ⊢
      cases hr : (b.perform enter ev v (a.passed v s)).1.result with
      | error e =>
        simp only [hr] at h
        cases h
      | ok z => exact ihb hb.2 hr

theorem Body.perform_seq {a : Body} (ha : a.passesOn = true) (b : Body) (s : Sites) :
    ((seq a b).perform enter ev v s).1 = (a.perform enter ev v s).1 >>= fun x =>
      (x ++ ·) <$> (b.perform enter ev v (a.passed v s)).1 := by
  simp only [perform]
  cases h : (a.perform enter ev v s).1.result with
  | error e => rw [Run.bind_error h]
  | ok x => rw [Run.bind_ok h, Run.map_eq, perform_snd ha h]

end

namespace Run.Lifts

variable {R : ⦃α : Type⦄ → Run ν α → Run ν α → Prop} {ev : Evaluator ν}

section

variable (lifts : Lifts ev R)

include lifts

theorem map {r r' : Run ν α} (f : α → β) (h : R r r') : R (f <$> r) (f <$> r') := by
  rw [← bind_pure_comp, ← bind_pure_comp]
  exact lifts.bind h fun x _ => lifts.pure (f x)

theorem firstMatch (node : ν) (rules : List (Rule β)) :
    R (ev.firstMatch node rules) (ev.firstMatch node rules) := by
  induction rules with
  | nil => exact lifts.pure none
  | cons r rest ih =>
    exact lifts.bind (lifts.ask r.head.pattern node) fun _ _ =>
      lifts.bind ih fun _ _ => lifts.pure _

theorem winner (g : Registry β) (node : ν) (mode : Mode) :
    R (ev.winner g node mode) (ev.winner g node mode) := by
  apply lifts.bind (lifts.firstMatch node (g.ranked mode))
  intro found _
  cases found with
  | some r => exact lifts.pure _
  | none =>
    dsimp only
    split
    · exact lifts.pure none
    · apply lifts.bind (lifts.fallBack mode)
      intro _ _
      exact lifts.bind (lifts.firstMatch node (g.ranked .default)) fun _ _ => lifts.pure _

end

variable [TreeNode ν]

section

variable {v : Visit ν} (lifts : Lifts ev R) (enter enter' : Visit ν → Run ν (Option String))
  (entered : ∀ hop mode node,
    R (enter (v.descend hop mode node)) (enter' (v.descend hop mode node)))

include lifts entered

theorem enterAll (hop : Nat → Hop) (mode : Mode) (position : Nat) (ns : List ν) :
    R (v.enterAll enter hop mode position ns) (v.enterAll enter' hop mode position ns) := by
  induction ns generalizing position with
  | nil => exact lifts.pure []
  | cons n ns ih =>
    exact lifts.bind (entered (hop position) mode n) fun _ _ =>
      lifts.bind (ih (position + 1)) fun _ _ => lifts.pure _

theorem traverse (query : Option String) (next : NextMode) (s : Sites) :
    R (v.traverse enter ev query next s).1 (v.traverse enter' ev query next s).1 := by
  unfold Visit.traverse
  cases query with
  | some path =>
    exact lifts.bind (lifts.query path v.node) fun _ _ => lifts.enterAll enter enter' entered ..
  | none =>
    dsimp only
    split <;> exact lifts.enterAll enter enter' entered ..

theorem perform (fails : ∀ message, R (α := String) (.fail (.rule message)) (.fail (.rule message)))
    {b : Body} (hb : b.passesOn = true) (s : Sites) :
    R (b.perform enter ev v s).1 (b.perform enter' ev v s).1 := by
  induction b generalizing s with
  | skip => exact lifts.pure ""
  | lit text => exact lifts.pure text
  | field f => exact lifts.pure (v.field f)
  | attr name => exact lifts.pure _
  | fail message => exact fails message
  | traverse query next gather =>
    exact lifts.map gather.text (lifts.traverse _ _ entered query next s)
  | attempt b ih => cases hb
  | within depth b ih =>
    simp only [Body.perform]
    split
    · exact ih hb s
    · exact lifts.pure ""
  | seq a b iha ihb =>
    simp only [Body.passesOn, Bool.and_eq_true] at hb
    rw [Body.perform_seq hb.1, Body.perform_seq hb.1]
    exact lifts.bind (iha hb.1 s) fun x _ => lifts.map (x ++ ·) (ihb hb.2 (a.passed v s))

end

/-- Visits have the relation if their answers have it once the visits of their bodies do. The depth
of a visit takes away from the levels. -/
theorem visit {g : Registry Body} {p q : UnmatchedPolicy} {levels : Nat} (lifts : Lifts ev R)
    (exhausted : R (α := Option String) (.halt .exhausted) (.halt .exhausted))
    (answered : ∀ {limit} {v : Visit ν} {found}, limit + (v.depth + 1) = levels →
      (ev.winner g v.node v.mode).result = .ok found →
      (∀ hop mode node, R (g.visit ev p limit (v.descend hop mode node))
        (g.visit ev q limit (v.descend hop mode node))) →
      R (v.answer (g.visit ev p limit) ev p found) (v.answer (g.visit ev q limit) ev q found))
    {limit : Nat} {v : Visit ν} (hl : limit + v.depth = levels) :
    R (g.visit ev p limit v) (g.visit ev q limit v) := by
  induction limit generalizing v with
  | zero => exact exhausted
  | succ limit ih =>
    have hl : limit + (v.depth + 1) = levels := by omega
    rw [Registry.visit_succ, Registry.visit_succ]
    apply lifts.bind (lifts.winner g v.node v.mode)
    intro found hf
    exact answered hl hf fun hop mode node => ih hl

end Run.Lifts

end Stylesheet
