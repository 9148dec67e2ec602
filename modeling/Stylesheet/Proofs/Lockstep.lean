import Mathlib.Data.List.Forall2
import Stylesheet.Proofs.Turns

/-! Runs in lockstep, perhaps over different trees and with different registries and evaluators. If
the searches of two runs and the queries of their bodies go in step, then the runs do from any two
visits that correspond. -/

namespace Stylesheet

variable {ν ν' α β γ δ : Type}

inductive Ends (halt : Halt → Halt → Prop) (S : α → β → Prop) :
    Except Halt α → Except Halt β → Prop
  | ok {x : α} {y : β} : S x y → Ends halt S (.ok x) (.ok y)
  | error {h h' : Halt} : halt h h' → Ends halt S (.error h) (.error h')

theorem Ends.mono {halt : Halt → Halt → Prop} {S T : α → β → Prop} {x : Except Halt α}
    {y : Except Halt β} (h : Ends halt S x y) (hST : ∀ x y, S x y → T x y) : Ends halt T x y := by
  cases h with
  | ok h => exact .ok (hST _ _ h)
  | error h => exact .error h

/-- What corresponds in two runs. Nothing is said of searches and queries: that these go in step is
asked of the registries and the evaluators. -/
structure Lockstep (ν ν' : Type) [TreeNode ν] [TreeNode ν'] where
  log : List (Step ν) → List (Step ν') → Prop
  halt : Halt → Halt → Prop
  visit : Visit ν → Visit ν' → Prop
  node : ν → ν' → Prop
  sites : Sites → Sites → Prop
  text : String → String → Prop
  log_nil : log [] []
  log_append {l m : List (Step ν)} {l' m' : List (Step ν')} :
    log l l' → log m m' → log (l ++ m) (l' ++ m')
  log_unmatched {v : Visit ν} {v' : Visit ν'} : visit v v' → log [.unmatched v] [.unmatched v']
  halt_exhausted : halt .exhausted .exhausted
  halt_rule (message : String) : halt (.failure (.rule message)) (.failure (.rule message))
  halt_unmatched {v : Visit ν} {v' : Visit ν'} : visit v v' →
    halt (.failure (.unmatched v.key.text v.mode (TreeNode.kind v.node)))
      (.failure (.unmatched v'.key.text v'.mode (TreeNode.kind v'.node)))
  exhausted_iff {h h' : Halt} : halt h h' → (h = .exhausted ↔ h' = .exhausted)
  children {v : Visit ν} {v' : Visit ν'} : visit v v' →
    List.Forall₂ node (TreeNode.children v.node) (TreeNode.children v'.node)
  attr (name : String) {v : Visit ν} {v' : Visit ν'} : visit v v' →
    TreeNode.attr v'.node name = TreeNode.attr v.node name
  sites_fresh : sites .fresh .fresh
  sites_passed (query : Option String) (next : NextMode) {v : Visit ν} {v' : Visit ν'}
    {s s' : Sites} : visit v v' → sites s s' →
    sites (v.passed query next s) (v'.passed query next s')
  descend (query : Option String) (next : NextMode) (position : Nat) {v : Visit ν} {v' : Visit ν'}
    {s s' : Sites} {n : ν} {n' : ν'} : visit v v' → sites s s' → node n n' →
    visit (v.descend (Request.hop ⟨query, next.after v.mode⟩ s position) (next.after v.mode) n)
      (v'.descend (Request.hop ⟨query, next.after v'.mode⟩ s' position) (next.after v'.mode) n')
  text_refl (s : String) : text s s
  text_append {s s' t t' : String} : text s s' → text t t' → text (s ++ t) (s' ++ t')

variable [TreeNode ν] [TreeNode ν'] {L : Lockstep ν ν'}

structure Run.InStep (L : Lockstep ν ν') (S : α → β → Prop) (r : Run ν α) (r' : Run ν' β) :
    Prop where
  log : L.log r.log r'.log
  result : Ends L.halt S r.result r'.result

namespace Run.InStep

section

variable {S T : α → β → Prop} {r : Run ν α} {r' : Run ν' β} (h : InStep L S r r')

include h

theorem mono (hST : ∀ {x y}, S x y → T x y) : InStep L T r r' :=
  ⟨h.log, h.result.mono fun _ _ => hST⟩

theorem and_ok : InStep L (fun x y => r.result = .ok x ∧ S x y) r r' := by
  obtain ⟨log, result⟩ := r
  obtain ⟨log', result'⟩ := r'
  obtain ⟨hl, hr⟩ := h
  cases hr with
  | ok hxy => exact ⟨hl, .ok ⟨rfl, hxy⟩⟩
  | error hh => exact ⟨hl, .error hh⟩

end

variable {S : α → β → Prop} {T : γ → δ → Prop}

theorem pure {x : α} {y : β} (h : S x y) : InStep L S (Pure.pure x) (Pure.pure y) :=
  ⟨L.log_nil, .ok h⟩

theorem bind {r : Run ν α} {r' : Run ν' β} {f : α → Run ν γ} {f' : β → Run ν' δ}
    (h : InStep L S r r') (hf : ∀ {x y}, S x y → InStep L T (f x) (f' y)) :
    InStep L T (r >>= f) (r' >>= f') := by
  obtain ⟨log, result⟩ := r
  obtain ⟨log', result'⟩ := r'
  obtain ⟨hl, hr⟩ := h
  cases hr with
  | ok hxy =>
    rw [bind_ok rfl, bind_ok rfl]
    exact ⟨L.log_append hl (hf hxy).log, (hf hxy).result⟩
  | error hh =>
    rw [bind_error rfl, bind_error rfl]
    exact ⟨hl, .error hh⟩

theorem map {r : Run ν α} {r' : Run ν' β} {f : α → γ} {f' : β → δ} (h : InStep L S r r')
    (hf : ∀ {x y}, S x y → T (f x) (f' y)) : InStep L T (f <$> r) (f' <$> r') := by
  rw [← bind_pure_comp, ← bind_pure_comp]
  exact h.bind fun hxy => pure (hf hxy)

theorem note {s : Step ν} {s' : Step ν'} (h : L.log [s] [s']) :
    InStep L (fun _ _ => True) (note s) (note s') :=
  ⟨h, .ok trivial⟩

theorem halt {h h' : Halt} (hh : L.halt h h') : InStep L S (halt h) (halt h') :=
  ⟨L.log_nil, .error hh⟩

end Run.InStep

namespace Lockstep

theorem text_join {xs ys : List String} (h : List.Forall₂ L.text xs ys) (g : Gather) :
    L.text (g.text xs) (g.text ys) := by
  cases g with
  | count =>
    rw [Gather.text, Gather.text, h.length_eq]
    exact L.text_refl _
  | join separator =>
    induction h with
    | nil => exact L.text_refl _
    | cons hxy h ih =>
      cases h with
      | nil => simpa only [Gather.text, String.intercalate_singleton] using hxy
      | cons hxy' h =>
        simp only [Gather.text, String.intercalate_cons_cons] at ih ⊢
        exact L.text_append (L.text_append hxy (L.text_refl _)) ih

end Lockstep

/-- The parts of a body that look at the visit or at a failure put out corresponding texts, and
those that depend on the depth are performed in both runs or in none. -/
def Body.KeepsStep (L : Lockstep ν ν') : Body → Prop
  | field f => ∀ {v v'}, L.visit v v' → L.text (v.field f) (v'.field f)
  | attempt b => (∀ {f f' : Failure}, L.halt (.failure f) (.failure f') →
      L.text ("!" ++ f.text ++ "!") ("!" ++ f'.text ++ "!")) ∧ b.KeepsStep L
  | within depth b =>
    (∀ {v v'}, L.visit v v' → (v.depth < depth ↔ v'.depth < depth)) ∧ b.KeepsStep L
  | seq a b => a.KeepsStep L ∧ b.KeepsStep L
  | _ => True

section

variable {enter : Visit ν → Run ν (Option String)} {enter' : Visit ν' → Run ν' (Option String)}
  {ev : Evaluator ν} {ev' : Evaluator ν'} {v : Visit ν} {v' : Visit ν'}
  (he : ∀ {u u'}, L.visit u u' → (enter u).InStep L (Option.Rel L.text) (enter' u'))

include he

theorem Visit.inStep_enterAll {hop hop' : Nat → Hop} {mode mode' : Mode}
    (hd : ∀ position {n n'}, L.node n n' →
      L.visit (v.descend (hop position) mode n) (v'.descend (hop' position) mode' n'))
    (position : Nat) {ns : List ν} {ns' : List ν'} (hns : List.Forall₂ L.node ns ns') :
    (v.enterAll enter hop mode position ns).InStep L (List.Forall₂ L.text)
      (v'.enterAll enter' hop' mode' position ns') := by
  induction hns generalizing position with
  | nil => exact .pure .nil
  | cons hn _ ih =>
    refine (he (hd position hn)).bind fun houtput => (ih (position + 1)).map fun h => ?_
    refine List.rel_append ?_ h
    cases houtput with
    | none => exact .nil
    | some hxy => exact .cons hxy .nil

variable (hq : ∀ path {u u'}, L.visit u u' →
  (ev.query path u.node).InStep L (List.Forall₂ L.node) (ev'.query path u'.node))

include hq

theorem Visit.inStep_traverse (hv : L.visit v v') (query : Option String) (next : NextMode)
    {s s' : Sites} (hs : L.sites s s') : (v.traverse enter ev query next s).1.InStep L
      (List.Forall₂ L.text) (v'.traverse enter' ev' query next s').1 := by
  rw [traverse_fst, traverse_fst]
  have selected : (Request.select ev v ⟨query, next.after v.mode⟩).InStep L (List.Forall₂ L.node)
      (Request.select ev' v' ⟨query, next.after v'.mode⟩) := by
    cases query with
    | some path => exact hq path hv
    | none => exact .pure (L.children hv)
  exact selected.bind fun hns =>
    inStep_enterAll he (fun position _ _ hn => L.descend query next position hv hs hn) 0 hns

theorem Body.inStep_perform (hv : L.visit v v') {b : Body} (hb : b.KeepsStep L) {s s' : Sites}
    (hs : L.sites s s') : L.sites (b.perform enter ev v s).2 (b.perform enter' ev' v' s').2 ∧
      (b.perform enter ev v s).1.InStep L L.text (b.perform enter' ev' v' s').1 := by
  induction b generalizing s s' with
  | skip => exact ⟨hs, .pure (L.text_refl _)⟩
  | lit text => exact ⟨hs, .pure (L.text_refl _)⟩
  | field f => exact ⟨hs, .pure (hb hv)⟩
  | attr name =>
    refine ⟨hs, .pure ?_⟩
    rw [L.attr name hv]
    exact L.text_refl _
  | fail message => exact ⟨hs, .halt (L.halt_rule message)⟩
  | traverse query next gather =>
    simp only [perform, Visit.traverse_snd]
    refine ⟨L.sites_passed query next hv hs, ?_⟩
    exact (Visit.inStep_traverse he hq hv query next hs).map fun h => L.text_join h gather
  | attempt b ih =>
    obtain ⟨hs', h⟩ := ih hb.2 hs
    simp only [perform]
    generalize b.perform enter ev v s = r at hs' h
    generalize b.perform enter' ev' v' s' = r' at hs' h
    obtain ⟨⟨log, result⟩, t⟩ := r
    obtain ⟨⟨log', result'⟩, t'⟩ := r'
    obtain ⟨hl, hr⟩ := h
    cases hr with
    | ok hxy => exact ⟨hs', hl, .ok hxy⟩
    | @error e e' hh =>
      cases e with
      | exhausted =>
        obtain rfl := (L.exhausted_iff hh).1 rfl
        exact ⟨hs', hl, .error hh⟩
      | failure f =>
        cases e' with
        | exhausted => cases (L.exhausted_iff hh).2 rfl
        | failure f' => exact ⟨hs', hl, .ok (hb.1 hh)⟩
  | within depth b ih =>
    simp only [perform, ← hb.1 hv]
    split
    · exact ih hb.2 hs
    · exact ⟨hs, .pure (L.text_refl _)⟩
  | seq a b iha ihb =>
    obtain ⟨hs', h⟩ := iha hb.1 hs
    simp only [perform]
    generalize a.perform enter ev v s = r at hs' h
    generalize a.perform enter' ev' v' s' = r' at hs' h
    obtain ⟨⟨log, result⟩, t⟩ := r
    obtain ⟨⟨log', result'⟩, t'⟩ := r'
    obtain ⟨hl, hr⟩ := h
    cases hr with
    | error hh => exact ⟨hs', hl, .error hh⟩
    | ok hxy =>
      obtain ⟨hs'', hm, hr'⟩ := ihb hb.2 hs'
      refine ⟨hs'', L.log_append hl hm, ?_⟩
      -- The output of the second part comes after the output of the first.
      generalize (b.perform enter ev v t).1.result = x at hr'
      generalize (b.perform enter' ev' v' t').1.result = x' at hr'
      cases hr' with
      | error hh => exact .error hh
      | ok hxy' => exact .ok (L.text_append hxy hxy')

end

structure Lockstep.Finds (L : Lockstep ν ν') (v : Visit ν) (v' : Visit ν')
    (found found' : Rule Body × Bool) : Prop where
  invoked : L.log [.invoke v found.1.head found.2] [.invoke v' found'.1.head found'.2]
  body : found'.1.body = found.1.body
  keepsStep : found.1.body.KeepsStep L

/-- Visits that correspond go in step if searches and queries do. -/
theorem Registry.inStep_visit {g g' : Registry Body} {ev : Evaluator ν} {ev' : Evaluator ν'}
    (winners : ∀ {v v'}, L.visit v v' →
      (ev.winner g v.node v.mode).InStep L (Option.Rel (L.Finds v v'))
        (ev'.winner g' v'.node v'.mode))
    (queries : ∀ path {v v'}, L.visit v v' →
      (ev.query path v.node).InStep L (List.Forall₂ L.node) (ev'.query path v'.node))
    (policy : UnmatchedPolicy) (limit : Nat) {v : Visit ν} {v' : Visit ν'} (hv : L.visit v v') :
    (g.visit ev policy limit v).InStep L (Option.Rel L.text) (g'.visit ev' policy limit v') := by
  induction limit generalizing v v' with
  | zero => exact .halt L.halt_exhausted
  | succ limit ih =>
    rw [visit_succ, visit_succ]
    refine (winners hv).bind fun {found found'} h => ?_
    cases h with
    | none =>
      refine (Run.InStep.note (L.log_unmatched hv)).bind fun _ => ?_
      split
      · exact .halt (L.halt_unmatched hv)
      · exact .pure .none
    | @some found found' h =>
      obtain ⟨⟨head, sequence, body⟩, fallback⟩ := found
      obtain ⟨⟨head', sequence', body'⟩, fallback'⟩ := found'
      obtain ⟨invoked, rfl, keeps⟩ := h
      refine (Run.InStep.note invoked).bind fun _ => ?_
      exact (Body.inStep_perform ih queries hv keeps L.sites_fresh).2.map .some

end Stylesheet
