import Mathlib
import Stylesheet.Proofs.Query.Select

namespace Stylesheet.Query

open Document

variable {d : Document}

/-- A number, also when it is negated. -/
def Predicate.countsPosition : Predicate → Bool
  | .position _ => true
  | .not p => p.countsPosition
  | .attribute _ _ | .selects _ => false

theorem Predicate.meets_iff {p : Predicate} (h : p.countsPosition = false) (n : d.Node)
    (i j : Nat) : p.Meets n i ↔ p.Meets n j :=
  match p with
  | .attribute name c => by simp only [Meets]
  | .not p => by
    rw [countsPosition] at h
    simp only [Meets, meets_iff h n i j]
  | .selects paths => by simp only [Meets]

theorem Predicate.meets_iff_forall {p : Predicate} (h : p.countsPosition = false) (n : d.Node)
    (i : Nat) : p.Meets n i ↔ ∀ j, p.Meets n j :=
  ⟨fun hn j => (meets_iff h n i j).1 hn, fun hn => hn i⟩

section Survives

variable {axis : Axis} {S : d.Node → Prop} {m : d.Node} {ps qs : List Predicate}

theorem survives_append :
    Survives axis S m (ps ++ qs) ↔ Survives axis (fun x => Survives axis S x ps) m qs := by
  induction ps generalizing S with
  | nil => simp only [List.nil_append, Survives]
  | cons p ps ih => simp only [List.cons_append, Survives, ih]

theorem survives_iff (h : ∀ p ∈ ps, p.countsPosition = false) :
    Survives axis S m ps ↔ S m ∧ ∀ p ∈ ps, ∀ i, p.Meets m i := by
  induction ps generalizing S with
  | nil => simp [Survives]
  | cons p ps ih =>
    obtain ⟨hp, hps⟩ := List.forall_mem_cons.1 h
    rw [Survives, ih hps, List.forall_mem_cons, and_assoc, Predicate.meets_iff_forall hp]

theorem survives_reordered {rest : List Predicate} (h : ∀ p ∈ ps, p.countsPosition = false)
    (mem : ∀ p, p ∈ qs ↔ p ∈ ps) :
    Survives axis S m (ps ++ rest) ↔ Survives axis S m (qs ++ rest) := by
  have h' : ∀ p ∈ qs, p.countsPosition = false := fun p hp => h p ((mem p).1 hp)
  simp only [survives_append, survives_iff h, survives_iff h', mem]

end Survives

theorem mem_select {q : Query} {n m : d.Node} : m ∈ q.select n ↔ Leads n m q := by
  rw [Query.select, mem_inDocumentOrder, mem_union]

theorem select_congr {p q : Query} {n : d.Node} (h : ∀ m, Leads n m p ↔ Leads n m q) :
    p.select n = q.select n := by
  refine eq_of_pairwise (fun _ _ => Precedes.asymm) (pairwise_inDocumentOrder _)
    (pairwise_inDocumentOrder _) fun m => ?_
  exact mem_select.trans ((h m).trans mem_select.symm)

end Stylesheet.Query
