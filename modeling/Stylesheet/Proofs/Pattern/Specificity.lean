import Stylesheet.Pattern.Score

namespace Stylesheet

namespace Specificity

theorem lt_irrefl (a : Specificity) : ¬a < a := by
  rw [lt_iff]
  omega

theorem lt_trans {a b c : Specificity} (h : a < b) (k : b < c) : a < c := by
  rw [lt_iff] at *
  omega

theorem lt_trichotomy (a b : Specificity) : a < b ∨ a = b ∨ b < a := by
  simp only [lt_iff, Specificity.ext_iff, Count.ext_iff]
  omega

theorem le_refl (a : Specificity) : a ≤ a := by
  rw [le_iff]
  omega

theorem le_trans {a b c : Specificity} (h : a ≤ b) (k : b ≤ c) : a ≤ c := by
  rw [le_iff] at *
  omega

theorem le_of_not_le {a b : Specificity} (h : ¬a ≤ b) : b ≤ a := by
  rw [le_iff] at *
  omega

@[simp] theorem predicates_add (a b : Specificity) :
    (a + b).predicates = a.predicates + b.predicates := rfl

@[simp] theorem attributePredicates_add (a b : Specificity) :
    (a + b).attributePredicates = a.attributePredicates + b.attributePredicates := rfl

@[simp] theorem nodeTests_add (a b : Specificity) :
    (a + b).nodeTests = a.nodeTests + b.nodeTests := rfl

@[simp] theorem steps_add (a b : Specificity) : (a + b).steps = a.steps + b.steps := rfl

theorem add_comm (a b : Specificity) : a + b = b + a := by
  ext1 <;> exact Count.add_comm ..

theorem add_assoc (a b c : Specificity) : a + b + c = a + (b + c) := by
  ext1 <;> exact Count.add_assoc ..

@[simp] theorem zero_add (a : Specificity) : zero + a = a := by
  ext1 <;> exact Count.zero_add _

end Specificity

theorem Specificity.min_eq (a b : Specificity) : min a b = a ∨ min a b = b := by
  show (if a ≤ b then a else b) = a ∨ (if a ≤ b then a else b) = b
  split
  · exact .inl rfl
  · exact .inr rfl

theorem Specificity.min_le (a b : Specificity) : min a b ≤ a ∧ min a b ≤ b := by
  show (if a ≤ b then a else b) ≤ a ∧ (if a ≤ b then a else b) ≤ b
  split
  next h => exact ⟨le_refl a, h⟩
  next h => exact ⟨le_of_not_le h, le_refl b⟩

theorem Count.le_add_right (a b : Count) : a.val ≤ (a + b).val :=
  Nat.le_min.2 ⟨Nat.le_add_right .., a.val_le⟩

theorem Specificity.le_add_right (a b : Specificity) : a ≤ a + b := by
  have h₁ := Count.le_add_right a.predicates b.predicates
  have h₂ := Count.le_add_right a.attributePredicates b.attributePredicates
  have h₃ := Count.le_add_right a.nodeTests b.nodeTests
  have h₄ := Count.le_add_right a.steps b.steps
  rw [le_iff, predicates_add, attributePredicates_add, nodeTests_add, steps_add]
  omega

theorem Specificity.lt_add_right {a b : Specificity} (ha : a.predicates.val < 65535)
    (hb : 0 < b.predicates.val) : a < a + b := by
  rw [lt_iff]
  left
  simp
  omega

namespace Pattern

theorem foldl_min_le (s : Specificity) (ss : List Specificity) :
    ss.foldl min s ≤ s ∧ ∀ t ∈ ss, ss.foldl min s ≤ t := by
  induction ss generalizing s with
  | nil => simp [Specificity.le_refl]
  | cons t ss ih =>
    obtain ⟨hm, hss⟩ := ih (min s t)
    obtain ⟨hs, ht⟩ := Specificity.min_le s t
    refine ⟨Specificity.le_trans hm hs, fun u hu => ?_⟩
    rcases List.mem_cons.1 hu with rfl | hu
    · exact Specificity.le_trans hm ht
    · exact hss u hu

theorem foldl_min_mem (s : Specificity) (ss : List Specificity) : ss.foldl min s ∈ s :: ss := by
  induction ss generalizing s with
  | nil => exact List.mem_cons_self
  | cons t ss ih =>
    rw [List.foldl_cons]
    rcases List.mem_cons.1 (ih (min s t)) with h | h
    · rw [h]
      rcases Specificity.min_eq s t with h | h
      · rw [h]
        exact List.mem_cons_self
      · rw [h]
        exact List.mem_cons_of_mem _ List.mem_cons_self
    · exact List.mem_cons_of_mem _ (List.mem_cons_of_mem _ h)

theorem weakest_le {s : Specificity} {ss : List Specificity} (h : s ∈ ss) : weakest ss ≤ s := by
  cases ss with
  | nil => cases h
  | cons t ss =>
    obtain ⟨ht, hss⟩ := foldl_min_le t ss
    rcases List.mem_cons.1 h with rfl | h
    · exact ht
    · exact hss s h

theorem weakest_mem {ss : List Specificity} (h : ss ≠ []) : weakest ss ∈ ss := by
  cases ss with
  | nil => exact absurd rfl h
  | cons s ss => exact foldl_min_mem s ss

theorem weakest_mono {a b : Specificity} (h : a ≤ b) (before after : List Specificity) :
    weakest (before ++ a :: after) ≤ weakest (before ++ b :: after) := by
  have hb : weakest (before ++ b :: after) ∈ before ++ b :: after := weakest_mem (by simp)
  rcases List.mem_append.1 hb with hb | hb
  · exact weakest_le (List.mem_append_left _ hb)
  · rcases List.mem_cons.1 hb with hb | hb
    · rw [hb]
      exact Specificity.le_trans (weakest_le (by simp)) h
    · exact weakest_le (List.mem_append_right _ (List.mem_cons_of_mem _ hb))

namespace Score

@[ext] theorem ext {a b : Score} (h : a.specificity = b.specificity)
    (h' : a.features = b.features) : a = b := by
  cases a; cases b; simp_all

@[simp] theorem specificity_add (a b : Score) :
    (a + b).specificity = a.specificity + b.specificity := rfl

theorem add_comm (a b : Score) : a + b = b + a :=
  ext (Specificity.add_comm ..) (Features.union_comm ..)

theorem add_assoc (a b c : Score) : a + b + c = a + (b + c) :=
  ext (Specificity.add_assoc ..) (Features.union_assoc ..)

@[simp] theorem zero_add (a : Score) : zero + a = a :=
  ext (Specificity.zero_add _) (Features.empty_union _)

@[simp] theorem add_zero (a : Score) : a + zero = a := by
  rw [add_comm, zero_add]

theorem add_right_comm (a b c : Score) : a + b + c = a + c + b := by
  rw [add_assoc, add_comm b, ← add_assoc]

@[simp] theorem sum_nil : sum [] = zero := rfl

theorem foldl_add (a : Score) (ss : List Score) : ss.foldl (· + ·) a = a + sum ss := by
  induction ss generalizing a with
  | nil => exact (add_zero a).symm
  | cons s ss ih =>
    show ss.foldl (· + ·) (a + s) = a + ss.foldl (· + ·) (zero + s)
    rw [ih, ih (zero + s), zero_add, add_assoc]

@[simp] theorem sum_cons (s : Score) (ss : List Score) : sum (s :: ss) = s + sum ss := by
  rw [sum, List.foldl_cons, foldl_add, zero_add]

@[simp] theorem sum_append (ss ts : List Score) : sum (ss ++ ts) = sum ss + sum ts := by
  rw [sum, List.foldl_append, foldl_add]
  rfl

end Score

end Pattern

end Stylesheet
