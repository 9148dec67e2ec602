/-! The rank of a pattern. -/

namespace Stylesheet

/-- A number that stops at 65535. -/
structure Count where
  val : Nat
  val_le : val ≤ 65535
  deriving DecidableEq

namespace Count

def ofNat (n : Nat) : Count := ⟨min n 65535, Nat.min_le_right ..⟩

instance (n : Nat) : OfNat Count n := ⟨ofNat n⟩

instance : Add Count := ⟨fun a b => ofNat (a.val + b.val)⟩

@[ext] theorem ext {a b : Count} (h : a.val = b.val) : a = b := by
  cases a; cases b; simp_all

@[simp] theorem val_ofNat (n : Nat) : (ofNat n).val = min n 65535 := rfl

@[simp] theorem val_add (a b : Count) : (a + b).val = min (a.val + b.val) 65535 := rfl

@[simp] theorem val_zero : (0 : Count).val = 0 := rfl

@[simp] theorem val_one : (1 : Count).val = 1 := rfl

@[simp] theorem val_two : (2 : Count).val = 2 := rfl

theorem add_comm (a b : Count) : a + b = b + a := by
  ext; simp; omega

theorem add_assoc (a b c : Count) : a + b + c = a + (b + c) := by
  ext; simp; omega

@[simp] theorem zero_add (a : Count) : 0 + a = a := by
  have := a.val_le
  ext; simp; omega

@[simp] theorem add_zero (a : Count) : a + 0 = a := by
  rw [add_comm, zero_add]

theorem ofNat_add (m n : Nat) : ofNat (m + n) = ofNat m + ofNat n := by
  ext; simp; omega

end Count

/-- The greater rank wins; an earlier part decides before a later one. -/
@[ext] structure Specificity where
  predicates : Count
  attributePredicates : Count
  nodeTests : Count
  steps : Count
  deriving DecidableEq

namespace Specificity

def zero : Specificity := ⟨0, 0, 0, 0⟩

instance : Add Specificity where
  add a b :=
    ⟨a.predicates + b.predicates, a.attributePredicates + b.attributePredicates,
      a.nodeTests + b.nodeTests, a.steps + b.steps⟩

def compare (a b : Specificity) : Ordering :=
  (Ord.compare a.predicates.val b.predicates.val).then <|
  (Ord.compare a.attributePredicates.val b.attributePredicates.val).then <|
  (Ord.compare a.nodeTests.val b.nodeTests.val).then <|
  Ord.compare a.steps.val b.steps.val

instance : Ord Specificity := ⟨compare⟩

instance : LT Specificity := ⟨fun a b => a.compare b = .lt⟩

instance : LE Specificity := ⟨fun a b => a.compare b ≠ .gt⟩

instance (a b : Specificity) : Decidable (a < b) :=
  inferInstanceAs (Decidable (a.compare b = .lt))

instance (a b : Specificity) : Decidable (a ≤ b) :=
  inferInstanceAs (Decidable (a.compare b ≠ .gt))

instance : Min Specificity := ⟨fun a b => if a ≤ b then a else b⟩

instance : ToString Specificity where
  toString s :=
    s!"({s.predicates.val},{s.attributePredicates.val},{s.nodeTests.val},{s.steps.val})"

theorem lt_iff {a b : Specificity} :
    a < b ↔ a.predicates.val < b.predicates.val ∨ a.predicates.val = b.predicates.val ∧
      (a.attributePredicates.val < b.attributePredicates.val ∨
        a.attributePredicates.val = b.attributePredicates.val ∧
      (a.nodeTests.val < b.nodeTests.val ∨ a.nodeTests.val = b.nodeTests.val ∧
        a.steps.val < b.steps.val)) := by
  show a.compare b = .lt ↔ _
  simp only [compare, Ordering.then_eq_lt, Nat.compare_eq_lt, Nat.compare_eq_eq]

theorem le_iff {a b : Specificity} :
    a ≤ b ↔ a.predicates.val < b.predicates.val ∨ a.predicates.val = b.predicates.val ∧
      (a.attributePredicates.val < b.attributePredicates.val ∨
        a.attributePredicates.val = b.attributePredicates.val ∧
      (a.nodeTests.val < b.nodeTests.val ∨ a.nodeTests.val = b.nodeTests.val ∧
        a.steps.val ≤ b.steps.val)) := by
  show a.compare b ≠ .gt ↔ _
  simp only [compare, ne_eq, Ordering.then_eq_gt, Nat.compare_eq_gt, Nat.compare_eq_eq]
  omega

end Specificity

end Stylesheet
