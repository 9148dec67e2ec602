import Stylesheet.Proofs.Pattern.Depth
import Stylesheet.Proofs.Pattern.Feature
import Stylesheet.Proofs.Pattern.Union

/-! The counts of a score and its flags come about on two ways: counts are sums that stop at 65535,
of which a union keeps the least, and flags are all that occurs anywhere. Still they fit together,
whatever the text is. -/

namespace Stylesheet

theorem Count.add_pos {a b : Count} : 0 < (a + b).val ↔ 0 < a.val ∨ 0 < b.val := by
  rw [val_add]
  omega

structure Specificity.Bounded (s : Specificity) : Prop where
  attributes : s.attributePredicates.val ≤ s.predicates.val
  nodeTests : s.nodeTests.val ≤ 2 * s.steps.val

theorem Specificity.Bounded.add {a b : Specificity} (ha : a.Bounded) (hb : b.Bounded) :
    (a + b).Bounded where
  attributes := by
    have := ha.attributes
    have := hb.attributes
    simp only [attributePredicates_add, predicates_add, Count.val_add]
    omega
  nodeTests := by
    have := ha.nodeTests
    have := hb.nodeTests
    simp only [nodeTests_add, steps_add, Count.val_add]
    omega

namespace Pattern

namespace Score

/-- Each flag stands for a count that is not zero. -/
structure Agrees (s : Score) : Prop where
  bounded : s.specificity.Bounded
  union : .union ∉ s.features
  predicate : .predicate ∈ s.features ↔ 0 < s.specificity.predicates.val
  attributePredicate :
    .attributePredicate ∈ s.features ↔ 0 < s.specificity.attributePredicates.val
  positionalPredicate : .positionalPredicate ∈ s.features → .predicate ∈ s.features
  nodeTest : .nameTest ∈ s.features ∨ .kindTest ∈ s.features ↔ 0 < s.specificity.nodeTests.val
  step : .nameTest ∈ s.features ∨ .kindTest ∈ s.features ∨ .wildcard ∈ s.features
    ↔ 0 < s.specificity.steps.val

theorem mem_features_add {f : Feature} {a b : Score} :
    f ∈ (a + b).features ↔ f ∈ a.features ∨ f ∈ b.features :=
  Features.mem_union

theorem agrees_zero : zero.Agrees where
  bounded := ⟨Nat.le_refl 0, Nat.le_refl 0⟩
  union := Features.not_mem_empty _
  predicate := by simp [zero, Specificity.zero]
  attributePredicate := by simp [zero, Specificity.zero]
  positionalPredicate := by simp [zero]
  nodeTest := by simp [zero, Specificity.zero]
  step := by simp [zero, Specificity.zero]

theorem Agrees.add {a b : Score} (ha : a.Agrees) (hb : b.Agrees) : (a + b).Agrees where
  bounded := ha.bounded.add hb.bounded
  union := by
    rw [mem_features_add, not_or]
    exact ⟨ha.union, hb.union⟩
  predicate := by
    rw [mem_features_add, ha.predicate, hb.predicate]
    exact Count.add_pos.symm
  attributePredicate := by
    rw [mem_features_add, ha.attributePredicate, hb.attributePredicate]
    exact Count.add_pos.symm
  positionalPredicate := by
    rw [mem_features_add, mem_features_add]
    exact Or.imp ha.positionalPredicate hb.positionalPredicate
  nodeTest := by
    rw [mem_features_add, mem_features_add, or_or_or_comm, ha.nodeTest, hb.nodeTest]
    exact Count.add_pos.symm
  step := by
    refine Iff.trans ?_ ((or_congr ha.step hb.step).trans Count.add_pos.symm)
    simp only [mem_features_add]
    tauto

theorem agrees_ofTest (test : List Char) : (ofTest test).Agrees := by
  rw [ofTest]
  generalize TestClass.of test = k
  constructor
  case bounded => cases k <;> exact ⟨by decide, by decide⟩
  all_goals cases k <;> simp [TestClass.weight, TestClass.feature]

theorem agrees_ofPredicate (predicate : List Char) : (ofPredicate predicate).Agrees := by
  rw [ofPredicate]
  generalize tellsPosition predicate = counted
  generalize predicate.contains '@' = tested
  constructor
  case bounded => constructor <;> cases tested <;> simp
  all_goals cases tested <;> cases counted <;> simp

theorem agrees_sum {α : Type} {score : α → Score} (h : ∀ x, (score x).Agrees) (l : List α) :
    (sum (l.map score)).Agrees := by
  induction l with
  | nil => exact agrees_zero
  | cons x l ih =>
    rw [List.map_cons, sum_cons]
    exact (h x).add ih

theorem agrees_ofStep (step : List Char) : (ofStep step).Agrees :=
  (agrees_ofTest _).add (agrees_sum agrees_ofPredicate _)

theorem agrees_ofBranch (branch : List Char) : (ofBranch branch).Agrees :=
  agrees_sum agrees_ofStep _

theorem of_eq_ofBranch {P : String} {branch : List Char} (h : branches P = [branch]) :
    of P = ofBranch branch := by
  have score : of P = ⟨weakest (((branches P).map ofBranch).map (·.specificity)),
    (sum ((branches P).map ofBranch)).features ∪
      (if 1 < (branches P).length then .single .union else .empty)⟩ := rfl
  rw [score, h]
  apply ext
  · rfl
  · simp

end Score

end Pattern

open Pattern

theorem Specificity.bounded_of (P : String) : (of P).Bounded := by
  have least : weakest ((branches P).map fun b => (Score.ofBranch b).specificity) ∈
      (branches P).map fun b => (Score.ofBranch b).specificity :=
    weakest_mem (mt List.map_eq_nil_iff.1 (branches_ne_nil P))
  obtain ⟨b, -, hb⟩ := List.mem_map.1 least
  rw [of_branches, ← hb]
  exact (Score.agrees_ofBranch b).bounded

theorem Features.mem_of_branches {P : String} {f : Feature} : f ∈ of P ↔
    (∃ b ∈ branches P, f ∈ (Score.ofBranch b).features) ∨ 1 < (branches P).length ∧ f = .union :=
  mem_union.trans (or_congr Score.mem_sum_map mem_ite)

theorem Features.union_mem_of {P : String} : .union ∈ of P ↔ 1 < (branches P).length := by
  rw [mem_of_branches, and_iff_left rfl]
  apply or_iff_right
  rintro ⟨b, -, hb⟩
  exact (Score.agrees_ofBranch b).union hb

theorem Pattern.one_lt_length_branches {P : String} :
    1 < (branches P).length ↔ StandsOutside '|' (stripLiterals P.toList) :=
  one_lt_length_splitOutside rfl rfl

/-- Counts and flags fit together for every text. Those of a union need not be of one alternative;
without a bar outside of the brackets each flag stands for a count. -/
theorem Pattern.counts_agree_with_flags (P : String) :
    (Specificity.of P).Bounded ∧
      (.union ∈ Features.of P ↔ 1 < (branches P).length) ∧
      (1 < (branches P).length ↔ StandsOutside '|' (stripLiterals P.toList)) ∧
      (.attributePredicate ∈ Features.of P ∨ .positionalPredicate ∈ Features.of P →
        .predicate ∈ Features.of P) ∧
      (¬StandsOutside '|' (stripLiterals P.toList) → (Score.of P).Agrees) := by
  refine ⟨Specificity.bounded_of P, Features.union_mem_of, one_lt_length_branches, ?_, ?_⟩
  · simp only [Features.mem_of_branches, reduceCtorEq, and_false, or_false]
    rintro (⟨b, hb, h⟩ | ⟨b, hb, h⟩)
    · have agrees := Score.agrees_ofBranch b
      have counted := agrees.attributePredicate.1 h
      exact ⟨b, hb, agrees.predicate.2 (Nat.lt_of_lt_of_le counted agrees.bounded.attributes)⟩
    · exact ⟨b, hb, (Score.agrees_ofBranch b).positionalPredicate h⟩
  · intro h
    have pos := List.length_pos_iff.2 (branches_ne_nil P)
    have one : (branches P).length = 1 := by
      rw [← one_lt_length_branches] at h
      omega
    obtain ⟨b, hb⟩ := List.length_eq_one_iff.1 one
    rw [Score.of_eq_ofBranch hb]
    exact Score.agrees_ofBranch b

/-- A bracket that closes too early takes the next one that opens, so that the bar of the first text
stands outside of the brackets, and the last predicate of the second one inside of two. -/
theorem Pattern.counts_agree_with_flags_unbalanced :
    let P := "]p[@k|q[1]/r[@x]"
    let Q := "p[@k|q]]/r[[1]"
    (.attributePredicate ∈ Features.of P ∧ .predicate ∈ Features.of P ∧ .union ∈ Features.of P ∧
      Specificity.of P = ⟨0, 0, 2, 1⟩) ∧
      ¬StandsOutside '|' (stripLiterals Q.toList) ∧ (Score.of Q).Agrees ∧
      Specificity.of Q = ⟨2, 1, 2, 1⟩ := by
  intro P Q
  obtain ⟨-, union, -, predicate, -⟩ := counts_agree_with_flags P
  obtain ⟨-, -, outside, -, agrees⟩ := counts_agree_with_flags Q
  have tested : .attributePredicate ∈ Features.of P := by decide +kernel
  have two : 1 < (branches P).length := by decide +kernel
  have inside : ¬StandsOutside '|' (stripLiterals Q.toList) := by
    rw [← outside]
    decide +kernel
  refine ⟨⟨tested, predicate (.inl tested), union.2 two, ?_⟩, inside, agrees inside, ?_⟩
  · decide +kernel
  · decide +kernel

end Stylesheet
