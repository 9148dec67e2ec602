/-! What a pattern is made of, as a set of flags. -/

namespace Stylesheet

inductive Feature
  | nameTest
  | wildcard
  | kindTest
  | predicate
  | attributePredicate
  | positionalPredicate
  | union
  deriving DecidableEq

def Feature.all : List Feature :=
  [nameTest, wildcard, kindTest, predicate, attributePredicate, positionalPredicate, union]

def Feature.index : Feature → Nat
  | nameTest => 0
  | wildcard => 1
  | kindTest => 2
  | predicate => 3
  | attributePredicate => 4
  | positionalPredicate => 5
  | union => 6

def Feature.name : Feature → String
  | nameTest => "NAME_TEST"
  | wildcard => "WILDCARD"
  | kindTest => "KIND_TEST"
  | predicate => "PREDICATE"
  | attributePredicate => "ATTRIBUTE_PREDICATE"
  | positionalPredicate => "POSITIONAL_PREDICATE"
  | union => "UNION"

/-- Sixteen flags, of which the first seven have names. -/
structure Features where
  bits : BitVec 16
  deriving DecidableEq

namespace Features

def empty : Features := ⟨0⟩

def single (f : Feature) : Features := ⟨BitVec.twoPow 16 f.index⟩

instance : Union Features := ⟨fun a b => ⟨a.bits ||| b.bits⟩⟩

instance : Membership Feature Features := ⟨fun a f => a.bits.getLsbD f.index = true⟩

instance (f : Feature) (a : Features) : Decidable (f ∈ a) :=
  inferInstanceAs (Decidable (a.bits.getLsbD f.index = true))

def toList (a : Features) : List Feature :=
  Feature.all.filter (· ∈ a)

@[ext] theorem ext {a b : Features} (h : a.bits = b.bits) : a = b := by
  cases a; cases b; simp_all

@[simp] theorem not_mem_empty (f : Feature) : f ∉ empty := by
  cases f <;> decide

@[simp] theorem mem_single {f g : Feature} : f ∈ single g ↔ f = g := by
  cases f <;> cases g <;> decide

@[simp] theorem mem_union {f : Feature} {a b : Features} : f ∈ a ∪ b ↔ f ∈ a ∨ f ∈ b := by
  show (a.bits ||| b.bits).getLsbD f.index = true ↔ _
  rw [BitVec.getLsbD_or, Bool.or_eq_true]
  rfl

theorem union_assoc (a b c : Features) : a ∪ b ∪ c = a ∪ (b ∪ c) :=
  ext (BitVec.or_assoc ..)

theorem union_comm (a b : Features) : a ∪ b = b ∪ a :=
  ext (BitVec.or_comm ..)

@[simp] theorem union_self (a : Features) : a ∪ a = a :=
  ext BitVec.or_self

@[simp] theorem empty_union (a : Features) : empty ∪ a = a :=
  ext BitVec.zero_or

@[simp] theorem union_empty (a : Features) : a ∪ empty = a :=
  ext BitVec.or_zero

end Features

end Stylesheet
