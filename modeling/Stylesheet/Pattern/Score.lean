import Stylesheet.Pattern.Feature
import Stylesheet.Pattern.Specificity
import Stylesheet.Pattern.Split
import Stylesheet.Text.Blank
import Stylesheet.Text.Decimal

/-! Scoring a pattern by its text alone. A step counts its predicates, those with an attribute, the
weight of its node test, and itself; a path sums its steps, and a union is as weak as its weakest
alternative. -/

namespace Stylesheet.Pattern

open Text

/-- Leaves two quotation marks of each closed literal. -/
def stripLiterals (s : List Char) : List Char :=
  go [] s
where
  go (done : List Char) : List Char → List Char
    | [] => done.reverse
    | c :: rest =>
      if (c == '"' || c == '\'') && rest.contains c then
        go ('\'' :: '\'' :: done) (rest.dropWhile (· != c)).tail
      else go (c :: done) rest
  termination_by s => s.length
  decreasing_by
    · have := (List.dropWhile_sublist (l := rest) (· != c)).length_le
      simp
      omega
    · simp

/-- What follows the first double colon. -/
def afterAxis? : List Char → Option (List Char)
  | ':' :: ':' :: rest => some rest
  | _ :: rest => afterAxis? rest
  | [] => none

def contains (part : List Char) : List Char → Bool
  | [] => part.isEmpty
  | c :: rest => part.isPrefixOf (c :: rest) || contains part rest

/-- Digits, perhaps after a plus sign, of a number that fits into 32 bits. -/
def isNumeral (s : List Char) : Bool :=
  let digits := if s.head? == some '+' then s.tail else s
  !digits.isEmpty && (decimal? 4294967296 digits).isSome

def tellsPosition (predicate : List Char) : Bool :=
  let p := trim predicate
  isNumeral p || contains "position()".toList p || contains "last()".toList p

structure Score where
  specificity : Specificity
  features : Features
  deriving DecidableEq

instance : Add Score where
  add a b := ⟨a.specificity + b.specificity, a.features ∪ b.features⟩

def Score.zero : Score := ⟨.zero, .empty⟩

def Score.sum (scores : List Score) : Score :=
  scores.foldl (· + ·) .zero

/-- The kind of a node test, the axis and any attribute signs cut off. -/
inductive TestClass
  | wildcard
  | kind
  | name
  deriving DecidableEq

def TestClass.weight : TestClass → Count
  | wildcard => 0
  | kind => 1
  | name => 2

def TestClass.feature : TestClass → Feature
  | wildcard => .wildcard
  | kind => .kindTest
  | name => .nameTest

def bareTest (test : List Char) : List Char :=
  let test := trim test
  trim ((afterAxis? test).getD (test.dropWhile (· == '@')))

def isWild (test : List Char) : Bool :=
  test == [] || test == ['*'] || test == ['.'] || test == ['.', '.'] || test == "node()".toList

/-- The argument of an element or attribute test, up to a comma, parenthesis or blank. -/
def argument? (test : List Char) : Option (List Char) :=
  let rest? :=
    if "element(".toList.isPrefixOf test then some (test.drop 8)
    else if "attribute(".toList.isPrefixOf test then some (test.drop 10)
    else none
  rest?.map fun rest => (trimLeft rest).takeWhile fun c => !(c == ')' || c == ',' || isBlank c)

def TestClass.ofBare (test : List Char) : TestClass :=
  if isWild test then wildcard
  else match argument? test with
    | some argument => if argument == [] || argument == ['*'] then kind else name
    | none => if [')'].isSuffixOf test || [':', '*'].isSuffixOf test then kind else name

def TestClass.of (test : List Char) : TestClass :=
  ofBare (bareTest test)

def Score.ofTest (test : List Char) : Score :=
  let k := TestClass.of test
  ⟨⟨0, 0, k.weight, 1⟩, .single k.feature⟩

def Score.ofPredicate (predicate : List Char) : Score :=
  let tested := predicate.contains '@'
  ⟨⟨1, if tested then 1 else 0, 0, 0⟩,
    .single .predicate
      ∪ (if tested then .single .attributePredicate else .empty)
      ∪ (if tellsPosition predicate then .single .positionalPredicate else .empty)⟩

def Score.ofStep (step : List Char) : Score :=
  .ofTest (nodeTest step) + .sum ((predicates step).map .ofPredicate)

/-- Empty steps, as around a double slash, count nothing. -/
def Score.ofBranch (branch : List Char) : Score :=
  .sum ((((splitOutside '/' branch).map trim).filter (· ≠ [])).map .ofStep)

def weakest : List Specificity → Specificity
  | [] => .zero
  | s :: rest => rest.foldl min s

def Score.ofChars (pattern : List Char) : Score :=
  let branches := splitOutside '|' (stripLiterals pattern)
  let scores := branches.map Score.ofBranch
  ⟨weakest (scores.map (·.specificity)),
    (Score.sum scores).features ∪ (if 1 < branches.length then .single .union else .empty)⟩

def Score.of (pattern : String) : Score :=
  .ofChars pattern.toList

end Stylesheet.Pattern

namespace Stylesheet

def Specificity.of (pattern : String) : Specificity :=
  (Pattern.Score.of pattern).specificity

def Features.of (pattern : String) : Features :=
  (Pattern.Score.of pattern).features

end Stylesheet
