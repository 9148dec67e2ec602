/-! Queries: unions of paths, which go step by step from one set of nodes to the next. -/

namespace Stylesheet

namespace Query

inductive Axis
  | self
  | child
  | parent
  | ancestor
  | ancestorOrSelf
  | descendant
  | descendantOrSelf
  | followingSibling
  | precedingSibling
  deriving DecidableEq

def Axis.all : List Axis :=
  [self, child, parent, ancestor, ancestorOrSelf, descendant, descendantOrSelf, followingSibling,
    precedingSibling]

def Axis.name : Axis → String
  | self => "self"
  | child => "child"
  | parent => "parent"
  | ancestor => "ancestor"
  | ancestorOrSelf => "ancestor-or-self"
  | descendant => "descendant"
  | descendantOrSelf => "descendant-or-self"
  | followingSibling => "following-sibling"
  | precedingSibling => "preceding-sibling"

def Axis.ofName? (name : String) : Option Axis :=
  all.find? fun a => a.name == name

/-- Without a name, any element; without a target, any processing instruction. -/
inductive NodeTest
  | any
  | element (name : Option String)
  | text
  | comment
  | instruction (target : Option String)
  | document
  deriving DecidableEq

structure Comparison where
  equal : Bool
  value : String
  deriving DecidableEq

mutual

inductive Predicate
  | position (n : Nat)
  | attribute (name : String) (comparison : Option Comparison)
  | not (p : Predicate)
  | selects (paths : List Path)

inductive Step
  | mk (axis : Axis) (test : NodeTest) (predicates : List Predicate)

inductive Path
  | mk (absolute : Bool) (steps : List Step)

end

/-- The step that a double slash stands for. -/
def Step.descendants : Step := .mk .descendantOrSelf .any []

end Query

abbrev Query := List Query.Path

end Stylesheet
