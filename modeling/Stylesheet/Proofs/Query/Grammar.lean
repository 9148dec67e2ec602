import Stylesheet.Query.Parser

/-! The grammar of queries. A phrase is one derivation of the grammar; it has the tokens that it is
written with and the tree that it stands for. -/

namespace Stylesheet.Query

inductive Part
  | query
  | path
  | steps
  | step
  | predicates
  | predicate

namespace Part

def Tree : Part → Type
  | query => Query
  | path => Path
  | steps => List Step
  | step => Step
  | predicates => List Predicate
  | predicate => Predicate

end Part

/-- What may stand between the parentheses of a node test. -/
inductive Argument
  | nothing
  | star
  | name (a : String)
  | literal (a : String)
  deriving DecidableEq

namespace Argument

def tokens : Argument → List Token
  | nothing => []
  | star => [.symbol .star]
  | name a => [.name a]
  | literal a => [.literal a]

def value : Argument → Option String
  | nothing | star => none
  | name a | literal a => some a

end Argument

/-- The node tests whose parentheses hold nothing, or a star. -/
inductive BareKind
  | node
  | text
  | comment
  | document
  deriving DecidableEq

namespace BareKind

def name : BareKind → String
  | node => "node"
  | text => "text"
  | comment => "comment"
  | document => "document-node"

def test : BareKind → NodeTest
  | node => .any
  | text => .text
  | comment => .comment
  | document => .document

end BareKind

inductive TestPhrase
  | star
  | name (n : String)
  | bare (k : BareKind) (starred : Bool)
  | element (a : Argument)
  | instruction (a : Argument)
  deriving DecidableEq

namespace TestPhrase

def call (kind : String) (a : Argument) : List Token :=
  .name kind :: .symbol .leftParen :: (a.tokens ++ [.symbol .rightParen])

def tokens : TestPhrase → List Token
  | star => [.symbol .star]
  | name n => [.name n]
  | bare k starred => call k.name (if starred then .star else .nothing)
  | element a => call "element" a
  | instruction a => call "processing-instruction" a

def test : TestPhrase → NodeTest
  | star => .element none
  | name n => .element (some n)
  | bare k _ => k.test
  | element a => .element a.value
  | instruction a => .instruction a.value

end TestPhrase

inductive Operand
  | literal (v : String)
  | number (n : Nat)
  deriving DecidableEq

namespace Operand

def token : Operand → Token
  | literal v => .literal v
  | number n => .number n

def value : Operand → String
  | literal v => v
  | number n => toString n

end Operand

inductive Slash
  | single
  | double
  deriving DecidableEq

namespace Slash

def symbol : Slash → Symbol
  | single => .slash
  | double => .doubleSlash

/-- Steps with the one before them that is not written. -/
def before : Slash → List Step → List Step
  | single, ss => ss
  | double, ss => .descendants :: ss

end Slash

inductive Phrase : Part → Type
  | alone (p : Phrase .path) : Phrase .query
  | union (p : Phrase .path) (q : Phrase .query) : Phrase .query
  | root : Phrase .path
  | absolute (l : Slash) (ss : Phrase .steps) : Phrase .path
  | relative (ss : Phrase .steps) : Phrase .path
  | last (s : Phrase .step) : Phrase .steps
  | join (s : Phrase .step) (l : Slash) (ss : Phrase .steps) : Phrase .steps
  | dot : Phrase .step
  | doubleDot : Phrase .step
  | tested (axis : Option Axis) (t : TestPhrase) (ps : Phrase .predicates) : Phrase .step
  | none : Phrase .predicates
  | more (p : Phrase .predicate) (ps : Phrase .predicates) : Phrase .predicates
  | position (n : Nat) : Phrase .predicate
  | attributed (name : String) (comparison : Option (Bool × Operand)) : Phrase .predicate
  | not (p : Phrase .predicate) : Phrase .predicate
  | selects (q : Phrase .query) : Phrase .predicate

def axisTokens : Option Axis → List Token
  | .none => []
  | some a => [.name a.name, .symbol .doubleColon]

def comparisonTokens : Option (Bool × Operand) → List Token
  | .none => []
  | some (equal, v) => [.symbol (if equal then .equal else .notEqual), v.token]

namespace Phrase

def tokens {k : Part} : Phrase k → List Token
  | .alone p => p.tokens
  | .union p q => p.tokens ++ .symbol .pipe :: q.tokens
  | .root => [.symbol .slash]
  | .absolute l ss => .symbol l.symbol :: ss.tokens
  | .relative ss => ss.tokens
  | .last s => s.tokens
  | .join s l ss => s.tokens ++ .symbol l.symbol :: ss.tokens
  | .dot => [.symbol .dot]
  | .doubleDot => [.symbol .doubleDot]
  | .tested axis t ps => axisTokens axis ++ (t.tokens ++ ps.tokens)
  | .none => []
  | .more p ps => .symbol .leftBracket :: (p.tokens ++ .symbol .rightBracket :: ps.tokens)
  | .position n => [.number n]
  | .attributed name comparison => .symbol .atSign :: .name name :: comparisonTokens comparison
  | .not p => .name "not" :: .symbol .leftParen :: (p.tokens ++ [.symbol .rightParen])
  | .selects q => q.tokens

def tree {k : Part} : Phrase k → k.Tree
  | .alone p => [p.tree]
  | .union p q => (p.tree :: q.tree : List Path)
  | .root => Path.mk true []
  | .absolute l ss => Path.mk true (l.before ss.tree)
  | .relative ss => Path.mk false ss.tree
  | .last s => [s.tree]
  | .join s l ss => (s.tree :: (l.before ss.tree) : List Step)
  | .dot => Step.mk .self .any []
  | .doubleDot => Step.mk .parent .any []
  | .tested axis t ps => Step.mk (axis.getD .child) t.test ps.tree
  | .none => ([] : List Predicate)
  | .more p ps => (p.tree :: ps.tree : List Predicate)
  | .position n => Predicate.position n
  | .attributed name comparison =>
    Predicate.attribute name (comparison.map fun c => ⟨c.1, c.2.value⟩)
  | .not p => Predicate.not p.tree
  | .selects q => Predicate.selects q.tree

def paths {k : Part} : Phrase k → List (Phrase .path)
  | .alone p => [p]
  | .union p q => p :: q.paths
  | _ => []

/-- The steps that are written outside of all predicates. -/
def steps {k : Part} : Phrase k → List (Phrase .step)
  | .absolute _ ss => ss.steps
  | .relative ss => ss.steps
  | .last s => s.steps
  | .join s _ ss => s.steps ++ ss.steps
  | .dot => [.dot]
  | .doubleDot => [.doubleDot]
  | .tested axis t ps => [.tested axis t ps]
  | _ => []

def predicates {k : Part} : Phrase k → List (Phrase .predicate)
  | .tested _ _ ps => ps.predicates
  | .more p ps => p :: ps.predicates
  | _ => []

theorem exists_alone {e : Phrase .query} {path : Path} (h : e.tree = [path]) :
    ∃ p, e = .alone p := by
  cases e with
  | alone p => exact ⟨p, rfl⟩
  | union p q =>
    have hq : q.tree ≠ ([] : Query) := by
      cases q with
      | alone p => exact List.cons_ne_nil p.tree []
      | union p q => exact List.cons_ne_nil p.tree q.tree
    exact absurd (List.cons.inj h).2 hq

end Phrase

end Stylesheet.Query
