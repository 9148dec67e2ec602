import Stylesheet.Document.Node
import Stylesheet.Evaluator
import Stylesheet.Query.Parser

namespace Stylesheet

namespace Query

variable {d : Document}

/-- The nodes along an axis, those nearer to the context first. -/
def Axis.nodes (n : d.Node) : Axis → List d.Node
  | self => [n]
  | child => n.children
  | parent => n.parent?.toList
  | ancestor => n.ancestors
  | ancestorOrSelf => n :: n.ancestors
  | descendant => n.descendants
  | descendantOrSelf => n :: n.descendants
  | followingSibling => n.followingSiblings
  | precedingSibling => n.precedingSiblings

def NodeTest.holds (n : d.Node) : NodeTest → Bool
  | any => true
  | element none => n.kind == .element
  | element (some name) => n.kind == .element && n.name? == some name
  | text => n.kind == .text
  | comment => n.kind == .comment
  | instruction none => n.kind == .processingInstruction
  | instruction (some target) => n.kind == .processingInstruction && n.name? == some target
  | document => n.kind == .document

/-- Without a comparison the attribute has to be there, and with one too. -/
def attributeHolds (n : d.Node) (name : String) (comparison : Option Comparison) : Bool :=
  match n.attribute? name, comparison with
  | none, _ => false
  | some _, none => true
  | some actual, some c => (actual == c.value) == c.equal

mutual

/-- Whether the node passes, being at this position, from 1, among its fellows. -/
def Predicate.holds (n : d.Node) (position : Nat) : Predicate → Bool
  | .position k => position == k
  | .attribute name comparison => attributeHolds n name comparison
  | .not p => !p.holds n position
  | .selects paths => !(union n paths).isEmpty

/-- Each predicate counts positions among the nodes that the earlier ones left. -/
def refine (ns : List d.Node) : List Predicate → List d.Node
  | [] => ns
  | p :: ps => refine (((ns.zipIdx 1).filter fun m => p.holds m.1 m.2).map Prod.fst) ps

def Step.select (n : d.Node) : Step → List d.Node
  | .mk axis test predicates => refine ((axis.nodes n).filter test.holds) predicates

def follow (ns : List d.Node) : List Step → List d.Node
  | [] => ns
  | s :: ss => follow (Document.inDocumentOrder (ns.flatMap fun n => s.select n)) ss

def Path.select (n : d.Node) : Path → List d.Node
  | .mk absolute steps => follow [if absolute then d.root else n] steps

def union (n : d.Node) : List Path → List d.Node
  | [] => []
  | p :: ps => p.select n ++ union n ps

end

end Query

/-- The selected nodes in document order, each once. -/
def Query.select {d : Document} (q : Query) (n : d.Node) : List d.Node :=
  Document.inDocumentOrder (Query.union n q)

/-- Queries as patterns: a node matches if it selects any node. -/
def Evaluator.ofQueries (d : Document) : Evaluator d.Node where
  accepts pattern node := do
    return !((← parse pattern).select node).isEmpty
  select path context := do
    return (← parse path).select context
where
  parse (s : String) : Except EvaluationError Query :=
    (Query.parse s).mapError fun fault => ⟨s, fault.message⟩

end Stylesheet
