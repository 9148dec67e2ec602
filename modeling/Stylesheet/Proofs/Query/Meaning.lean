import Mathlib.Data.Set.Card
import Stylesheet.Proofs.Document.Order
import Stylesheet.Query.Syntax

namespace Stylesheet.Query

open Document

variable {d : Document}

def Axis.Relates (n m : d.Node) : Axis → Prop
  | self => m = n
  | child => IsParent n m
  | parent => IsParent m n
  | ancestor => IsAncestor m n
  | ancestorOrSelf => m = n ∨ IsAncestor m n
  | descendant => IsAncestor n m
  | descendantOrSelf => m = n ∨ IsAncestor n m
  | followingSibling => ∃ p, IsParent p n ∧ IsParent p m ∧ Precedes n m
  | precedingSibling => ∃ p, IsParent p n ∧ IsParent p m ∧ Precedes m n

/-- The axis leads to `a` before it leads to `b`: axes that look back lead against the document
order. -/
def Axis.Nearer (a b : d.Node) : Axis → Prop
  | parent | ancestor | ancestorOrSelf | precedingSibling => Precedes b a
  | _ => Precedes a b

def NodeTest.Admits (n : d.Node) : NodeTest → Prop
  | any => True
  | element name => n.kind = .element ∧ ∀ x ∈ name, n.name? = some x
  | text => n.kind = .text
  | comment => n.kind = .comment
  | instruction target => n.kind = .processingInstruction ∧ ∀ x ∈ target, n.name? = some x
  | document => n.kind = .document

def HasAttribute (n : d.Node) (name : String) (comparison : Option Comparison) : Prop :=
  ∃ value, n.attribute? name = some value ∧ ∀ c ∈ comparison, (value = c.value ↔ c.equal = true)

/-- The position of `m`, from 1, among the nodes `S` along the axis. -/
noncomputable def Axis.position (axis : Axis) (S : d.Node → Prop) (m : d.Node) : Nat :=
  {x | S x ∧ axis.Nearer x m}.ncard + 1

mutual

def Predicate.Meets (n : d.Node) (position : Nat) : Predicate → Prop
  | .position k => position = k
  | .attribute name comparison => HasAttribute n name comparison
  | .not p => ¬p.Meets n position
  | .selects paths => ∃ m, Leads n m paths

/-- The node is in `S` and stays when the predicates sort out nodes one after another, each with the
positions among the nodes that are left. -/
def Survives (axis : Axis) (S : d.Node → Prop) (m : d.Node) : List Predicate → Prop
  | [] => S m
  | p :: ps => Survives axis (fun x => S x ∧ p.Meets x (axis.position S x)) m ps

def Step.Leads (n m : d.Node) : Step → Prop
  | .mk axis test predicates =>
    Survives axis (fun x => axis.Relates n x ∧ test.Admits x) m predicates

def Chain (n m : d.Node) : List Step → Prop
  | [] => n = m
  | s :: ss => ∃ c, s.Leads n c ∧ Chain c m ss

def Path.Leads (n m : d.Node) : Path → Prop
  | .mk absolute steps => Chain (if absolute then d.root else n) m steps

def Leads (n m : d.Node) : List Path → Prop
  | [] => False
  | p :: ps => p.Leads n m ∨ Leads n m ps

end

theorem leads_iff {n m : d.Node} {q : List Path} : Leads n m q ↔ ∃ p ∈ q, p.Leads n m := by
  induction q with
  | nil => simp [Leads]
  | cons p ps ih => simp [Leads, ih]

end Stylesheet.Query
