import Stylesheet.Document.Basic
import Stylesheet.TreeNode

namespace Stylesheet

namespace Content

def kind : Content → NodeKind
  | element .. => .element
  | text _ => .text
  | comment _ => .comment
  | instruction .. => .processingInstruction

def name? : Content → Option String
  | element n _ => some n
  | instruction t _ => some t
  | _ => none

def value? : Content → Option String
  | element .. => none
  | text v => some v
  | comment v => some v
  | instruction _ v => some v

def attributes : Content → Attributes
  | element _ a => a
  | _ => []

end Content

namespace Document

variable {d : Document}

namespace Node

def record (n : d.Node) : Record := getElem d.records n.val n.isLt

def content? (n : d.Node) : Option Content := n.record.placement.map (·.content)

def kind (n : d.Node) : NodeKind := (n.content?.map (·.kind)).getD .document

def name? (n : d.Node) : Option String := n.content?.bind (·.name?)

def value? (n : d.Node) : Option String := n.content?.bind (·.value?)

def attributes (n : d.Node) : Attributes := (n.content?.map (·.attributes)).getD []

def attribute? (n : d.Node) (name : String) : Option String := n.attributes.lookup name

def parent? (n : d.Node) : Option d.Node := n.record.placement.bind fun p => d.node? p.parent

def children (n : d.Node) : List d.Node := n.record.children.toList.filterMap d.node?

theorem placementAt_eq (n : d.Node) : placementAt d.records n.val = n.record.placement := by
  have := n.isLt
  rw [placementAt, Array.getElem?_eq_getElem this]
  rfl

theorem parentAt_eq (n : d.Node) :
    parentAt d.records n.val = n.record.placement.map (·.parent) := by
  rw [parentAt, placementAt_eq]

theorem node?_eq_some {i : Nat} {n : d.Node} : d.node? i = some n ↔ i = n.val := by
  unfold node?
  split
  · simp [Fin.ext_iff]
  · have := n.isLt
    simp
    omega

theorem parent?_eq_some {n p : d.Node} :
    n.parent? = some p ↔ parentAt d.records n.val = some p.val := by
  simp only [parent?, parentAt_eq, Option.bind_eq_some_iff, Option.map_eq_some_iff, node?_eq_some]

theorem mem_children {n c : d.Node} : c ∈ n.children ↔ c.parent? = some n := by
  have h := d.linked.children_eq n.val n.record (Array.getElem?_eq_getElem n.isLt)
  simp only [children, h, List.mem_filterMap, List.mem_filter, List.mem_range, node?_eq_some,
    decide_eq_true_eq, parent?_eq_some]
  constructor
  · rintro ⟨i, ⟨-, hi⟩, rfl⟩
    exact hi
  · intro hc
    exact ⟨c.val, ⟨c.isLt, hc⟩, rfl⟩

theorem lt_of_parent? {n p : d.Node} (h : n.parent? = some p) : p.val < n.val :=
  d.linked.parent_lt _ _ (parent?_eq_some.1 h)

theorem lt_of_mem_children {n c : d.Node} (h : c ∈ n.children) : n.val < c.val :=
  lt_of_parent? (mem_children.1 h)

/-- The ancestors, nearest first. -/
def ancestors (n : d.Node) : List d.Node :=
  match _h : n.parent? with
  | none => []
  | some p => p :: ancestors p
termination_by n.val
decreasing_by exact lt_of_parent? _h

/-- The place among the children of the parent; 0 for the document node. -/
def index (n : d.Node) : Nat :=
  match n.parent? with
  | none => 0
  | some p => p.children.idxOf n

def followingSiblings (n : d.Node) : List d.Node :=
  match n.parent? with
  | none => []
  | some p => p.children.drop (n.index + 1)

/-- The siblings before `n`, nearest first. -/
def precedingSiblings (n : d.Node) : List d.Node :=
  match n.parent? with
  | none => []
  | some p => (p.children.take n.index).reverse

/-- The subtree of `n`, each node before its children. -/
def preorder (n : d.Node) : List d.Node :=
  n :: n.children.attach.flatMap fun c => preorder c.val
termination_by d.size - n.val
decreasing_by
  have := lt_of_mem_children c.property
  have := c.val.isLt
  omega

theorem preorder_eq (n : d.Node) : n.preorder = n :: n.children.flatMap preorder := by
  rw [preorder, List.flatMap_subtype (g := preorder) (fun _ _ => rfl), List.unattach_attach]

/-- The subtrees of a stack of nodes, from the top. -/
def walk (stack : List d.Node) : List d.Node :=
  match stack with
  | [] => []
  | n :: rest => n :: walk (n.children ++ rest)
termination_by (stack.flatMap preorder).length
decreasing_by simp [preorder_eq n]

def descendants (n : d.Node) : List d.Node := walk n.children

/-- The places on the way from the document node, which is at 0, down to `n`. -/
def address (n : d.Node) : List Nat := (n :: n.ancestors).reverse.map index

end Node

def dropRepeats {α : Type} [DecidableEq α] : List α → List α
  | a :: b :: rest => if a = b then dropRepeats (b :: rest) else a :: dropRepeats (b :: rest)
  | s => s

/-- Whether an address comes before another or is the same; one that goes on comes after. -/
def addressLe : List Nat → List Nat → Bool
  | [], _ => true
  | _ :: _, [] => false
  | i :: a, j :: b => i < j || (i == j && addressLe a b)

/-- The nodes of the list by their addresses, each once. -/
def inDocumentOrder (ns : List d.Node) : List d.Node :=
  dropRepeats <|
    ((ns.map fun n => (n.address, n)).mergeSort fun a b => addressLe a.1 b.1).map Prod.snd

instance (d : Document) : TreeNode d.Node where
  number n := n.val
  kind := Node.kind
  name := Node.name?
  value := Node.value?
  attr := Node.attribute?
  children := Node.children

end Document

end Stylesheet
