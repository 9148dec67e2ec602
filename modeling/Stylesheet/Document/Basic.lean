/-! Documents, which only grow: a node is added as the last child of a node that is there, and is
known by its number in order of creation. -/

namespace Stylesheet

abbrev Attributes := List (String × String)

namespace Attributes

/-- A new name goes to the end, a known one keeps its place. -/
def set (name value : String) : Attributes → Attributes
  | [] => [(name, value)]
  | (n, v) :: rest => if n = name then (n, value) :: rest else (n, v) :: set name value rest

def ofList (entries : List (String × String)) : Attributes :=
  entries.foldl (fun a (n, v) => a.set n v) []

end Attributes

inductive Content
  | element (name : String) (attributes : Attributes)
  | text (value : String)
  | comment (value : String)
  | instruction (target data : String)
  deriving DecidableEq

/-- Only elements have attributes. -/
def Content.setAttribute (name value : String) : Content → Content
  | element n attributes => element n (attributes.set name value)
  | c => c

structure Placement where
  parent : Nat
  content : Content
  deriving DecidableEq

/-- A node with its children; the document node is placed nowhere. -/
structure Record where
  placement : Option Placement
  children : Array Nat

def Record.addChild (n : Nat) (r : Record) : Record :=
  { r with children := r.children.push n }

def Record.setAttribute (name value : String) (r : Record) : Record :=
  { r with placement := r.placement.map fun p =>
      { p with content := p.content.setAttribute name value } }

namespace Document

def placementAt (rs : Array Record) (i : Nat) : Option Placement :=
  rs[i]?.bind (·.placement)

def parentAt (rs : Array Record) (i : Nat) : Option Nat :=
  (placementAt rs i).map (·.parent)

/-- Node 0 is the document node, parents are older than their children, and the children of a node
are the nodes with this parent, by number. -/
structure Linked (rs : Array Record) : Prop where
  nonempty : 0 < rs.size
  unplaced_iff : ∀ i r, rs[i]? = some r → (r.placement = none ↔ i = 0)
  parent_lt : ∀ i p, parentAt rs i = some p → p < i
  children_eq : ∀ i r, rs[i]? = some r →
    r.children.toList = (List.range rs.size).filter fun j => parentAt rs j = some i

def appendRecord (rs : Array Record) (p : Placement) : Array Record :=
  (rs.modify p.parent (Record.addChild rs.size)).push ⟨some p, #[]⟩

def setAttributeAt (rs : Array Record) (n : Nat) (name value : String) : Array Record :=
  rs.modify n (Record.setAttribute name value)

theorem placementAt_appendRecord (rs : Array Record) (p : Placement) (i : Nat) :
    placementAt (appendRecord rs p) i = if i = rs.size then some p else placementAt rs i := by
  simp only [placementAt, appendRecord, Array.getElem?_push, Array.size_modify]
  split
  · rfl
  · rw [Array.getElem?_modify]
    split
    · cases rs[i]? <;> rfl
    · rfl

theorem parentAt_appendRecord (rs : Array Record) (p : Placement) (i : Nat) :
    parentAt (appendRecord rs p) i = if i = rs.size then some p.parent else parentAt rs i := by
  simp only [parentAt, placementAt_appendRecord]
  split <;> rfl

theorem parentAt_setAttributeAt (rs : Array Record) (n : Nat) (name value : String) (i : Nat) :
    parentAt (setAttributeAt rs n name value) i = parentAt rs i := by
  simp only [parentAt, placementAt, setAttributeAt, Array.getElem?_modify]
  split
  · cases rs[i]? with
    | none => rfl
    | some r => cases h : r.placement <;> simp [Record.setAttribute, h]
  · rfl

theorem Linked.append {rs : Array Record} (l : Linked rs) (p : Placement)
    (hp : p.parent < rs.size) : Linked (appendRecord rs p) where
  nonempty := by simp [appendRecord]
  unplaced_iff i r h := by
    have hn := l.nonempty
    have := placementAt_appendRecord rs p i
    simp only [placementAt, h, Option.bind_some] at this
    rw [this]
    split
    · simp; omega
    · have hi : i < rs.size := by
        have := (Array.getElem?_eq_some_iff.1 h).1
        simp [appendRecord] at this
        omega
      have := l.unplaced_iff i rs[i] (by simp [hi])
      simpa [hi] using this
  parent_lt i q h := by
    rw [parentAt_appendRecord] at h
    split at h
    · simp at h
      omega
    · exact l.parent_lt i q h
  children_eq i r h := by
    have hsize : (appendRecord rs p).size = rs.size + 1 := by simp [appendRecord]
    have hold : (List.range rs.size).filter (fun j => parentAt (appendRecord rs p) j = some i)
        = (List.range rs.size).filter fun j => parentAt rs j = some i := by
      apply List.filter_congr
      intro j hj
      simp at hj
      rw [parentAt_appendRecord, if_neg (by omega)]
    rw [hsize, List.range_succ, List.filter_append, hold]
    simp only [appendRecord, Array.getElem?_push, Array.size_modify] at h
    have hnew : parentAt (appendRecord rs p) rs.size = some p.parent := by
      simp [parentAt_appendRecord]
    split at h
    next hi =>
      cases h
      subst hi
      have : (List.range rs.size).filter (fun j => parentAt rs j = some rs.size) = [] := by
        simp only [List.filter_eq_nil_iff, List.mem_range, decide_eq_true_eq]
        intro j hj hq
        have := l.parent_lt _ _ hq
        omega
      simp [this, hnew]
      omega
    next hi =>
      rw [Array.getElem?_modify] at h
      split at h
      next hpi =>
        subst hpi
        obtain ⟨s, hs, rfl⟩ := Option.map_eq_some_iff.1 h
        simp [Record.addChild, l.children_eq _ _ hs, hnew]
      next hpi =>
        simp [l.children_eq _ _ h, hnew, hpi]

theorem Linked.setAttribute {rs : Array Record} (l : Linked rs) (n : Nat) (name value : String) :
    Linked (setAttributeAt rs n name value) where
  nonempty := by simpa [setAttributeAt] using l.nonempty
  unplaced_iff i r h := by
    simp only [setAttributeAt, Array.getElem?_modify] at h
    split at h
    · obtain ⟨s, hs, rfl⟩ := Option.map_eq_some_iff.1 h
      simp [Record.setAttribute, l.unplaced_iff _ _ hs]
    · exact l.unplaced_iff _ _ h
  parent_lt i p h := by
    rw [parentAt_setAttributeAt] at h
    exact l.parent_lt i p h
  children_eq i r h := by
    have hsize : (setAttributeAt rs n name value).size = rs.size := by simp [setAttributeAt]
    simp only [hsize, parentAt_setAttributeAt]
    simp only [setAttributeAt, Array.getElem?_modify] at h
    split at h
    · obtain ⟨s, hs, rfl⟩ := Option.map_eq_some_iff.1 h
      simpa [Record.setAttribute] using l.children_eq _ _ hs
    · exact l.children_eq _ _ h

theorem Linked.document : Linked #[⟨none, #[]⟩] where
  nonempty := by simp
  unplaced_iff i r h := by
    cases i <;> simp at h ⊢
    simp [← h]
  parent_lt i p h := by cases i <;> simp [parentAt, placementAt] at h
  children_eq i r h := by
    cases i <;> simp at h
    subst h
    simp [parentAt, placementAt]

end Document

structure Document where
  records : Array Record
  linked : Document.Linked records

namespace Document

/-- The document node alone. -/
def empty : Document := ⟨_, .document⟩

/-- The number of nodes. -/
def size (d : Document) : Nat := d.records.size

def isEmpty (d : Document) : Bool := d.size == 1

abbrev Node (d : Document) : Type := Fin d.size

def node? (d : Document) (i : Nat) : Option d.Node :=
  if h : i < d.size then some ⟨i, h⟩ else none

def root (d : Document) : d.Node := ⟨0, d.linked.nonempty⟩

def append (d : Document) (parent : d.Node) (content : Content) : Document :=
  ⟨_, d.linked.append ⟨parent.val, content⟩ parent.isLt⟩

def setAttribute (d : Document) (n : d.Node) (name value : String) : Document :=
  ⟨_, d.linked.setAttribute n.val name value⟩

end Document

end Stylesheet
