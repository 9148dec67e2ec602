import Stylesheet.Proofs.Document.Address

/-! Where the other nodes are, seen from a node. Forward and backward axes are converses of each
other, and the nodes above, below, before and after a node are all the others, each in one place. -/

namespace Stylesheet.Document

variable {d : Document}

namespace Node

/-- Nodes in the subtrees of the siblings before `n`, and before the nodes above `n`. -/
def preceding (n : d.Node) : List d.Node :=
  (n :: n.ancestors).flatMap fun a => a.precedingSiblings.flatMap fun s => s :: s.descendants

/-- Nodes in the subtrees of the siblings after `n`, and after the nodes above `n`. -/
def following (n : d.Node) : List d.Node :=
  (n :: n.ancestors).flatMap fun a => a.followingSiblings.flatMap fun s => s :: s.descendants

theorem siblings_of_parent {p n : d.Node} (h : IsParent p n) :
    n.precedingSiblings.reverse ++ n :: n.followingSiblings = p.children := by
  have lt := List.idxOf_lt_length_of_mem (mem_children.2 h)
  have here := List.drop_eq_getElem_cons lt
  rw [List.getElem_idxOf] at here
  rw [precedingSiblings_of_parent h, followingSiblings_of_parent h, List.reverse_reverse, ← here,
    List.take_append_drop]

theorem siblings_eq {p n : d.Node} {xs ys : List d.Node} (e : p.children = xs ++ n :: ys) :
    n.precedingSiblings = xs.reverse ∧ n.followingSiblings = ys := by
  have hn : n ∈ p.children := by simp [e]
  have once := e ▸ p.nodup_children
  have others := (List.nodup_cons.1 (List.nodup_middle.1 once)).1
  rw [List.mem_append, not_or] at others
  have around := siblings_of_parent (mem_children.1 hn)
  rw [e, eq_comm, List.append_cons_inj_of_notMem others.1 others.2] at around
  exact ⟨by rw [around.1, List.reverse_reverse], around.2.2.symm⟩

theorem precedingSiblings_of_append {n m : d.Node} {s t : List d.Node}
    (h : n.followingSiblings = s ++ m :: t) :
    m.precedingSiblings = s.reverse ++ n :: n.precedingSiblings := by
  have hm : m ∈ n.followingSiblings := by simp [h]
  obtain ⟨p, hn, -, -⟩ := mem_followingSiblings.1 hm
  have around := siblings_of_parent hn
  have place : p.children = (n.precedingSiblings.reverse ++ n :: s) ++ m :: t := by
    rw [← around, h]
    simp
  rw [(siblings_eq place).1]
  simp

theorem followingSiblings_of_append {n m : d.Node} {s t : List d.Node}
    (h : m.precedingSiblings = s ++ n :: t) :
    n.followingSiblings = s.reverse ++ m :: m.followingSiblings := by
  have hn : n ∈ m.precedingSiblings := by simp [h]
  obtain ⟨p, hm, -, -⟩ := mem_precedingSiblings.1 hn
  have around := siblings_of_parent hm
  have place : p.children = t.reverse ++ n :: (s.reverse ++ m :: m.followingSiblings) := by
    rw [← around, h]
    simp
  exact (siblings_eq place).2

theorem getElem?_index {p n : d.Node} (h : IsParent p n) : p.children[n.index]? = some n := by
  have lt := List.idxOf_lt_length_of_mem (mem_children.2 h)
  rw [index_of_parent h, List.getElem?_eq_getElem lt, List.getElem_idxOf]

theorem mem_followingSiblings_iff {m n : d.Node} :
    m ∈ n.followingSiblings ↔ n ∈ m.precedingSiblings := by
  rw [mem_followingSiblings, mem_precedingSiblings]
  exact exists_congr fun p => and_left_comm

theorem siblings_root : d.root.precedingSiblings = [] ∧ d.root.followingSiblings = [] := by
  rw [precedingSiblings, followingSiblings, parent?_root]
  exact ⟨rfl, rfl⟩

theorem preceding_root : d.root.preceding = [] := by
  simp [preceding, ancestors_root, siblings_root]

theorem following_root : d.root.following = [] := by
  simp [following, ancestors_root, siblings_root]

theorem preceding_of_parent {p n : d.Node} (h : IsParent p n) : n.preceding
    = n.precedingSiblings.flatMap (fun s => s :: s.descendants) ++ p.preceding := by
  rw [preceding, ancestors_of_parent h]
  rfl

theorem following_of_parent {p n : d.Node} (h : IsParent p n) : n.following
    = n.followingSiblings.flatMap (fun s => s :: s.descendants) ++ p.following := by
  rw [following, ancestors_of_parent h]
  rfl

theorem descendants_eq (n : d.Node) :
    n.descendants = n.children.flatMap fun s => s :: s.descendants := by
  rw [descendants, walk_eq]
  exact congrArg (List.flatMap · n.children) (funext preorder_eq_cons)

theorem perm_order (n : d.Node) :
    (n :: (n.ancestors ++ n.descendants ++ n.preceding ++ n.following)).Perm d.order := by
  induction n using Node.induction_on_parent with
  | root => simp [order, ancestors_root, preceding_root, following_root]
  | child p n h ih =>
    have below := p.descendants_eq
    rw [← siblings_of_parent h, List.flatMap_append, List.flatMap_cons] at below
    have turned := (List.reverse_perm n.precedingSiblings).flatMap_right fun s => s :: s.descendants
    refine List.Perm.trans ?_ ih
    rw [ancestors_of_parent h, preceding_of_parent h, following_of_parent h, below]
    rw [List.perm_iff_count]
    intro m
    simp only [List.count_cons, List.count_append, turned.count_eq]
    omega

theorem count_around (n m : d.Node) :
    (n.ancestors ++ n.descendants ++ n.preceding ++ n.following).count m
      = if m = n then 0 else 1 := by
  have once := n.perm_order.count_eq m
  rw [count_order, List.count_cons] at once
  by_cases h : m = n
  · rw [if_pos (beq_iff_eq.2 h.symm)] at once
    rw [if_pos h]
    omega
  · rw [if_neg (mt beq_iff_eq.1 (Ne.symm h))] at once
    rw [if_neg h]
    omega

theorem nodup_relatives (n : d.Node) : ∀ ns ∈ [n.children, n.ancestors, n.descendants,
    n.precedingSiblings, n.followingSiblings], ns.Nodup := by
  have forward {ns : List d.Node} (h : ns.Pairwise Precedes) : ns.Nodup := by
    refine h.imp ?_
    rintro a _ hab rfl
    exact hab.irrefl
  have backward {ns : List d.Node} (h : ns.Pairwise fun a b => Precedes b a) : ns.Nodup :=
    List.nodup_reverse.1 (forward (List.pairwise_reverse.2 h))
  simp only [List.forall_mem_cons, List.not_mem_nil, false_implies, implies_true, and_true]
  exact ⟨n.nodup_children, backward n.precedes_ancestors, forward n.precedes_descendants,
    backward n.precedes_precedingSiblings, forward n.precedes_followingSiblings⟩

end Node

/-- Children and parents, descendants and ancestors, and the siblings on either side are converses
of each other, and a node has its place among its siblings. Any other node is in one of the four
lists around it, once. -/
structure Partitioned (d : Document) : Prop where
  child_iff (m n : d.Node) : m ∈ n.children ↔ m.parent? = some n
  descendant_iff (m n : d.Node) : m ∈ n.descendants ↔ n ∈ m.ancestors
  sibling_iff (m n : d.Node) : m ∈ n.followingSiblings ↔ n ∈ m.precedingSiblings
  siblings (p n : d.Node) : n.parent? = some p →
    n.precedingSiblings.reverse ++ n :: n.followingSiblings = p.children
  index (p n : d.Node) : n.parent? = some p → p.children[n.index]? = some n
  count_around (n m : d.Node) :
    (n.ancestors ++ n.descendants ++ n.preceding ++ n.following).count m = if m = n then 0 else 1
  nodup (n : d.Node) : ∀ ns ∈ [n.children, n.ancestors, n.descendants,
    n.precedingSiblings, n.followingSiblings], ns.Nodup

theorem partitioned (d : Document) : Partitioned d where
  child_iff _ _ := Node.mem_children
  descendant_iff _ _ := Node.mem_descendants.trans Node.mem_ancestors.symm
  sibling_iff _ _ := Node.mem_followingSiblings_iff
  siblings _ _ := Node.siblings_of_parent
  index _ _ := Node.getElem?_index
  count_around := Node.count_around
  nodup := Node.nodup_relatives

end Stylesheet.Document
