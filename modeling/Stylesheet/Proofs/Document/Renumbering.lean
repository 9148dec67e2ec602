import Mathlib.Logic.Equiv.Defs
import Stylesheet.Proofs.Document.Relatives

namespace Stylesheet

theorem idxOf_map {α β : Type} [DecidableEq α] [DecidableEq β] {f : α → β}
    (hf : Function.Injective f) (a : α) (l : List α) : (l.map f).idxOf (f a) = l.idxOf a := by
  induction l with
  | nil => rfl
  | cons b l ih => simp only [List.map_cons, List.idxOf_cons, ih, beq_eq_decide, hf.eq_iff]

namespace Document

variable {d d' : Document}

/-- A bijection that keeps what a node is and has, and its children in their order. -/
structure Renumbers (f : d.Node ≃ d'.Node) : Prop where
  kind (n : d.Node) : (f n).kind = n.kind
  name? (n : d.Node) : (f n).name? = n.name?
  value? (n : d.Node) : (f n).value? = n.value?
  attributes (n : d.Node) : (f n).attributes = n.attributes
  children (n : d.Node) : (f n).children = n.children.map f

theorem dropRepeats_map {α β : Type} [DecidableEq α] [DecidableEq β] {f : α → β}
    (hf : Function.Injective f) (l : List α) : dropRepeats (l.map f) = (dropRepeats l).map f := by
  fun_induction dropRepeats l with
  | case1 a rest ih => simpa [dropRepeats] using ih
  | case2 a b rest hab ih =>
    have hne : f a ≠ f b := hf.ne hab
    simpa [dropRepeats, hne] using ih
  | case3 l h =>
    match l, h with
    | [], _ => rfl
    | [a], _ => rfl
    | a :: b :: rest, h => exact absurd rfl (h a b rest)

namespace Renumbers

variable {f : d.Node ≃ d'.Node} (hf : Renumbers f)

include hf

theorem isParent_iff {p n : d.Node} : IsParent (f p) (f n) ↔ IsParent p n := by
  rw [IsParent, IsParent, ← Node.mem_children, ← Node.mem_children, hf.children,
    List.mem_map_of_injective f.injective]

theorem parent? (n : d.Node) : (f n).parent? = n.parent?.map f := by
  cases hn : n.parent? with
  | some p => exact hf.isParent_iff.2 hn
  | none =>
    rw [Option.map_none, Option.eq_none_iff_forall_ne_some]
    intro q hq
    rw [← f.apply_symm_apply q] at hq
    cases hn.symm.trans (hf.isParent_iff.1 hq)

theorem root : f d.root = d'.root := by
  rw [← Node.parent?_eq_none, hf.parent?, Node.parent?_root, Option.map_none]

theorem ancestors (n : d.Node) : (f n).ancestors = n.ancestors.map f := by
  induction hn : n.val using Nat.strongRecOn generalizing n with
  | ind k ih =>
    cases hp : n.parent? with
    | none =>
      rw [Node.parent?_eq_none.1 hp, hf.root, Node.ancestors_root, Node.ancestors_root,
        List.map_nil]
    | some p =>
      rw [Node.ancestors_of_parent hp, Node.ancestors_of_parent (hf.isParent_iff.2 hp),
        ih p.val (hn ▸ Node.lt_of_parent? hp) p rfl, List.map_cons]

theorem preorder (n : d.Node) : (f n).preorder = n.preorder.map f := by
  induction hn : d.size - n.val using Nat.strongRecOn generalizing n with
  | ind k ih =>
    rw [Node.preorder_eq, Node.preorder_eq n, hf.children, List.flatMap_map, List.map_cons,
      List.map_flatMap]
    refine congrArg (f n :: ·) (List.flatMap_congr fun c hc => ?_)
    have := Node.lt_of_mem_children hc
    exact ih (d.size - c.val) (by omega) c rfl

theorem descendants (n : d.Node) : (f n).descendants = n.descendants.map f := by
  have h := hf.preorder n
  rw [Node.preorder_eq_cons, Node.preorder_eq_cons, List.map_cons] at h
  exact (List.cons.inj h).2

theorem index (n : d.Node) : (f n).index = n.index := by
  cases hn : n.parent? with
  | none =>
    rw [Node.parent?_eq_none.1 hn, hf.root, Node.index, Node.index, Node.parent?_root,
      Node.parent?_root]
  | some p =>
    rw [Node.index_of_parent hn, Node.index_of_parent (hf.isParent_iff.2 hn), hf.children,
      idxOf_map f.injective]

theorem address (n : d.Node) : (f n).address = n.address := by
  have h : f n :: (f n).ancestors = (n :: n.ancestors).map f := by rw [hf.ancestors, List.map_cons]
  rw [Node.address, Node.address, h, ← List.map_reverse, List.map_map]
  exact List.map_congr_left fun m _ => hf.index m

theorem followingSiblings (n : d.Node) : (f n).followingSiblings = n.followingSiblings.map f := by
  rw [Node.followingSiblings, Node.followingSiblings, hf.parent?, hf.index]
  cases n.parent? with
  | none => rfl
  | some p => exact (congrArg (List.drop _) (hf.children p)).trans List.map_drop.symm

theorem precedingSiblings (n : d.Node) : (f n).precedingSiblings = n.precedingSiblings.map f := by
  rw [Node.precedingSiblings, Node.precedingSiblings, hf.parent?, hf.index]
  cases n.parent? with
  | none => rfl
  | some p =>
    rw [List.map_reverse, List.map_take]
    exact congrArg (fun ns => (List.take _ ns).reverse) (hf.children p)

theorem inDocumentOrder (ns : List d.Node) :
    Document.inDocumentOrder (ns.map f) = (Document.inDocumentOrder ns).map f := by
  -- The pairs that are sorted differ only in their nodes, which do not take part in the order.
  have pairs : (ns.map f).map (fun n => (n.address, n))
      = (ns.map fun n => (n.address, n)).map (Prod.map id f) := by
    rw [List.map_map, List.map_map]
    exact List.map_congr_left fun n _ => congrArg (·, f n) (hf.address n)
  have sorted := List.map_mergeSort (r := fun a b => addressLe a.1 b.1)
    (s := fun a b => addressLe a.1 b.1) (f := Prod.map id f)
    (l := ns.map fun n => (n.address, n)) fun _ _ _ _ => rfl
  rw [Document.inDocumentOrder, Document.inDocumentOrder, pairs, ← sorted, List.map_map,
    ← dropRepeats_map f.injective, List.map_map]
  rfl

end Renumbers

end Document

end Stylesheet
