import Mathlib.Data.List.Nodup
import Stylesheet.Proofs.Document.Relatives

namespace Stylesheet.Document

variable {d : Document}

def order (d : Document) : List d.Node := d.root :: d.root.descendants

theorem order_eq (d : Document) : d.order = d.root.preorder := d.root.preorder_eq_cons.symm

theorem count_order (n : d.Node) : d.order.count n = 1 := by
  rw [order_eq]
  exact List.count_eq_one_of_mem d.root.nodup_preorder n.mem_preorder_root

namespace Node

theorem address_ne_nil (n : d.Node) : n.address ≠ [] := by
  simp [address]

theorem address_root : d.root.address = [] ++ [d.root.index] := by
  rw [address, ancestors_root]
  rfl

theorem above_of_address {a b : d.Node} (h : a.address <+: b.address) :
    Relation.ReflTransGen IsParent a b := by
  induction b using induction_on_parent with
  | root =>
    rw [address_root, List.prefix_concat_iff, ← address_root] at h
    rcases h with h | h
    · rw [address_injective h]
    · exact absurd (List.prefix_nil.1 h) a.address_ne_nil
  | child p b hp ih =>
    rw [address_of_parent hp, List.prefix_concat_iff, ← address_of_parent hp] at h
    rcases h with h | h
    · rw [address_injective h]
    · exact (ih h).tail hp

theorem above_iff {a b : d.Node} :
    Relation.ReflTransGen IsParent a b ↔ a = b ∨ a ∈ b.ancestors := by
  rw [Relation.reflTransGen_iff_eq_or_transGen, eq_comm, mem_ancestors]
  rfl

theorem preorder_infix {a b : d.Node} (h : Relation.ReflTransGen IsParent a b) :
    b.preorder <:+: a.preorder := by
  induction h with
  | refl => exact List.infix_rfl
  | @tail p b _ hp ih =>
    obtain ⟨before, after, hc⟩ := List.append_of_mem (mem_children.2 hp)
    refine List.IsInfix.trans ?_ ih
    rw [preorder_eq p, hc, List.flatMap_append, List.flatMap_cons]
    exact ⟨p :: before.flatMap preorder, after.flatMap preorder, by simp⟩

end Node

/-- Addresses are keys of the document order, in which each subtree is one block; sorting by them
gives the nodes of any list in this order, each once. -/
structure OrderedByAddress (d : Document) : Prop where
  count (n : d.Node) : d.order.count n = 1
  le_iff (a b : d.Node) :
    addressLe a.address b.address = true ↔ d.order.idxOf a ≤ d.order.idxOf b
  lt_iff (a b : d.Node) : a.address < b.address ↔ d.order.idxOf a < d.order.idxOf b
  eq_iff (a b : d.Node) : a.address = b.address ↔ a = b
  above_iff (a b : d.Node) : a.address <+: b.address ↔ a = b ∨ a ∈ b.ancestors
  preorder (n : d.Node) : n :: n.descendants = n.preorder
  block (n : d.Node) : n.preorder <:+: d.order
  sorted (ns : List d.Node) :
    (inDocumentOrder ns).Pairwise fun a b => d.order.idxOf a < d.order.idxOf b
  mem_sorted (ns : List d.Node) (n : d.Node) : n ∈ inDocumentOrder ns ↔ n ∈ ns

theorem orderedByAddress (d : Document) : OrderedByAddress d where
  count := count_order
  le_iff a b := by
    rw [addressLe_iff, ← not_lt, ← precedes_iff, Precedes, Nat.not_lt, order_eq]
  lt_iff a b := by
    rw [← precedes_iff, Precedes, order_eq]
  eq_iff a b := address_injective.eq_iff
  above_iff a b := ⟨fun h => Node.above_iff.1 (Node.above_of_address h), fun h =>
    Node.address_prefix (Node.above_iff.2 h)⟩
  preorder n := n.preorder_eq_cons.symm
  block n := order_eq d ▸ Node.preorder_infix n.root_above
  sorted ns := order_eq d ▸ pairwise_inDocumentOrder ns
  mem_sorted ns n := mem_inDocumentOrder

end Stylesheet.Document
