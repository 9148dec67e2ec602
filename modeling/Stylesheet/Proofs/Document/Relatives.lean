import Stylesheet.Proofs.Document.Order

namespace Stylesheet

theorem mem_drop_iff_idxOf {α : Type} [DecidableEq α] {l : List α} (h : l.Nodup) {a : α} {k : Nat} :
    a ∈ l.drop k ↔ a ∈ l ∧ k ≤ l.idxOf a := by
  rw [List.mem_drop_iff_getElem]
  constructor
  · rintro ⟨j, hj, rfl⟩
    rw [h.idxOf_getElem]
    exact ⟨List.getElem_mem _, Nat.le_add_right ..⟩
  · rintro ⟨ha, hk⟩
    have := List.idxOf_lt_length_of_mem ha
    refine ⟨l.idxOf a - k, by omega, ?_⟩
    simp only [Nat.add_sub_of_le hk]
    exact List.getElem_idxOf this

namespace Document

variable {d : Document}

theorem IsParent.precedes {p n : d.Node} (h : IsParent p n) : Precedes p n :=
  precedes_iff.2 (Node.address_lt_of_child h .refl)

theorem IsAncestor.precedes {a n : d.Node} (h : IsAncestor a n) : Precedes a n := by
  induction h with
  | single h => exact h.precedes
  | tail _ h ih => exact ih.trans h.precedes

theorem precedes_siblings_iff {p a b : d.Node} (ha : IsParent p a) (hb : IsParent p b) :
    Precedes a b ↔ p.children.idxOf a < p.children.idxOf b := by
  constructor
  · intro h
    by_contra hle
    rcases Nat.lt_or_eq_of_le (Nat.not_lt.1 hle) with hlt | heq
    · exact h.asymm (precedes_iff.2 (Node.address_lt_of_siblings hb ha hlt .refl .refl))
    · rw [(List.idxOf_inj (Node.mem_children.2 hb)).1 heq] at h
      exact h.irrefl
  · intro h
    exact precedes_iff.2 (Node.address_lt_of_siblings ha hb h .refl .refl)

namespace Node

theorem precedes_children (n : d.Node) : n.children.Pairwise Precedes :=
  (pairwise_idxOf n.nodup_children).imp_of_mem fun ha hb hab =>
    (precedes_siblings_iff (mem_children.1 ha) (mem_children.1 hb)).2 hab

theorem mem_ancestors {a n : d.Node} : a ∈ n.ancestors ↔ IsAncestor a n := by
  rw [IsAncestor, Relation.transGen_iff]
  induction n using induction_on_parent with
  | root =>
    rw [ancestors_root]
    simp [IsParent, parent?_root]
  | child p n hp ih =>
    rw [ancestors_of_parent hp, List.mem_cons, ih, ← Relation.transGen_iff]
    rw [IsParent] at hp
    simp [IsParent, hp, eq_comm]

theorem precedes_ancestors (n : d.Node) : n.ancestors.Pairwise fun a b => Precedes b a := by
  induction n using induction_on_parent with
  | root =>
    rw [ancestors_root]
    exact .nil
  | child p n hp ih =>
    rw [ancestors_of_parent hp]
    exact List.pairwise_cons.2 ⟨fun a ha => (mem_ancestors.1 ha).precedes, ih⟩

theorem walk_eq (stack : List d.Node) : walk stack = stack.flatMap preorder := by
  induction hn : (stack.flatMap preorder).length using Nat.strongRecOn generalizing stack with
  | ind k ih =>
    cases stack with
    | nil => rw [walk]; rfl
    | cons n rest =>
      rw [walk, ih _ _ _ rfl, List.flatMap_append, List.flatMap_cons, preorder_eq n]
      · rfl
      · rw [← hn]
        simp [preorder_eq n]

theorem preorder_eq_cons (n : d.Node) : n.preorder = n :: n.descendants := by
  rw [preorder_eq, descendants, walk_eq]

theorem mem_descendants {n m : d.Node} : m ∈ n.descendants ↔ IsAncestor n m := by
  rw [descendants, walk_eq, List.mem_flatMap, IsAncestor, Relation.TransGen.head'_iff]
  exact exists_congr fun c => and_congr mem_children mem_preorder

theorem precedes_descendants (n : d.Node) : n.descendants.Pairwise Precedes := by
  have h := n.pairwise_preorder
  rw [preorder_eq_cons, List.pairwise_cons] at h
  exact h.2.imp precedes_iff.2

theorem followingSiblings_of_parent {n p : d.Node} (h : IsParent p n) :
    n.followingSiblings = p.children.drop (p.children.idxOf n + 1) := by
  have hi := index_of_parent h
  unfold IsParent at h
  rw [followingSiblings, h, hi]

theorem precedingSiblings_of_parent {n p : d.Node} (h : IsParent p n) :
    n.precedingSiblings = (p.children.take (p.children.idxOf n)).reverse := by
  have hi := index_of_parent h
  unfold IsParent at h
  rw [precedingSiblings, h, hi]

theorem mem_followingSiblings {n m : d.Node} :
    m ∈ n.followingSiblings ↔ ∃ p, IsParent p n ∧ IsParent p m ∧ Precedes n m := by
  cases hp : n.parent? with
  | none => simp [followingSiblings, IsParent, hp]
  | some p =>
    rw [followingSiblings_of_parent hp, mem_drop_iff_idxOf p.nodup_children, mem_children]
    constructor
    · rintro ⟨hm, hlt⟩
      exact ⟨p, hp, hm, (precedes_siblings_iff hp hm).2 hlt⟩
    · rintro ⟨q, hq, hm, hlt⟩
      cases Option.some.inj (hp.symm.trans hq)
      exact ⟨hm, (precedes_siblings_iff hp hm).1 hlt⟩

theorem mem_precedingSiblings {n m : d.Node} :
    m ∈ n.precedingSiblings ↔ ∃ p, IsParent p n ∧ IsParent p m ∧ Precedes m n := by
  cases hp : n.parent? with
  | none => simp [precedingSiblings, IsParent, hp]
  | some p =>
    rw [precedingSiblings_of_parent hp, List.mem_reverse]
    constructor
    · intro h
      have hm := mem_children.1 (List.mem_of_mem_take h)
      rw [List.mem_take_iff_idxOf_lt (mem_children.2 hm)] at h
      exact ⟨p, hp, hm, (precedes_siblings_iff hm hp).2 h⟩
    · rintro ⟨q, hq, hm, hlt⟩
      cases Option.some.inj (hp.symm.trans hq)
      rw [List.mem_take_iff_idxOf_lt (mem_children.2 hm)]
      exact (precedes_siblings_iff hm hp).1 hlt

theorem precedes_followingSiblings (n : d.Node) : n.followingSiblings.Pairwise Precedes := by
  cases hp : n.parent? with
  | none => simp [followingSiblings, hp]
  | some p =>
    rw [followingSiblings_of_parent hp]
    exact p.precedes_children.sublist (List.drop_sublist ..)

theorem precedes_precedingSiblings (n : d.Node) :
    n.precedingSiblings.Pairwise fun a b => Precedes b a := by
  cases hp : n.parent? with
  | none => simp [precedingSiblings, hp]
  | some p =>
    rw [precedingSiblings_of_parent hp, List.pairwise_reverse]
    exact p.precedes_children.sublist (List.take_sublist ..)

end Node

end Document

end Stylesheet
