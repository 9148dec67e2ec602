import Mathlib.Data.List.Basic
import Mathlib.Data.List.Lex
import Mathlib.Logic.Relation
import Stylesheet.Document.Node

/-! Document order. A node comes before its descendants, and these before the siblings that follow
it; addresses are ordered as the nodes are. -/

namespace Stylesheet

theorem exists_append_of_getElem? {α : Type} {l : List α} {k : Nat} {a : α}
    (h : l[k]? = some a) : ∃ s t, l = s ++ a :: t ∧ s.length = k := by
  obtain ⟨hk, rfl⟩ := List.getElem?_eq_some_iff.1 h
  refine ⟨l.take k, l.drop (k + 1), ?_, List.length_take_of_le (Nat.le_of_lt hk)⟩
  rw [← List.drop_eq_getElem_cons hk, List.take_append_drop]

theorem idxOf_lt_idxOf_iff {α : Type} [DecidableEq α] {R : α → α → Prop} {l : List α}
    (h : l.Pairwise R) (asymm : ∀ a b, R a b → ¬R b a) {a b : α} (ha : a ∈ l) (hb : b ∈ l) :
    l.idxOf a < l.idxOf b ↔ R a b := by
  have lt {a b : α} (hb : b ∈ l) (hab : l.idxOf a < l.idxOf b) : R a b := by
    have hb := List.idxOf_lt_length_of_mem hb
    have := List.pairwise_iff_getElem.1 h _ _ (Nat.lt_trans hab hb) hb hab
    rwa [List.getElem_idxOf, List.getElem_idxOf] at this
  refine ⟨lt hb, fun hab => ?_⟩
  rcases Nat.lt_trichotomy (l.idxOf a) (l.idxOf b) with hlt | heq | hgt
  · exact hlt
  · rw [(List.idxOf_inj ha).1 heq] at hab
    exact absurd hab (asymm _ _ hab)
  · exact absurd (lt ha hgt) (asymm _ _ hab)

theorem pairwise_idxOf {α : Type} [DecidableEq α] {l : List α} (h : l.Nodup) :
    l.Pairwise fun a b => l.idxOf a < l.idxOf b := by
  rw [List.pairwise_iff_getElem]
  intro i j hi hj hij
  rwa [h.idxOf_getElem, h.idxOf_getElem]

theorem eq_of_pairwise {α : Type} {R : α → α → Prop} {s t : List α}
    (asymm : ∀ a b, R a b → ¬R b a) (hs : s.Pairwise R) (ht : t.Pairwise R)
    (h : ∀ a, a ∈ s ↔ a ∈ t) : s = t := by
  have nodup {l : List α} (hl : l.Pairwise R) : l.Nodup := by
    refine hl.imp ?_
    rintro a _ haa rfl
    exact asymm a a haa haa
  have perm : s.Perm t := (List.perm_ext_iff_of_nodup (nodup hs) (nodup ht)).2 h
  exact perm.eq_of_pairwise (fun a b _ _ hab hba => absurd hba (asymm a b hab)) hs ht

namespace Document

variable {d : Document}

def IsParent (p n : d.Node) : Prop := n.parent? = some p

def IsAncestor (a n : d.Node) : Prop := Relation.TransGen IsParent a n

namespace Node

theorem parent?_eq_none {n : d.Node} : n.parent? = none ↔ n = d.root := by
  have hu := d.linked.unplaced_iff n.val n.record (Array.getElem?_eq_getElem n.isLt)
  have hr : n = d.root ↔ n.val = 0 := Fin.ext_iff
  rw [hr, ← hu, parent?, Option.bind_eq_none_iff]
  constructor
  · intro h
    cases hp : n.record.placement with
    | none => rfl
    | some p =>
      have hlt : p.parent < n.val := d.linked.parent_lt _ _ (by rw [parentAt_eq, hp]; rfl)
      have := h p hp
      rw [node?, dif_pos (Nat.lt_trans hlt n.isLt)] at this
      cases this
  · intro h p hp
    rw [h] at hp
    cases hp

theorem parent?_root : d.root.parent? = none := parent?_eq_none.2 rfl

@[elab_as_elim] theorem induction_on_parent {P : d.Node → Prop} (root : P d.root)
    (child : ∀ p n, IsParent p n → P p → P n) (n : d.Node) : P n := by
  induction hn : n.val using Nat.strongRecOn generalizing n with
  | ind k ih =>
    cases hp : n.parent? with
    | none => exact parent?_eq_none.1 hp ▸ root
    | some p => exact child p n hp (ih p.val (hn ▸ lt_of_parent? hp) p rfl)

theorem pairwise_children (n : d.Node) : n.children.Pairwise (· < ·) := by
  have h := d.linked.children_eq n.val n.record (Array.getElem?_eq_getElem n.isLt)
  rw [children, h]
  refine List.Pairwise.filterMap d.node? ?_ (List.pairwise_lt_range.filter _)
  intro i j hij m hm k hk
  rwa [node?_eq_some.1 hm, node?_eq_some.1 hk] at hij

theorem nodup_children (n : d.Node) : n.children.Nodup :=
  n.pairwise_children.imp Fin.ne_of_lt

theorem ancestors_root : d.root.ancestors = [] := by
  rw [ancestors]
  split
  next => rfl
  next p h => cases parent?_root.symm.trans h

theorem ancestors_of_parent {n p : d.Node} (h : IsParent p n) : n.ancestors = p :: p.ancestors := by
  rw [ancestors]
  split
  next hn => cases h.symm.trans hn
  next q hq => rw [Option.some.inj (hq.symm.trans h)]

theorem index_of_parent {n p : d.Node} (h : IsParent p n) : n.index = p.children.idxOf n := by
  unfold IsParent at h
  rw [index, h]

theorem address_of_parent {n p : d.Node} (h : IsParent p n) :
    n.address = p.address ++ [n.index] := by
  simp [address, ancestors_of_parent h]

theorem root_above (n : d.Node) : Relation.ReflTransGen IsParent d.root n := by
  induction n using induction_on_parent with
  | root => exact .refl
  | child p n hp ih => exact ih.tail hp

theorem mem_preorder {n m : d.Node} : m ∈ n.preorder ↔ Relation.ReflTransGen IsParent n m := by
  induction hn : d.size - n.val using Nat.strongRecOn generalizing n with
  | ind k ih =>
    have below {c : d.Node} (hc : c ∈ n.children) :
        m ∈ c.preorder ↔ Relation.ReflTransGen IsParent c m := by
      have := lt_of_mem_children hc
      exact ih (d.size - c.val) (by omega) rfl
    rw [preorder_eq, List.mem_cons, List.mem_flatMap, Relation.ReflTransGen.cases_head_iff]
    refine or_congr eq_comm (exists_congr fun c => ?_)
    constructor
    · rintro ⟨hc, h⟩
      exact ⟨mem_children.1 hc, (below hc).1 h⟩
    · rintro ⟨hc, h⟩
      exact ⟨mem_children.2 hc, (below (mem_children.2 hc)).2 h⟩

theorem mem_preorder_root (n : d.Node) : n ∈ d.root.preorder := mem_preorder.2 n.root_above

theorem address_prefix {n m : d.Node} (h : Relation.ReflTransGen IsParent n m) :
    n.address <+: m.address := by
  induction h with
  | refl => exact List.prefix_refl _
  | tail _ hp ih =>
    rw [address_of_parent hp]
    exact ih.trans (List.prefix_append ..)

theorem address_lt_of_child {n c m : d.Node} (hc : IsParent n c)
    (hm : Relation.ReflTransGen IsParent c m) : n.address < m.address := by
  obtain ⟨t, ht⟩ := address_prefix hm
  rw [← ht, address_of_parent hc, List.append_assoc]
  exact List.lt_iff_exists.2 (.inl ⟨by simp, by simp⟩)

theorem address_lt_of_siblings {p a b m k : d.Node} (ha : IsParent p a) (hb : IsParent p b)
    (hab : p.children.idxOf a < p.children.idxOf b) (hm : Relation.ReflTransGen IsParent a m)
    (hk : Relation.ReflTransGen IsParent b k) : m.address < k.address := by
  obtain ⟨s, hs⟩ := address_prefix hm
  obtain ⟨t, ht⟩ := address_prefix hk
  rw [← hs, ← ht, address_of_parent ha, address_of_parent hb, List.append_assoc, List.append_assoc,
    index_of_parent ha, index_of_parent hb]
  exact List.append_left_lt (List.cons_lt_cons_iff.2 (.inl hab))

theorem pairwise_preorder (n : d.Node) :
    n.preorder.Pairwise fun a b => a.address < b.address := by
  induction hn : d.size - n.val using Nat.strongRecOn generalizing n with
  | ind k ih =>
    rw [preorder_eq, List.pairwise_cons, List.pairwise_flatMap]
    refine ⟨fun m hm => ?_, fun c hc => ?_, ?_⟩
    · obtain ⟨c, hc, hm⟩ := List.mem_flatMap.1 hm
      exact address_lt_of_child (mem_children.1 hc) (mem_preorder.1 hm)
    · have := lt_of_mem_children hc
      exact ih (d.size - c.val) (by omega) c rfl
    · refine (pairwise_idxOf n.nodup_children).imp_of_mem fun ha hb hab m hm k hk => ?_
      exact address_lt_of_siblings (mem_children.1 ha) (mem_children.1 hb) hab (mem_preorder.1 hm)
        (mem_preorder.1 hk)

theorem nodup_preorder (n : d.Node) : n.preorder.Nodup :=
  n.pairwise_preorder.imp fun hlt heq => absurd (heq ▸ hlt) (lt_irrefl _)

end Node

/-- The node `a` comes before `b` in the preorder of the document. -/
def Precedes (a b : d.Node) : Prop := d.root.preorder.idxOf a < d.root.preorder.idxOf b

theorem precedes_iff {a b : d.Node} : Precedes a b ↔ a.address < b.address :=
  idxOf_lt_idxOf_iff (R := fun a b : d.Node => a.address < b.address) d.root.pairwise_preorder
    (fun _ _ => lt_asymm) a.mem_preorder_root b.mem_preorder_root

theorem Precedes.trans {a b c : d.Node} (h : Precedes a b) (k : Precedes b c) : Precedes a c :=
  Nat.lt_trans h k

theorem Precedes.asymm {a b : d.Node} (h : Precedes a b) : ¬Precedes b a := Nat.lt_asymm h

theorem Precedes.irrefl (a : d.Node) : ¬Precedes a a := Nat.lt_irrefl _

theorem address_injective : Function.Injective (Node.address (d := d)) := by
  intro a b h
  by_contra hne
  rcases Nat.lt_or_gt_of_ne fun e => hne ((List.idxOf_inj a.mem_preorder_root).1 e) with hlt | hgt
  · exact lt_irrefl _ (h ▸ precedes_iff.1 hlt)
  · exact lt_irrefl _ (h ▸ precedes_iff.1 hgt)

theorem addressLe_iff (s t : List Nat) : addressLe s t = true ↔ s ≤ t := by
  rw [← not_lt]
  induction s generalizing t with
  | nil => simp [addressLe]
  | cons i s ih =>
    cases t with
    | nil => simp [addressLe]
    | cons j t =>
      simp only [addressLe, Bool.or_eq_true, decide_eq_true_eq, Bool.and_eq_true, beq_iff_eq, ih,
        List.cons_lt_cons_iff, not_or, not_and]
      constructor
      · rintro (h | ⟨rfl, h⟩)
        · exact ⟨by omega, by omega⟩
        · exact ⟨by omega, fun _ => h⟩
      · rintro ⟨h, k⟩
        rcases Nat.lt_or_eq_of_le (Nat.not_lt.1 h) with h | rfl
        · exact .inl h
        · exact .inr ⟨rfl, k rfl⟩

theorem mem_dropRepeats {α : Type} [DecidableEq α] {x : α} {l : List α} :
    x ∈ dropRepeats l ↔ x ∈ l := by
  fun_induction dropRepeats l with
  | case1 a rest ih => rw [ih]; simp
  | case2 a b rest hab ih => rw [List.mem_cons, ih, List.mem_cons (l := b :: rest)]
  | case3 l h => rfl

theorem pairwise_dropRepeats {α : Type} [DecidableEq α] {key : α → List Nat}
    (hk : Function.Injective key) {l : List α} (h : l.Pairwise fun a b => key a ≤ key b) :
    (dropRepeats l).Pairwise fun a b => key a < key b := by
  fun_induction dropRepeats l with
  | case1 a rest ih => exact ih (List.pairwise_cons.1 h).2
  | case2 a b rest hab ih =>
    obtain ⟨ha, hb⟩ := List.pairwise_cons.1 h
    refine List.pairwise_cons.2 ⟨fun x hx => ?_, ih hb⟩
    have hlt := lt_of_le_of_ne (ha b List.mem_cons_self) fun e => hab (hk e)
    rcases List.mem_cons.1 (mem_dropRepeats.1 hx) with rfl | hx
    · exact hlt
    · exact lt_of_lt_of_le hlt ((List.pairwise_cons.1 hb).1 x hx)
  | case3 l hl =>
    match l, hl with
    | [], _ => exact .nil
    | [a], _ => exact List.pairwise_singleton ..
    | a :: b :: rest, hl => exact absurd rfl (hl a b rest)

theorem mem_inDocumentOrder {n : d.Node} {ns : List d.Node} : n ∈ inDocumentOrder ns ↔ n ∈ ns := by
  simp only [inDocumentOrder, mem_dropRepeats, List.mem_map, List.mem_mergeSort]
  constructor
  · rintro ⟨_, ⟨m, hm, rfl⟩, rfl⟩
    exact hm
  · exact fun hn => ⟨_, ⟨n, hn, rfl⟩, rfl⟩

theorem pairwise_inDocumentOrder (ns : List d.Node) : (inDocumentOrder ns).Pairwise Precedes := by
  have sorted := @List.pairwise_mergeSort (List Nat × d.Node) (fun a b => addressLe a.1 b.1)
    (fun a b c => by simpa only [addressLe_iff] using le_trans)
    (fun a b => by simpa only [Bool.or_eq_true, addressLe_iff] using le_total a.1 b.1)
    (ns.map fun n => (n.address, n))
  refine (pairwise_dropRepeats (address_injective (d := d)) ?_).imp precedes_iff.2
  rw [List.pairwise_map]
  refine sorted.imp_of_mem fun ha hb hab => ?_
  rw [List.mem_mergeSort, List.mem_map] at ha hb
  obtain ⟨a, -, rfl⟩ := ha
  obtain ⟨b, -, rfl⟩ := hb
  exact (addressLe_iff _ _).1 hab

theorem inDocumentOrder_eq {ns : List d.Node} (h : ns.Pairwise Precedes) :
    inDocumentOrder ns = ns :=
  eq_of_pairwise (fun _ _ => Precedes.asymm) (pairwise_inDocumentOrder ns) h
    fun _ => mem_inDocumentOrder

theorem inDocumentOrder_toList (o : Option d.Node) : inDocumentOrder o.toList = o.toList := by
  refine inDocumentOrder_eq ?_
  cases o with
  | none => exact .nil
  | some n => exact List.pairwise_singleton ..

end Document

end Stylesheet
