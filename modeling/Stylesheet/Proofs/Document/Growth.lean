import Mathlib.Data.Fintype.Card
import Mathlib.Data.List.FinRange
import Mathlib.Data.List.Nodup
import Mathlib.Logic.Function.Iterate
import Stylesheet.Proofs.Document.Relatives

/-! Documents as they grow, call by call. The links stored at a parent and at its children agree, so
that they form one tree; what goes up or down along them ends. -/

namespace Stylesheet

inductive Edit
  | add (parent : Nat) (content : Content)
  | setAttribute (node : Nat) (name value : String)
  deriving DecidableEq

namespace Edit

def target : Edit → Nat
  | add p _ => p
  | setAttribute n _ _ => n

def adds : Edit → Bool
  | add .. => true
  | setAttribute .. => false

/-- Each call is about a node that is there by then. -/
def allThere (size : Nat) : List Edit → Bool
  | [] => true
  | e :: edits => e.target < size && allThere (size + e.adds.toNat) edits

end Edit

namespace Document

def edit? (d : Document) : Edit → Option Document
  | .add p c => (d.node? p).map (d.append · c)
  | .setAttribute n name value => (d.node? n).map (d.setAttribute · name value)

def build? (edits : List Edit) : Option Document := edits.foldlM edit? empty

variable {d : Document}

theorem size_append (p : d.Node) (c : Content) : (d.append p c).size = d.size + 1 := by
  simp [append, size, appendRecord]

theorem size_setAttribute (n : d.Node) (name value : String) :
    (d.setAttribute n name value).size = d.size := by
  simp [setAttribute, size, setAttributeAt]

theorem edit?_of_lt {e : Edit} (h : e.target < d.size) :
    ∃ d', d.edit? e = some d' ∧ d'.size = d.size + e.adds.toNat := by
  have there : d.node? e.target = some ⟨e.target, h⟩ := dif_pos h
  cases e with
  | add p c => exact ⟨_, congrArg (Option.map (d.append · c)) there, size_append ..⟩
  | setAttribute n name value =>
    exact ⟨_, congrArg (Option.map (d.setAttribute · name value)) there, size_setAttribute ..⟩

theorem foldlM_edit? {edits : List Edit} (h : Edit.allThere d.size edits = true) :
    ∃ d', edits.foldlM edit? d = some d' ∧ d'.size = d.size + edits.countP Edit.adds := by
  induction edits generalizing d with
  | nil => exact ⟨d, rfl, rfl⟩
  | cons e edits ih =>
    rw [Edit.allThere, Bool.and_eq_true, decide_eq_true_eq] at h
    obtain ⟨d₁, he, hsize⟩ := edit?_of_lt h.1
    obtain ⟨d₂, hd, hsize'⟩ := ih (hsize ▸ h.2)
    refine ⟨d₂, by rw [List.foldlM_cons, he]; exact hd, ?_⟩
    rw [hsize', hsize, List.countP_cons, Nat.add_assoc, Nat.add_comm e.adds.toNat]
    cases e.adds <;> rfl

/-! ### The tree -/

/-- The links, with the numbers they are stored as, form one tree below the document node. -/
structure IsTree (d : Document) : Prop where
  parent_stored (n : d.Node) :
    n.record.placement.map (·.parent) = n.parent?.map Fin.val
  children_stored (n : d.Node) : n.record.children.toList = n.children.map Fin.val
  orphan_iff (n : d.Node) : n.parent? = none ↔ n = d.root
  count_children (n : d.Node) :
    ((List.finRange d.size).flatMap Node.children).count n = if n = d.root then 0 else 1
  child_iff (p n : d.Node) : n ∈ p.children ↔ n.parent? = some p
  parent_lt (p n : d.Node) : n.parent? = some p → p < n
  children_increase (n : d.Node) : n.children.Pairwise (· < ·)
  reached (n : d.Node) : Relation.ReflTransGen IsParent d.root n

namespace Node

theorem parent?_stored (n : d.Node) :
    n.record.placement.map (·.parent) = n.parent?.map Fin.val := by
  cases hp : n.parent? with
  | some p => exact (parentAt_eq n).symm.trans (parent?_eq_some.1 hp)
  | none =>
    have hr := Array.getElem?_eq_getElem n.isLt
    have hn := (d.linked.unplaced_iff n.val n.record hr).2 (Fin.ext_iff.1 (parent?_eq_none.1 hp))
    rw [hn, Option.map_none, Option.map_none]

theorem children_stored (n : d.Node) : n.record.children.toList = n.children.map Fin.val := by
  have h := d.linked.children_eq n.val n.record (Array.getElem?_eq_getElem n.isLt)
  have lt {i : Nat} (hi : i ∈ n.record.children.toList) : i < d.size := by
    rw [h, List.mem_filter, List.mem_range] at hi
    exact hi.1
  rw [children, List.map_filterMap]
  refine List.filterMap_some.symm.trans ?_
  refine List.filterMap_congr fun i hi => ?_
  rw [node?, dif_pos (lt hi)]
  rfl

theorem nodup_all_children : ((List.finRange d.size).flatMap (children (d := d))).Nodup := by
  refine List.nodup_flatMap.2 ⟨fun n _ => n.nodup_children, ?_⟩
  refine (List.nodup_finRange _).imp fun hne n hp hq => hne ?_
  exact Option.some.inj ((mem_children.1 hp).symm.trans (mem_children.1 hq))

theorem mem_all_children {n : d.Node} :
    n ∈ (List.finRange d.size).flatMap children ↔ n ≠ d.root := by
  rw [List.mem_flatMap, ne_eq, ← parent?_eq_none, ← ne_eq, Option.ne_none_iff_exists']
  exact exists_congr fun p => by simp [mem_children]

end Node

theorem isTree (d : Document) : IsTree d where
  parent_stored n := n.parent?_stored
  children_stored n := n.children_stored
  orphan_iff _ := Node.parent?_eq_none
  count_children n := by
    rw [Node.nodup_all_children.count, if_congr Node.mem_all_children rfl rfl]
    exact ite_not ..
  child_iff _ _ := Node.mem_children
  parent_lt _ _ := Node.lt_of_parent?
  children_increase n := n.pairwise_children
  reached n := n.root_above

/-! ### One more node -/

namespace Node

def kept (n p : d.Node) (c : Content) : (d.append p c).Node :=
  ⟨n.val, by have := n.isLt; rw [size_append]; omega⟩

end Node

def newest (p : d.Node) (c : Content) : (d.append p c).Node :=
  ⟨d.size, by rw [size_append]; omega⟩

namespace Node

theorem lt_succ_size {p : d.Node} {c : Content} (m : (d.append p c).Node) :
    m.val < d.size + 1 :=
  lt_of_lt_of_eq m.isLt (size_append p c)

theorem eq_kept_or_newest {p : d.Node} {c : Content} (m : (d.append p c).Node) :
    (∃ n, m = kept n p c) ∨ m = newest p c := by
  have h := lt_succ_size m
  rcases Nat.lt_or_eq_of_le (Nat.le_of_lt_succ h) with h | h
  · exact .inl ⟨⟨m.val, h⟩, rfl⟩
  · exact .inr (Fin.ext h)

theorem placement_kept (n p : d.Node) (c : Content) :
    (n.kept p c).record.placement = n.record.placement := by
  rw [← placementAt_eq, ← placementAt_eq]
  exact (placementAt_appendRecord ..).trans (if_neg (Nat.ne_of_lt n.isLt))

theorem placement_newest (p : d.Node) (c : Content) :
    (newest p c).record.placement = some ⟨p.val, c⟩ := by
  rw [← placementAt_eq]
  exact (placementAt_appendRecord ..).trans (if_pos rfl)

theorem content?_kept (n p : d.Node) (c : Content) : (n.kept p c).content? = n.content? := by
  rw [content?, placement_kept, content?]

theorem parent?_kept (n p : d.Node) (c : Content) :
    (n.kept p c).parent? = n.parent?.map (kept · p c) := by
  have h := placement_kept n p c
  have hk := parent?_stored (n.kept p c)
  rw [h, parent?_stored n] at hk
  cases hn : n.parent? with
  | none => simpa [hn, eq_comm] using hk
  | some q =>
    obtain ⟨m, hm, he⟩ := Option.map_eq_some_iff.1 ((hn ▸ hk).symm)
    exact hm.trans (congrArg some (Fin.ext he))

theorem parent?_newest (p : d.Node) (c : Content) :
    (newest p c).parent? = some (p.kept p c) := by
  have h := parent?_stored (newest p c)
  rw [placement_newest] at h
  obtain ⟨m, hm, he⟩ := Option.map_eq_some_iff.1 h.symm
  exact hm.trans (congrArg some (Fin.ext he))

theorem kept_inj {n m p : d.Node} {c : Content} (h : n.kept p c = m.kept p c) : n = m :=
  Fin.ext (congrArg Fin.val h :)

theorem kept_ne_newest {p : d.Node} {c : Content} (n : d.Node) : n.kept p c ≠ newest p c :=
  fun he => absurd (Fin.ext_iff.1 he) (Nat.ne_of_lt n.isLt)

theorem kept_mem_children {n m p : d.Node} {c : Content} :
    m.kept p c ∈ (n.kept p c).children ↔ m ∈ n.children := by
  rw [mem_children, mem_children, parent?_kept, Option.map_eq_some_iff]
  constructor
  · rintro ⟨q, hq, he⟩
    rw [hq, kept_inj he]
  · exact fun h => ⟨n, h, rfl⟩

theorem newest_mem_children {n p : d.Node} {c : Content} :
    newest p c ∈ (n.kept p c).children ↔ n = p := by
  rw [mem_children, parent?_newest, Option.some.injEq]
  exact ⟨fun h => (kept_inj h).symm, fun h => h ▸ rfl⟩

theorem increasing_kept {s : List d.Node} (hs : s.Pairwise (· < ·)) (p : d.Node) (c : Content) :
    (s.map (kept · p c)).Pairwise (· < ·) := by
  rw [List.pairwise_map]
  exact hs

theorem children_kept (n p : d.Node) (c : Content) : (n.kept p c).children
    = n.children.map (kept · p c) ++ if n = p then [newest p c] else [] := by
  have last (m : (d.append p c).Node) :
      m ∈ (if n = p then [newest p c] else []) ↔ n = p ∧ m = newest p c := by
    split <;> simp_all
  refine eq_of_pairwise (fun _ _ => lt_asymm) (pairwise_children _) ?_ fun m => ?_
  · refine List.pairwise_append.2 ⟨increasing_kept n.pairwise_children p c, ?_, ?_⟩
    · split <;> simp
    · intro a ha b hb
      obtain ⟨k, -, rfl⟩ := List.mem_map.1 ha
      rw [((last b).1 hb).2]
      exact k.isLt
  · rw [List.mem_append, List.mem_map, last]
    obtain ⟨m, rfl⟩ | rfl := eq_kept_or_newest m
    · rw [kept_mem_children]
      constructor
      · exact fun h => .inl ⟨m, h, rfl⟩
      · rintro (⟨k, hk, he⟩ | ⟨-, he⟩)
        · exact kept_inj he ▸ hk
        · exact absurd he (kept_ne_newest m)
    · rw [newest_mem_children]
      constructor
      · exact fun h => .inr ⟨h, rfl⟩
      · rintro (⟨k, -, he⟩ | ⟨h, -⟩)
        · exact absurd he (kept_ne_newest k)
        · exact h

theorem children_newest (p : d.Node) (c : Content) : (newest p c).children = [] := by
  refine List.eq_nil_iff_forall_not_mem.2 fun m hm => ?_
  have hlt := lt_of_mem_children hm
  exact absurd hlt (Nat.not_lt.2 (Nat.le_of_lt_succ (lt_succ_size m)))

end Node

/-- To add a node leaves the others as they are, but for the new last child of its parent. -/
structure AddsLast (p : d.Node) (c : Content) : Prop where
  kind (n : d.Node) : (n.kept p c).kind = n.kind
  name? (n : d.Node) : (n.kept p c).name? = n.name?
  value? (n : d.Node) : (n.kept p c).value? = n.value?
  attributes (n : d.Node) : (n.kept p c).attributes = n.attributes
  parent? (n : d.Node) : (n.kept p c).parent? = n.parent?.map (Node.kept · p c)
  children (n : d.Node) : (n.kept p c).children
    = n.children.map (Node.kept · p c) ++ if n = p then [newest p c] else []
  every (m : (d.append p c).Node) : (∃ n, m = Node.kept n p c) ∨ m = newest p c
  content_newest : (newest p c).content? = some c
  parent_newest : (newest p c).parent? = some (p.kept p c)
  children_newest : (newest p c).children = []

theorem addsLast (p : d.Node) (c : Content) : AddsLast p c where
  kind n := by rw [Node.kind, Node.content?_kept, Node.kind]
  name? n := by rw [Node.name?, Node.content?_kept, Node.name?]
  value? n := by rw [Node.value?, Node.content?_kept, Node.value?]
  attributes n := by rw [Node.attributes, Node.content?_kept, Node.attributes]
  parent? n := n.parent?_kept p c
  children n := n.children_kept p c
  every := Node.eq_kept_or_newest
  content_newest := by rw [Node.content?, Node.placement_newest, Option.map_some]
  parent_newest := Node.parent?_newest p c
  children_newest := Node.children_newest p c

/-! ### Loops along the links -/

namespace Node

/-- The node `k` links up, if the document node is not passed. -/
def climb (n : d.Node) (k : Nat) : Option d.Node := (Option.bind · parent?)^[k] (some n)

/-- One turn of the loop over the descendants: the node on top of the stack goes out, and its
children take its place. -/
def turn : List d.Node × List d.Node → List d.Node × List d.Node
  | (out, []) => (out, [])
  | (out, n :: rest) => (out ++ [n], n.children ++ rest)

theorem climb_succ (n : d.Node) (k : Nat) : n.climb (k + 1) = n.ancestors[k]? := by
  have stays (k : Nat) : (Option.bind · (parent? (d := d)))^[k] none = none :=
    Function.iterate_fixed rfl k
  induction k generalizing n with
  | zero =>
    cases hp : n.parent? with
    | none => rw [parent?_eq_none.1 hp, ancestors_root]; exact parent?_root
    | some p => rw [ancestors_of_parent hp]; exact hp
  | succ k ih =>
    rw [climb, Function.iterate_succ_apply, Option.bind_some]
    cases hp : n.parent? with
    | none => rw [stays, parent?_eq_none.1 hp, ancestors_root, List.getElem?_nil]
    | some p => rw [ancestors_of_parent hp, List.getElem?_cons_succ]; exact ih p

theorem length_ancestors_le (n : d.Node) : n.ancestors.length ≤ n.val := by
  induction n using induction_on_parent with
  | root => rw [ancestors_root]; exact Nat.zero_le _
  | child p n hp ih =>
    rw [ancestors_of_parent hp, List.length_cons]
    exact Nat.lt_of_le_of_lt ih (lt_of_parent? hp)

theorem iterate_turn (out stack : List d.Node) :
    turn^[(walk stack).length] (out, stack) = (out ++ walk stack, []) := by
  fun_induction walk stack generalizing out with
  | case1 => simp
  | case2 n rest ih =>
    rw [List.length_cons, Function.iterate_succ_apply, turn, ih, List.append_assoc,
      List.singleton_append]

theorem length_descendants_lt (n : d.Node) : n.descendants.length < d.size := by
  have h := n.nodup_preorder.length_le_card
  rwa [preorder_eq_cons, List.length_cons, Fintype.card_fin] at h

theorem index_lt {n p : d.Node} (h : n.parent? = some p) : n.index < p.children.length := by
  rw [index_of_parent h]
  exact List.idxOf_lt_length_of_mem (mem_children.2 h)

end Node

/-- From every node the loops up and down come to an end with the nodes they are for, and its
siblings are cut out of the list of children within its bounds. -/
structure Bounded (d : Document) : Prop where
  climb (n : d.Node) (k : Nat) : n.climb (k + 1) = n.ancestors[k]?
  ancestors (n : d.Node) : n.ancestors.length ≤ n.val
  turns (n : d.Node) : Node.turn^[n.descendants.length] ([], n.children) = (n.descendants, [])
  descendants (n : d.Node) : n.descendants.length < d.size
  siblings (n p : d.Node) : n.parent? = some p → n.index + 1 ≤ p.children.length

theorem bounded (d : Document) : Bounded d where
  climb n k := n.climb_succ k
  ancestors n := n.length_ancestors_le
  turns n := Node.iterate_turn [] n.children
  descendants n := n.length_descendants_lt
  siblings _ _ h := Node.index_lt h

/-- Whatever calls are made, the result is one tree below the document node, with a node for each
that was added; the next one goes to the end of its parent's children and changes nothing else. -/
theorem grows_as_tree (edits : List Edit) (h : Edit.allThere 1 edits = true) :
    ∃ d, build? edits = some d ∧ IsTree d ∧ Bounded d ∧
      d.size = 1 + edits.countP Edit.adds ∧
      (d.isEmpty = true ↔ ∀ e ∈ edits, e.adds = false) ∧
      ∀ (p : d.Node) (c : Content), d.edit? (.add p.val c) = some (d.append p c) ∧
        (d.append p c).size = d.size + 1 ∧ AddsLast p c := by
  obtain ⟨d, hd, hsize⟩ := foldlM_edit? (d := empty) h
  refine ⟨d, hd, isTree d, bounded d, hsize, ?_, fun p c => ⟨?_, size_append p c, addsLast p c⟩⟩
  · have one : empty.size = 1 := rfl
    rw [isEmpty, beq_iff_eq, hsize, one, Nat.add_eq_left, List.countP_eq_zero]
    simp
  · rw [edit?, Node.node?_eq_some.2 rfl, Option.map_some]

/-- Below a text as below an element, and back to a node that was there before. -/
theorem grows_as_tree_interleaved :
    ∃ d, build? [.add 0 (.element "a" []), .add 1 (.text "t"), .add 0 (.comment "c"),
        .add 2 (.instruction "p" "x"), .setAttribute 1 "k" "v", .add 1 (.element "b" [])] = some d ∧
      IsTree d ∧ Bounded d ∧ d.size = 6 ∧ d.isEmpty = false := by
  obtain ⟨d, hd, tree, bounded, size, empty, -⟩ := grows_as_tree
    [.add 0 (.element "a" []), .add 1 (.text "t"), .add 0 (.comment "c"),
      .add 2 (.instruction "p" "x"), .setAttribute 1 "k" "v", .add 1 (.element "b" [])] (by decide)
  refine ⟨d, hd, tree, bounded, size, ?_⟩
  rw [← Bool.not_eq_true, empty]
  decide

end Document

end Stylesheet
