import Mathlib
import Stylesheet.Proofs.Document.Relatives
import Stylesheet.Proofs.Query.Meaning
import Stylesheet.Query.Select

namespace Stylesheet

namespace Query

open Document

variable {d : Document}

namespace Axis

theorem Nearer.asymm {axis : Axis} {a b : d.Node} (h : axis.Nearer a b) : ¬axis.Nearer b a := by
  cases axis <;> exact Precedes.asymm h

theorem mem_nodes {axis : Axis} {n m : d.Node} : m ∈ axis.nodes n ↔ axis.Relates n m := by
  cases axis with
  | self => exact List.mem_singleton
  | child => exact Node.mem_children
  | parent => exact Option.mem_toList
  | ancestor => exact Node.mem_ancestors
  | ancestorOrSelf => exact List.mem_cons.trans (or_congr_right Node.mem_ancestors)
  | descendant => exact Node.mem_descendants
  | descendantOrSelf => exact List.mem_cons.trans (or_congr_right Node.mem_descendants)
  | followingSibling => exact Node.mem_followingSiblings
  | precedingSibling => exact Node.mem_precedingSiblings

theorem nearer_nodes (axis : Axis) (n : d.Node) : (axis.nodes n).Pairwise axis.Nearer := by
  cases axis with
  | self => exact List.pairwise_singleton ..
  | child => exact n.precedes_children
  | parent =>
    rw [nodes]
    cases n.parent? with
    | none => exact .nil
    | some p => exact List.pairwise_singleton ..
  | ancestor => exact n.precedes_ancestors
  | ancestorOrSelf =>
    refine List.pairwise_cons.2 ⟨fun a ha => ?_, n.precedes_ancestors⟩
    exact (Node.mem_ancestors.1 ha).precedes
  | descendant => exact n.precedes_descendants
  | descendantOrSelf =>
    exact List.pairwise_cons.2
      ⟨fun m hm => (Node.mem_descendants.1 hm).precedes, n.precedes_descendants⟩
  | followingSibling => exact n.precedes_followingSiblings
  | precedingSibling => exact n.precedes_precedingSiblings

/-- The nodes `S`, each once, nearer ones first. -/
structure Lists (axis : Axis) (S : d.Node → Prop) (ns : List d.Node) : Prop where
  nearer : ns.Pairwise axis.Nearer
  mem (m : d.Node) : m ∈ ns ↔ S m

theorem Lists.position {axis : Axis} {S : d.Node → Prop} {before after : List d.Node} {m : d.Node}
    (h : axis.Lists S (before ++ m :: after)) : axis.position S m = before.length + 1 := by
  obtain ⟨hb, hm, hba⟩ := List.pairwise_append.1 h.nearer
  have ha := (List.pairwise_cons.1 hm).1
  have set : {x | S x ∧ axis.Nearer x m} = {x | x ∈ before} := by
    ext x
    simp only [Set.mem_ofPred_eq, ← h.mem, List.mem_append, List.mem_cons]
    constructor
    · rintro ⟨hx | rfl | hx, hn⟩
      · exact hx
      · exact absurd hn hn.asymm
      · exact absurd hn (ha x hx).asymm
    · exact fun hx => ⟨.inl hx, hba x hx m List.mem_cons_self⟩
  have nodup : before.Nodup := hb.imp fun {a b} (hab : axis.Nearer a b) (e : a = b) =>
    (e ▸ hab).asymm (e ▸ hab)
  rw [Axis.position, set, ← List.coe_toFinset, Set.ncard_coe_finset,
    List.toFinset_card_of_nodup nodup]

theorem Lists.mem_zipIdx {axis : Axis} {S : d.Node → Prop} {ns : List d.Node} (h : axis.Lists S ns)
    {m : d.Node} {k : Nat} : (m, k) ∈ ns.zipIdx 1 ↔ S m ∧ k = axis.position S m := by
  rw [List.mk_mem_zipIdx_iff_le_and_getElem?_sub]
  constructor
  · rintro ⟨hk, hm⟩
    obtain ⟨before, after, rfl, hb⟩ := exists_append_of_getElem? hm
    rw [h.position, ← h.mem]
    exact ⟨by simp, by omega⟩
  · rintro ⟨hm, rfl⟩
    obtain ⟨before, after, rfl⟩ := List.append_of_mem ((h.mem m).2 hm)
    rw [h.position]
    exact ⟨Nat.le_add_left .., by simp⟩

theorem Lists.filter {axis : Axis} {S : d.Node → Prop} {ns : List d.Node} (h : axis.Lists S ns)
    (p : d.Node → Nat → Bool) :
    axis.Lists (fun m => S m ∧ p m (axis.position S m) = true)
      (((ns.zipIdx 1).filter fun m => p m.1 m.2).map Prod.fst) where
  nearer := by
    have sub := ((ns.zipIdx 1).filter_sublist (p := fun m => p m.1 m.2)).map Prod.fst
    rw [List.zipIdx_map_fst] at sub
    exact h.nearer.sublist sub
  mem m := by
    simp only [List.mem_map, List.mem_filter, Prod.exists, exists_and_right, exists_eq_right,
      h.mem_zipIdx]
    constructor
    · rintro ⟨k, ⟨hm, rfl⟩, hp⟩
      exact ⟨hm, hp⟩
    · rintro ⟨hm, hp⟩
      exact ⟨_, ⟨hm, rfl⟩, hp⟩

end Axis

theorem NodeTest.holds_iff {n : d.Node} {test : NodeTest} :
    test.holds n = true ↔ test.Admits n := by
  cases test with
  | any => exact iff_of_true rfl trivial
  | element name => cases name <;> simp [holds, Admits]
  | text => exact beq_iff_eq
  | comment => exact beq_iff_eq
  | instruction target => cases target <;> simp [holds, Admits]
  | document => exact beq_iff_eq

theorem attributeHolds_iff {n : d.Node} {name : String} {comparison : Option Comparison} :
    attributeHolds n name comparison = true ↔ HasAttribute n name comparison := by
  unfold attributeHolds HasAttribute
  cases n.attribute? name with
  | none => simp
  | some value =>
    cases comparison with
    | none => simp
    | some c =>
      obtain ⟨equal, text⟩ := c
      cases equal <;> simp

-- Predicates contain paths, so that the induction goes through all parts of a query at once.
mutual

theorem Predicate.holds_iff (n : d.Node) (position : Nat) (p : Predicate) :
    p.holds n position = true ↔ p.Meets n position :=
  match p with
  | .position k => by
    simp [Predicate.holds, Predicate.Meets]
  | .attribute name comparison => by
    simpa only [Predicate.holds, Predicate.Meets] using attributeHolds_iff
  | .not p => by
    simp only [Predicate.holds, Predicate.Meets, Bool.not_eq_true',
      ← Predicate.holds_iff n position p, Bool.not_eq_true]
  | .selects paths => by
    simp only [Predicate.holds, Predicate.Meets, ← mem_union n _ paths, Bool.not_eq_true',
      List.isEmpty_eq_false_iff_exists_mem]
termination_by structural p

theorem lists_refine (axis : Axis) (S : d.Node → Prop) (ns : List d.Node) (h : axis.Lists S ns)
    (ps : List Predicate) : axis.Lists (fun m => Survives axis S m ps) (refine ns ps) :=
  match ps with
  | [] => by
    simpa only [Survives, refine] using h
  | p :: ps => by
    simp only [Survives, refine, ← Predicate.holds_iff _ _ p]
    exact lists_refine axis _ _ (h.filter fun m k => p.holds m k) ps
termination_by structural ps

theorem Step.mem_select (n m : d.Node) (s : Step) : m ∈ s.select n ↔ s.Leads n m :=
  match s with
  | .mk axis test predicates => by
    have h : axis.Lists (fun x => axis.Relates n x ∧ test.Admits x)
        ((axis.nodes n).filter test.holds) :=
      ⟨(axis.nearer_nodes n).filter _, fun x => by
        rw [List.mem_filter, Axis.mem_nodes, NodeTest.holds_iff]⟩
    simpa only [Step.select, Step.Leads] using (lists_refine axis _ _ h predicates).mem m
termination_by structural s

theorem mem_follow (ns : List d.Node) (m : d.Node) (ss : List Step) :
    m ∈ follow ns ss ↔ ∃ n ∈ ns, Chain n m ss :=
  match ss with
  | [] => by
    simp [follow, Chain]
  | s :: ss => by
    simp only [follow, Chain, mem_follow _ m ss, mem_inDocumentOrder, List.mem_flatMap,
      Step.mem_select _ _ s]
    constructor
    · rintro ⟨c, ⟨n, hn, hc⟩, hm⟩
      exact ⟨n, hn, c, hc, hm⟩
    · rintro ⟨n, hn, c, hc, hm⟩
      exact ⟨c, ⟨n, hn, hc⟩, hm⟩
termination_by structural ss

theorem Path.mem_select (n m : d.Node) (p : Path) : m ∈ p.select n ↔ p.Leads n m :=
  match p with
  | .mk absolute steps => by
    simp [Path.select, Path.Leads, mem_follow _ m steps]
termination_by structural p

theorem mem_union (n m : d.Node) (ps : List Path) : m ∈ union n ps ↔ Leads n m ps :=
  match ps with
  | [] => by
    simp [union, Leads]
  | p :: ps => by
    simp only [union, Leads, List.mem_append, Path.mem_select n m p, mem_union n m ps]
termination_by structural ps

end

end Query

/-- A query selects the nodes that it leads to, each once and in document order. -/
theorem select_spec {d : Document} {s : String} {q : Query} (h : Query.parse s = .ok q)
    (n : d.Node) : ∃ ns, (Evaluator.ofQueries d).select s n = .ok ns ∧
      ns.Pairwise Document.Precedes ∧ ∀ m, m ∈ ns ↔ ∃ p ∈ q, p.Leads n m := by
  refine ⟨q.select n, ?_, Document.pairwise_inDocumentOrder _, fun m => ?_⟩
  · simp only [Evaluator.ofQueries, Evaluator.ofQueries.parse, h]
    rfl
  · rw [Query.select, Document.mem_inDocumentOrder, Query.mem_union, Query.leads_iff]

/-- A reverse axis with a position, a double slash and a union, seen from a list in a document. -/
theorem select_spec_union :
    let d := Document.empty.append Document.empty.root (.element "list" [("id", "x")])
    let q : Query := [.mk false [.mk .ancestor .any [.position 1], .descendants,
      .mk .child (.element (some "list")) [.not (.attribute "id" (some ⟨false, "x"⟩))]],
      .mk false [.mk .parent .any []]]
    Query.parse "ancestor::node()[1]//list[not(@id != 'x')]|.." = .ok q ∧
      ∃ ns, (Evaluator.ofQueries d).select "ancestor::node()[1]//list[not(@id != 'x')]|.."
          (⟨1, by decide⟩ : d.Node) = .ok ns ∧
        ns.Pairwise Document.Precedes ∧
        ∀ m, m ∈ ns ↔ ∃ p ∈ q, p.Leads (⟨1, by decide⟩ : d.Node) m := by
  intro d q
  have h : Query.parse "ancestor::node()[1]//list[not(@id != 'x')]|.." = .ok q := by cbv
  exact ⟨h, select_spec h _⟩

end Stylesheet
