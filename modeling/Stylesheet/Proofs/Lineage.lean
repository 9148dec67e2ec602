import Mathlib
import Stylesheet.Proofs.Document.Relatives
import Stylesheet.Proofs.Route

namespace Stylesheet

open Document

section Links

variable {ν : Type} {l : Link ν}

theorem Link.isChild_of_hop {i : Nat} (h : l.hop = .child i) :
    l.isChild = true ∧ l.position = i := by
  rw [hop] at h
  split at h
  next child =>
    cases h
    exact ⟨child, rfl⟩
  next => cases h

theorem Link.children_of_hops {way : List (Link ν)} {indices : List Nat}
    (h : way.map hop = indices.map .child) :
    (∀ l ∈ way, l.isChild = true) ∧ way.map (·.position) = indices := by
  induction way generalizing indices with
  | nil =>
    obtain rfl := List.map_eq_nil_iff.1 h.symm
    exact ⟨List.forall_mem_nil _, rfl⟩
  | cons l way ih =>
    obtain ⟨i, rest, rfl, hi, hrest⟩ := List.map_eq_cons_iff.1 h.symm
    obtain ⟨child, rfl⟩ := isChild_of_hop hi.symm
    obtain ⟨children, positions⟩ := ih hrest.symm
    exact ⟨List.forall_mem_cons.2 ⟨child, children⟩, congrArg (_ :: ·) positions⟩

theorem Link.counted_of_hop {site position : Nat} {mode : Mode}
    (h : l.hop = .visit site position mode) :
    l.before.length = site ∧ l.position = position ∧ l.request.mode = mode ∧
      (l.request.query.isSome = true ∨ l.request.mode ≠ .default ∨
        ∃ r ∈ l.before, r.plain = true) := by
  rw [hop] at h
  split at h
  next => cases h
  next other =>
    cases h
    refine ⟨rfl, rfl, rfl, ?_⟩
    rw [isChild, Bool.and_eq_true, Bool.not_eq_true', not_and_or, Bool.not_eq_false, Request.plain,
      Bool.and_eq_true, not_and_or] at other
    rcases other with (query | mode) | earlier
    · exact .inl (Option.isSome_iff_ne_none.2 fun none => query (Option.isNone_iff_eq_none.2 none))
    · exact .inr (.inl fun default => mode (beq_iff_eq.2 default))
    · exact .inr (.inr (List.any_eq_true.1 earlier))

theorem Link.mode_of_isChild (h : l.isChild = true) : l.request.mode = .default :=
  beq_iff_eq.1 (Bool.and_eq_true_iff.1 (Bool.and_eq_true_iff.1 h).1).2

variable [TreeNode ν] {ev : Evaluator ν} {requests : List Request} {v u : Visit ν}

theorem Link.Leads.child (h : l.Leads ev requests v u) (child : l.isChild = true) :
    (TreeNode.children v.node)[l.position]? = some u.node := by
  have query := (Bool.and_eq_true_iff.1 (Bool.and_eq_true_iff.1 child).1).1
  obtain ⟨ns, selected, found⟩ := h.selected
  rw [Request.select, Option.isNone_iff_eq_none.1 query] at selected
  cases selected
  exact h.node ▸ found

end Links

namespace Registry

section Ways

variable {ν : Type} [TreeNode ν] {g : Registry Body} {ev : Evaluator ν} {policy : UnmatchedPolicy}
  {limit : Nat} {v : Visit ν}

theorem exists_link : ∀ t ∈ g.turns ev policy limit v [], ∀ i l, t.way[i]? = some l →
    ∃ w ∈ g.turns ev policy limit v [], ∃ u ∈ g.turns ev policy limit v [],
      w.way = t.way.take i ∧ u.way = t.way.take (i + 1) ∧
        l.Leads ev (g.requestsAt ev policy w) w.visit u.visit := by
  -- The last link of a way leads to a turn of which the induction does not know that it is one.
  suffices h : ∀ t ∈ g.turns ev policy limit v [], ∀ i l, t.way[i]? = some l →
      ∃ w ∈ g.turns ev policy limit v [], ∃ u, (u ∈ g.turns ev policy limit v [] ∨ u = t) ∧
        w.way = t.way.take i ∧ u.way = t.way.take (i + 1) ∧
          l.Leads ev (g.requestsAt ev policy w) w.visit u.visit by
    intro t ht i l hl
    obtain ⟨w, hw, u, hu, ways⟩ := h t ht i l hl
    exact ⟨w, hw, u, hu.elim id (· ▸ ht), ways⟩
  refine turns_induction nofun fun w hw ih levels l u hlevels hl i l' hl' => ?_
  rcases Nat.lt_trichotomy i w.way.length with hi | rfl | hi
  · rw [List.getElem?_append_left hi] at hl'
    obtain ⟨w', hw', u', hu', before, upto, leads⟩ := ih i l' hl'
    refine ⟨w', hw', u', .inl (hu'.elim id (· ▸ hw)), ?_, ?_, leads⟩
    · rw [before, List.take_append_of_le_length (Nat.le_of_lt hi)]
    · rw [upto, List.take_append_of_le_length hi]
  · rw [List.getElem?_concat_length] at hl'
    cases hl'
    refine ⟨w, hw, _, .inr rfl, List.take_left.symm, by simp, ?_⟩
    rw [requestsAt, hlevels]
    exact (Body.leads_of_links hl).1
  · rw [List.getElem?_eq_none (by simpa using hi)] at hl'
    cases hl'

theorem mode_of_getLast : ∀ t ∈ g.turns ev policy limit v [], ∀ l ∈ t.way.getLast?,
    t.visit.mode = l.request.mode := by
  refine turns_induction nofun fun w _ _ levels l u _ hl l' hlast => ?_
  rw [List.getLast?_concat] at hlast
  cases hlast
  exact (Body.leads_of_links hl).1.mode

theorem default_of_children {t w : Turn ν} (children : ∀ l ∈ t.way, l.isChild = true)
    (hw : w ∈ g.turns ev policy limit v []) (before : w.way <+: t.way) (hne : w.way ≠ []) :
    w.visit.mode = .default := by
  rw [mode_of_getLast w hw _ (List.getLast?_eq_getLast_of_ne_nil hne)]
  exact Link.mode_of_isChild (children _ (before.subset (List.getLast_mem hne)))

theorem foldlM_positions : ∀ t ∈ g.turns ev policy limit v [], (∀ l ∈ t.way, l.isChild = true) →
    (t.way.map (·.position)).foldlM (fun n i => (TreeNode.children n)[i]?) v.node
      = some t.visit.node := by
  refine turns_induction (fun _ => rfl) fun w _ ih levels l u _ hl children => ?_
  obtain ⟨before, last⟩ := List.forall_mem_append.1 children
  have found := (Body.leads_of_links hl).1.child (last l List.mem_cons_self)
  rw [List.map_append, List.foldlM_append, ih before]
  simpa using found

end Ways

section Documents

variable {g : Registry Body} {d : Document} {ev : Evaluator d.Node} {policy : UnmatchedPolicy}
  {limit : Nat} {v : Visit d.Node}

theorem ancestors_of_children : ∀ t ∈ g.turns ev policy limit v [],
    (∀ l ∈ t.way, l.isChild = true) → t.visit.node :: t.visit.node.ancestors
      = (t.way.map (·.node)).reverse ++ v.node :: v.node.ancestors := by
  refine turns_induction (fun _ => rfl) fun w _ ih levels l u _ hl children => ?_
  obtain ⟨before, last⟩ := List.forall_mem_append.1 children
  have leads := (Body.leads_of_links hl).1
  have below : IsParent w.visit.node u.node :=
    Node.mem_children.1 (List.mem_of_getElem? (leads.child (last l List.mem_cons_self)))
  rw [Node.ancestors_of_parent below, ih before, leads.node]
  simp

theorem takeWhile_ancestors {n root : d.Node} {below : List d.Node}
    (h : n :: n.ancestors = below ++ root :: root.ancestors) :
    (n :: n.ancestors).takeWhile (· ≠ root) = below := by
  have sorted : (n :: n.ancestors).Pairwise fun a b => Precedes b a :=
    List.pairwise_cons.2 ⟨fun a ha => (Node.mem_ancestors.1 ha).precedes, n.precedes_ancestors⟩
  rw [h] at sorted ⊢
  have hne : ∀ m ∈ below, decide (m ≠ root) = true := by
    intro m hm
    have precedes := (List.pairwise_append.1 sorted).2.2 m hm root List.mem_cons_self
    refine decide_eq_true ?_
    rintro rfl
    exact precedes.irrefl
  rw [List.takeWhile_append_of_pos hne]
  simp

theorem wayScope_eq {root : d.Node} {mode : Mode} {t : Turn d.Node}
    (ht : t ∈ g.turns ev policy limit (.root root mode) [])
    (children : ∀ l ∈ t.way, l.isChild = true) :
    wayScope root t.way = ((t.visit.node :: t.visit.node.ancestors).takeWhile (· ≠ root)
      ++ [root]).findSome? TreeNode.identifier := by
  have above : (t.visit.node :: t.visit.node.ancestors).takeWhile (· ≠ root)
      = (t.way.map (·.node)).reverse := takeWhile_ancestors (ancestors_of_children t ht children)
  rw [above, wayScope, nearest, ← List.map_reverse, List.findSome?_map, List.reverse_cons]
  rfl

end Documents

/-- A key of child hops tells where the node is: its hops are the indices of children from the root
down, all in the default mode, and its scope is the identifier of the nearest node that has one,
going up from the node to the root. Any other hop comes from a call with a query or in a named mode,
or from one that is not the first for the children in its body. -/
theorem lineage_of_key (g : Registry Body) {d : Document} (ev : Evaluator d.Node) (root : d.Node)
    (options : Options) (limit : Nat) :
    let turns := g.turns ev options.unmatched limit (.root root options.mode) []
    (g.run ev root options limit).visits = (turns.filter (g.answers ev)).map (·.visit) ∧
      ∀ t ∈ turns,
        (∀ indices : List Nat, t.visit.key.hops = indices.map .child →
          indices.foldlM (fun n i => (TreeNode.children n)[i]?) root = some t.visit.node ∧
          (∀ w ∈ turns, w.way <+: t.way → w.way ≠ [] → w.visit.mode = .default) ∧
          t.visit.key.scope = ((t.visit.node :: t.visit.node.ancestors).takeWhile (· ≠ root)
            ++ [root]).findSome? TreeNode.identifier) ∧
        ∀ i site position mode, t.visit.key.hops[i]? = some (.visit site position mode) →
          ∃ w ∈ turns, ∃ u ∈ turns, ∃ l : Link d.Node,
            w.way = t.way.take i ∧ u.way = t.way.take (i + 1) ∧
            l.Leads ev (g.requestsAt ev options.unmatched w) w.visit u.visit ∧
            l.before.length = site ∧ l.position = position ∧ l.request.mode = mode ∧
            (l.request.query.isSome = true ∨ l.request.mode ≠ .default ∨
              ∃ r ∈ l.before, r.plain = true) := by
  intro turns
  refine ⟨g.visits_eq .., fun t ht => ?_⟩
  rw [g.key_eq_of_mem_turns ev root options limit t ht]
  constructor
  · intro indices hops
    obtain ⟨children, rfl⟩ := Link.children_of_hops hops
    exact ⟨foldlM_positions t ht children, fun w => default_of_children children,
      wayScope_eq ht children⟩
  · intro i site position mode hop
    rw [List.getElem?_map] at hop
    obtain ⟨l, hl, hop⟩ := Option.map_eq_some_iff.1 hop
    obtain ⟨w, hw, u, hu, before, upto, leads⟩ := exists_link t ht i l hl
    exact ⟨w, hw, u, hu, l, before, upto, leads, Link.counted_of_hop hop⟩

end Registry

end Stylesheet
