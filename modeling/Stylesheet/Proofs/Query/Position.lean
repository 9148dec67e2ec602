import Mathlib
import Stylesheet.Proofs.Document.Growth
import Stylesheet.Proofs.Document.Partition
import Stylesheet.Proofs.Pattern.Composition

/-! Positions. They are given out along the axis, before the nodes are put into document order, so
that on a reverse axis they count from the context: the same number leads back between siblings, and
the position of an ancestor is the number of links up to it. -/

namespace Stylesheet

theorem getElem?_filter_eq_some {α : Type} {p : α → Bool} {l : List α} {k : Nat} {a : α}
    (h : p a = true) :
    (l.filter p)[k]? = some a ↔ ∃ s t, l = s ++ a :: t ∧ s.countP p = k := by
  constructor
  · intro e
    obtain ⟨s₀, t₀, cut, rfl⟩ := exists_append_of_getElem? e
    obtain ⟨s, r, rfl, rfl, hr⟩ := List.filter_eq_append_iff.1 cut
    obtain ⟨s', t, rfl, none, -, -⟩ := List.filter_eq_cons_iff.1 hr
    refine ⟨s ++ s', t, (List.append_assoc ..).symm, ?_⟩
    rw [List.countP_append, List.countP_eq_zero.2 none, List.countP_eq_length_filter, Nat.add_zero]
  · rintro ⟨s, t, rfl, rfl⟩
    rw [List.filter_append, List.filter_cons_of_pos h, List.countP_eq_length_filter]
    simp

namespace Document

variable {d : Document}

namespace Node

theorem getElem?_siblings_comm {n m : d.Node} {p : d.Node → Bool} (hn : p n = true)
    (hm : p m = true) (k : Nat) : (n.followingSiblings.filter p)[k]? = some m
      ↔ (m.precedingSiblings.filter p)[k]? = some n := by
  rw [getElem?_filter_eq_some hm, getElem?_filter_eq_some hn]
  constructor
  · rintro ⟨s, t, h, rfl⟩
    exact ⟨s.reverse, _, precedingSiblings_of_append h, List.countP_reverse⟩
  · rintro ⟨s, t, h, rfl⟩
    exact ⟨s.reverse, _, followingSiblings_of_append h, List.countP_reverse⟩

end Node

end Document

namespace Query

open Document

variable {d : Document}

/-! ### Steps with a position -/

theorem filter_position (ns : List d.Node) (i k : Nat) :
    ((ns.zipIdx i).filter fun m => (Predicate.position k).holds m.1 m.2).map Prod.fst
      = if i ≤ k then ns[k - i]?.toList else [] := by
  simp only [Predicate.holds]
  induction ns generalizing i with
  | nil => simp
  | cons n ns ih =>
    rw [List.zipIdx_cons, List.filter_cons, apply_ite (List.map Prod.fst), List.map_cons, ih]
    rcases Nat.lt_trichotomy i k with h | rfl | h
    · obtain ⟨j, rfl⟩ := Nat.exists_eq_add_of_lt h
      simp [Nat.add_assoc, Nat.add_sub_add_left]
    · simp
    · simp [Nat.not_le.2 h, Nat.ne_of_gt h]
      omega

theorem refine_append (ns : List d.Node) (ps qs : List Predicate) :
    refine ns (ps ++ qs) = refine (refine ns ps) qs := by
  induction ps generalizing ns with
  | nil => rw [refine, List.nil_append]
  | cons p ps ih => rw [List.cons_append, refine, refine, ih]

theorem refine_nil (ps : List Predicate) : refine ([] : List d.Node) ps = [] := by
  induction ps with
  | nil => rw [refine]
  | cons p ps ih => rw [refine]; exact ih

theorem refine_position (ns : List d.Node) (k : Nat) (ps : List Predicate) :
    refine ns (.position k :: ps) = refine (if 1 ≤ k then ns[k - 1]?.toList else []) ps := by
  rw [refine, filter_position]

theorem Step.select_append (axis : Axis) (test : NodeTest) (ps qs : List Predicate) (n : d.Node) :
    (Step.mk axis test (ps ++ qs)).select n = refine ((Step.mk axis test ps).select n) qs := by
  rw [Step.select, Step.select, refine_append]

theorem Step.select_outside {axis : Axis} {test : NodeTest} {ps : List Predicate} {n : d.Node}
    {k : Nat} (h : k = 0 ∨ ((Step.mk axis test ps).select n).length < k) (qs : List Predicate) :
    (Step.mk axis test (ps ++ .position k :: qs)).select n = [] := by
  rw [Step.select_append, refine_position]
  split
  next hk =>
    have none : ((Step.mk axis test ps).select n)[k - 1]? = none :=
      List.getElem?_eq_none (by omega)
    rw [none]
    exact refine_nil qs
  next => exact refine_nil qs

theorem select_relative (ss : List Step) (n : d.Node) :
    Query.select [.mk false ss] n = inDocumentOrder (follow [n] ss) := by
  rw [Query.select, union, union, List.append_nil, Path.select]
  rfl

theorem select_step (s : Step) (n : d.Node) :
    Query.select [.mk false [s]] n = inDocumentOrder (s.select n) := by
  rw [select_relative, follow, follow, List.flatMap_singleton,
    inDocumentOrder_eq (pairwise_inDocumentOrder _)]

def numbered (axis : Axis) (test : NodeTest) (k : Nat) : Query :=
  [.mk false [.mk axis test [.position k]]]

theorem select_numbered (axis : Axis) (test : NodeTest) (k : Nat) (n : d.Node) :
    (numbered axis test (k + 1)).select n = ((axis.nodes n).filter test.holds)[k]?.toList := by
  rw [numbered, select_step, Step.select, refine_position, refine, if_pos (Nat.le_add_left ..),
    Nat.add_sub_cancel, inDocumentOrder_toList]

def climbing (k : Nat) : Query := [.mk false (List.replicate k (.mk .parent .any []))]

theorem filter_any (ns : List d.Node) : ns.filter (NodeTest.holds · .any) = ns :=
  List.filter_true ns

theorem follow_parents (o : Option d.Node) (k : Nat) :
    follow o.toList (List.replicate k (.mk .parent .any []))
      = ((Option.bind · Node.parent?)^[k] o).toList := by
  induction k generalizing o with
  | zero => rw [List.replicate_zero, follow, Function.iterate_zero_apply]
  | succ k ih =>
    have up (n : d.Node) : (Step.mk .parent .any []).select n = n.parent?.toList := by
      rw [Step.select, refine, filter_any, Axis.nodes]
    have step : (o.toList.flatMap fun n => (Step.mk .parent .any []).select n)
        = (o.bind Node.parent?).toList := by
      rw [Option.toList_bind]
      exact congrArg (List.flatMap · o.toList) (funext up)
    rw [List.replicate_succ, follow, step, inDocumentOrder_toList, ih, Function.iterate_succ_apply]

theorem select_climbing (k : Nat) (n : d.Node) : (climbing k).select n = (n.climb k).toList := by
  rw [climbing, select_relative, ← Option.toList_some, follow_parents, inDocumentOrder_toList,
    Node.climb]

theorem select_ancestors (k : Nat) (n : d.Node) :
    (numbered .ancestor .any (k + 1)).select n = (climbing (k + 1)).select n ∧
      (numbered .ancestorOrSelf .any (k + 2)).select n = (climbing (k + 1)).select n := by
  rw [select_numbered, select_numbered, select_climbing, Node.climb_succ, filter_any, filter_any]
  exact ⟨rfl, rfl⟩

/-! ### Texts -/

def TestPhrase.Spells (t : TestPhrase) (T : String) : Prop :=
  ∃ ps, Layout ps T.toList ∧ ps.map Spaced.token = t.tokens

def numberedText (axis : Axis) (T : String) (k : Nat) : String :=
  axis.name ++ "::" ++ T ++ "[" ++ toString k ++ "]"

def climbingText (k : Nat) : String := "/".intercalate (List.replicate k "..")

theorem parse_numberedText {t : TestPhrase} {T : String} {k : Nat} (h : t.Spells T)
    (hk : k < 18446744073709551616) (axis : Axis) :
    parse (numberedText axis T k) = .ok (numbered axis t.test k) := by
  obtain ⟨ps, hT, hps⟩ := h
  have blank := Text.blank_nil
  have position := Layout.cons blank (Token.raw_number hk)
    (.cons blank (.symbol .rightBracket) (.nil blank))
  obtain ⟨b, step⟩ := hT.join .leftBracket position
  have layout := Layout.cons blank (Token.raw_name axis.isName_name)
    (.cons blank (.symbol .doubleColon) step)
  let e : Phrase .query :=
    .alone (.relative (.last (.tested (some axis) t (.more (.position k) .none))))
  have tokens : e.tokens = axisTokens (some axis)
      ++ (t.tokens ++ [.symbol .leftBracket, .number k, .symbol .rightBracket]) := rfl
  have spells : e.Spells (numberedText axis T k) := by
    rw [Phrase.Spells, tokens, ← hps]
    exact ⟨_, by simpa [numberedText, Symbol.text] using layout, by simp [axisTokens]⟩
  exact Phrase.parse_of_spells spells

theorem parse_climbingText (k : Nat) :
    parse (climbingText (k + 1)) = .ok (climbing (k + 1)) := by
  have parent : parse ".." = .ok (climbing 1) := by cbv
  induction k with
  | zero => exact parent
  | succ k ih =>
    have text : climbingText (k + 2) = joined .single ".." (climbingText (k + 1)) := by
      refine String.toList_inj.1 ?_
      simp [climbingText, joined, List.replicate_succ, Slash.symbol, Symbol.text]
    rw [text]
    exact parse_joined parent (List.cons_ne_nil _ _) ih .single

/-- Positions on reverse axes count from the context. So they lead from one sibling to another and
back, and the position of an ancestor is the number of steps to the parent; one that no candidate
has selects nothing. Texts say the same, as far as their numbers can be read. -/
structure CountsFromContext (d : Document) : Prop where
  siblings (test : NodeTest) (k : Nat) (m n : d.Node) : 0 < k → test.holds m = true →
    test.holds n = true → ((numbered .followingSibling test k).select n = [m]
      ↔ (numbered .precedingSibling test k).select m = [n])
  ancestors (k : Nat) (n : d.Node) : 0 < k →
    (numbered .ancestor .any k).select n = (climbing k).select n ∧
      (numbered .ancestorOrSelf .any (k + 1)).select n = (climbing k).select n
  outside (axis : Axis) (test : NodeTest) (ps qs : List Predicate) (k : Nat) (n : d.Node) :
    k = 0 ∨ ((Step.mk axis test ps).select n).length < k →
      Query.select [.mk false [.mk axis test (ps ++ .position k :: qs)]] n = []
  numbered_text (axis : Axis) (t : TestPhrase) (T : String) (k : Nat) (n : d.Node) : t.Spells T →
    k < 18446744073709551616 →
      (Evaluator.ofQueries d).select (numberedText axis T k) n
        = .ok ((numbered axis t.test k).select n)
  climbing_text (k : Nat) (n : d.Node) : 0 < k →
    (Evaluator.ofQueries d).select (climbingText k) n = .ok ((climbing k).select n)

theorem countsFromContext (d : Document) : CountsFromContext d where
  siblings test k m n hk hm hn := by
    obtain ⟨k, rfl⟩ := Nat.exists_add_one_eq.2 hk
    rw [select_numbered, select_numbered, Option.toList_eq_singleton_iff,
      Option.toList_eq_singleton_iff]
    exact Node.getElem?_siblings_comm hn hm k
  ancestors k n hk := by
    obtain ⟨k, rfl⟩ := Nat.exists_add_one_eq.2 hk
    exact select_ancestors k n
  outside _ _ _ qs _ n h := by
    rw [select_step, Step.select_outside h qs]
    exact inDocumentOrder_eq .nil
  numbered_text axis _ _ _ n h hk := (answers_of_parse_ok (parse_numberedText h hk axis) n).1
  climbing_text k n hk := by
    obtain ⟨k, rfl⟩ := Nat.exists_add_one_eq.2 hk
    exact (answers_of_parse_ok (parse_climbingText k) n).1

/-- Two paragraphs with a text between them, which has no position among them. -/
theorem countsFromContext_list :
    let e := Document.empty
    let d₁ := e.append e.root (.element "list" [])
    let d₂ := d₁.append (⟨1, by decide⟩ : d₁.Node) (.element "p" [])
    let d₃ := d₂.append (⟨1, by decide⟩ : d₂.Node) (.text "t")
    let d := d₃.append (⟨1, by decide⟩ : d₃.Node) (.element "p" [])
    let n : d.Node := ⟨2, by decide⟩
    let m : d.Node := ⟨4, by decide⟩
    (Evaluator.ofQueries d).select "following-sibling::p[1]" n = .ok [m] ∧
      (Evaluator.ofQueries d).select "preceding-sibling::p[1]" m = .ok [n] ∧
      (Evaluator.ofQueries d).select "following-sibling::p[2]" n = .ok [] ∧
      (Evaluator.ofQueries d).select "ancestor::node()[2]" m
        = (Evaluator.ofQueries d).select "../.." m := by
  intro e d₁ d₂ d₃ d n m
  have counts := countsFromContext d
  have hp : (TestPhrase.name "p").Spells "p" := Token.list_layout (by cbv)
  have hnode : (TestPhrase.bare .node false).Spells "node()" := Token.list_layout (by cbv)
  have there : (numbered .followingSibling (.element (some "p")) 1).select n = [m] := by
    rw [select_numbered]
    decide
  have back := (counts.siblings (.element (some "p")) 1 m n (by decide) (by decide)
    (by decide)).1 there
  have one : ((Step.mk .followingSibling (.element (some "p")) []).select n).length < 2 := by
    rw [Step.select, refine]
    decide
  have beyond := counts.outside .followingSibling (.element (some "p")) [] [] 2 n (.inr one)
  have up := (counts.ancestors 2 m (by decide)).1
  have after (k : Nat) := counts.numbered_text .followingSibling _ "p" k n hp
  have before := counts.numbered_text .precedingSibling _ "p" 1 m hp (by decide)
  have above := counts.numbered_text .ancestor _ "node()" 2 m hnode (by decide)
  refine ⟨?_, before.trans (congrArg _ back), ?_, ?_⟩
  · exact (after 1 (by decide)).trans (congrArg _ there)
  · exact (after 2 (by decide)).trans (congrArg _ beyond)
  · exact above.trans ((congrArg _ up).trans (counts.climbing_text 2 m (by decide)).symm)

end Query

end Stylesheet
