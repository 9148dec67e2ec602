import Mathlib
import Stylesheet.Proofs.Pattern.Predicate
import Stylesheet.Proofs.Query.Context
import Stylesheet.Proofs.Query.Seam

namespace Stylesheet

theorem sublist_of_pairwise {α : Type} {R : α → α → Prop} {s t : List α}
    (asymm : ∀ a b, R a b → ¬R b a) (hs : s.Pairwise R) (ht : t.Pairwise R)
    (h : ∀ a ∈ s, a ∈ t) : s.Sublist t := by
  classical
  have kept : s = t.filter (· ∈ s) := by
    refine eq_of_pairwise asymm hs (ht.filter _) fun a => ?_
    simpa using h a
  rw [kept]
  exact List.filter_sublist

namespace Query

open Document

variable {d : Document} {c : Context .query} {p : Phrase .predicate} {n m : d.Node}

theorem Context.select_sublist (outer : c.isOuter = true) (n : d.Node) :
    (Query.select (c.fill (.more p .none)).tree n).Sublist
      (Query.select (c.fill .none).tree n) := by
  have drop : Part.predicates.Entails d (Phrase.more p .none).tree Phrase.none.tree := by
    rintro m ⟨axis, S⟩ hm
    simp only [Part.Leads, Phrase.tree, Survives] at hm ⊢
    exact hm.1
  refine sublist_of_pairwise (fun _ _ => Precedes.asymm) (pairwise_inDocumentOrder _)
    (pairwise_inDocumentOrder _) fun m hm => ?_
  exact mem_select.2 (c.entails drop (.inl outer) m n (mem_select.1 hm))

section Last

variable {c : Context .path} (outer : c.isOuter = true) (last : c.after = [])
  (hp : Predicate.countsPosition p.tree = false)

include outer last hp

theorem Context.mem_select_more :
    m ∈ Query.select (Context.fill (.alone c) (.more p .none)).tree n
      ↔ m ∈ Query.select (Context.fill (.alone c) .none).tree n ∧
        ∀ i, Predicate.Meets m i p.tree := by
  have more := c.leads_more Part.noConfusion outer last hp m n
  simp only [Part.Leads] at more
  simp only [mem_select, fill, Phrase.tree, Leads, or_false, more]

theorem Context.select_complement (n : d.Node) :
    let ns := Query.select (Context.fill (.alone c) .none).tree n
    let ms := Query.select (Context.fill (.alone c) (.more p .none)).tree n
    let ks := Query.select (Context.fill (.alone c) (.more (.not p) .none)).tree n
    ms.Disjoint ks ∧ inDocumentOrder (ms ++ ks) = ns := by
  intro ns ms ks
  have kept (m : d.Node) : m ∈ ms ↔ m ∈ ns ∧ Predicate.Meets m 1 p.tree := by
    rw [c.mem_select_more outer last hp, Predicate.meets_iff_forall hp]
  have negated : Predicate.countsPosition (Phrase.not p).tree = false := by
    simpa only [Phrase.tree, Predicate.countsPosition] using hp
  have dropped (m : d.Node) : m ∈ ks ↔ m ∈ ns ∧ ¬Predicate.Meets m 1 p.tree := by
    rw [c.mem_select_more outer last negated, ← Predicate.meets_iff_forall negated m 1]
    simp only [Phrase.tree, Predicate.Meets]
    rfl
  constructor
  · intro m hm hk
    exact ((dropped m).1 hk).2 ((kept m).1 hm).2
  · refine eq_of_pairwise (fun _ _ => Precedes.asymm) (pairwise_inDocumentOrder _)
      (pairwise_inDocumentOrder _) fun m => ?_
    rw [mem_inDocumentOrder, List.mem_append, kept, dropped, ← and_or_left]
    exact and_iff_left (Classical.em _)

end Last

/-- Each hole in a phrase has a place in every text of the phrase. -/
theorem Context.exists_place {k : Part} {c : Context k} {s : List Char}
    (h : Token.list s = .ok (c.fill .none).tokens) :
    ∃ a b, s = a ++ b ∧ Token.list a = .ok c.before ∧ Token.list b = .ok c.after := by
  rw [c.tokens_fill, Token.list_iff] at h
  obtain ⟨a, b, rfl, ha, hb⟩ := h.cut
  exact ⟨a, b, rfl, Token.list_iff.2 ha, Token.list_iff.2 hb⟩

end Query

open Query Document

/-- A predicate written after those of a step, outside of all predicates, sorts out some of the
nodes that are selected without it. At the end of a path, a predicate that does not count positions
sorts out those that its negation keeps. -/
theorem narrowed_by_predicate {c : Context .query} (outer : c.isOuter = true)
    {p : Phrase .predicate} {a b w : List Char} (ha : Token.list a = .ok c.before)
    (hb : Token.list b = .ok c.after) (hw : Token.list w = .ok (bracketed p)) (d : Document)
    (n : d.Node) : ∃ ns ms, (Evaluator.ofQueries d).select (.ofList (a ++ b)) n = .ok ns ∧
      (Evaluator.ofQueries d).select (.ofList (a ++ (w ++ b))) n = .ok ms ∧ ms.Sublist ns ∧
      ((Evaluator.ofQueries d).accepts (.ofList (a ++ (w ++ b))) n = .ok true →
        (Evaluator.ofQueries d).accepts (.ofList (a ++ b)) n = .ok true) ∧
      ∀ (c' : Context .path) (w' : List Char), c = .alone c' → c.after = [] →
        Predicate.countsPosition p.tree = false → Token.list w' = .ok (bracketed (.not p)) →
          ∃ ks, (Evaluator.ofQueries d).select (.ofList (a ++ (w' ++ b))) n = .ok ks ∧
            ms.Disjoint ks ∧ inDocumentOrder (ms ++ ks) = ns := by
  have parsed (ps : Phrase .predicates) {w : List Char} (hw : Laid ps.tokens w) :
      Query.parse (.ofList (a ++ (w ++ b))) = .ok (c.fill ps).tree :=
    Phrase.parse_of_spells (c.spells (Token.list_layout ha) hw (Token.list_layout hb))
  have empty : Laid Phrase.none.tokens [] := ⟨[], .nil Text.blank_nil, rfl⟩
  have hP := answers_of_parse_ok (parsed .none empty) n
  have hP' := answers_of_parse_ok (parsed (.more p .none) (Token.list_layout hw)) n
  have less := c.select_sublist (p := p) outer n
  refine ⟨_, _, hP.1, hP'.1, less, fun h => ?_, ?_⟩
  · rw [hP'.2, Except.ok.injEq, Bool.not_eq_true', List.isEmpty_eq_false_iff] at h
    have found : Query.select (c.fill .none).tree n ≠ [] := fun e =>
      h (List.sublist_nil.1 (e ▸ less))
    exact hP.2.trans (congrArg Except.ok (by simpa using found))
  · rintro c' w' rfl last hp hw'
    have hP'' := answers_of_parse_ok (parsed (.more (.not p) .none) (Token.list_layout hw')) n
    refine ⟨_, hP''.1, ?_⟩
    exact c'.select_complement outer last hp n

/-- A predicate after a position, which is counted before the predicate sorts out nodes. -/
theorem narrowed_by_predicate_item :
    let c : Context .path := .relative (.joinRight (.tested none (.name "list") .none) .single
      (.last (.tested none (.name "item") (.later (.position 2) .here))))
    let p : Phrase .predicate := .attributed "id" none
    Token.list "list/item[2]".toList = .ok (Context.alone c).before ∧
      Token.list " [ @id ]".toList = .ok (bracketed p) ∧
      Token.list "[not(@id)]".toList = .ok (bracketed (.not p)) ∧
      ∀ (d : Document) (n : d.Node), ∃ ns ms ks,
        (Evaluator.ofQueries d).select "list/item[2]" n = .ok ns ∧
        (Evaluator.ofQueries d).select "list/item[2] [ @id ]" n = .ok ms ∧
        (Evaluator.ofQueries d).select "list/item[2][not(@id)]" n = .ok ks ∧
        ms.Sublist ns ∧ ms.Disjoint ks ∧ inDocumentOrder (ms ++ ks) = ns ∧
        ((Evaluator.ofQueries d).accepts "list/item[2] [ @id ]" n = .ok true →
          (Evaluator.ofQueries d).accepts "list/item[2]" n = .ok true) := by
  intro c p
  have ha : Token.list "list/item[2]".toList = .ok (Context.alone c).before := by cbv
  have hb : Token.list [] = .ok (Context.alone c).after := by cbv
  have hw : Token.list " [ @id ]".toList = .ok (bracketed p) := by cbv
  have hw' : Token.list "[not(@id)]".toList = .ok (bracketed (.not p)) := by cbv
  refine ⟨ha, hw, hw', fun d n => ?_⟩
  obtain ⟨ns, ms, hP, hP', less, matched, complement⟩ := narrowed_by_predicate rfl ha hb hw d n
  obtain ⟨ks, hP'', disjoint, merged⟩ := complement c _ rfl rfl rfl hw'
  exact ⟨ns, ms, ks, hP, hP', hP'', less, disjoint, merged, matched⟩

end Stylesheet
