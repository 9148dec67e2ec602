import Mathlib
import Stylesheet.Proofs.Pattern.Composition
import Stylesheet.Proofs.Query.Survival

namespace Stylesheet

namespace Query

open Document

variable {d : Document}

section Chains

variable {n m : d.Node} {test : NodeTest} {ps : List Predicate}

theorem leads_descendants : Step.descendants.Leads n m ↔ m = n ∨ IsAncestor n m := by
  rw [Step.descendants, Step.Leads, Survives]
  exact and_iff_left trivial

theorem isAncestor_iff : IsAncestor n m ↔ ∃ c, (c = n ∨ IsAncestor n c) ∧ IsParent c m := by
  rw [IsAncestor, Relation.TransGen.tail'_iff]
  simp only [Relation.reflTransGen_iff_eq_or_transGen, IsAncestor]

theorem chain_descendants_child (h : ∀ p ∈ ps, p.countsPosition = false) :
    Chain n m [.descendants, .mk .child test ps] ↔ Chain n m [.mk .descendant test ps] := by
  simp only [Chain, exists_eq_right, leads_descendants, Step.Leads, survives_iff h, Axis.Relates,
    isAncestor_iff (n := n) (m := m), ← and_assoc, exists_and_right]

end Chains

theorem select_descendants_child {absolute : Bool} (ss : List Step) {test : NodeTest}
    {ps : List Predicate} (h : ∀ p ∈ ps, p.countsPosition = false) (n : d.Node) :
    Query.select [.mk absolute (ss ++ [.descendants, .mk .child test ps])] n
      = Query.select [.mk absolute (ss ++ [.mk .descendant test ps])] n := by
  refine select_congr fun m => ?_
  simp only [Leads, or_false, Path.Leads, chain_append, chain_descendants_child h]

/-! ### Spelling -/

theorem Phrase.tree_predicates (ps : Phrase .predicates) : ps.tree = ps.predicates.map tree :=
  match ps with
  | .none => rfl
  | .more p ps => congrArg (p.tree :: ·) (tree_predicates ps)

section Spelling

variable {R : String} {ss : Phrase .steps} {t : TestPhrase} {ps : Phrase .predicates}

theorem Phrase.Spells.absolute (h : (alone (relative ss)).Spells R) (l : Slash) :
    (alone (absolute l ss)).Spells (String.ofList l.symbol.text ++ R) := by
  obtain ⟨qs, hqs, e⟩ := h
  refine ⟨⟨[], .symbol l.symbol⟩ :: qs, ?_, congrArg (_ :: ·) e⟩
  simpa using Layout.cons Text.blank_nil (.symbol l.symbol) hqs

theorem Phrase.Spells.along (h : (alone (relative (last (tested Option.none t ps)))).Spells R)
    (axis : Axis) : (alone (relative (last (tested (some axis) t ps)))).Spells
      (axis.name ++ "::" ++ R) := by
  obtain ⟨qs, hqs, e⟩ := h
  refine ⟨⟨[], .name axis.name⟩ :: ⟨[], .symbol .doubleColon⟩ :: qs, ?_,
    congrArg (_ :: _ :: ·) e⟩
  have layout := Layout.cons Text.blank_nil (Token.raw_name axis.isName_name)
    (.cons Text.blank_nil (.symbol .doubleColon) hqs)
  simpa [Symbol.text] using layout

end Spelling

end Query

open Query Document

namespace Pattern

/-- A node test without an axis, and predicates that do not count positions. -/
def IsUncounted (R : String) : Prop :=
  ∃ t ps, (Phrase.alone (.relative (.last (.tested none t ps)))).Spells R ∧
    ∀ p ∈ ps.predicates, Predicate.countsPosition p.tree = false

/-- The double slash before a test is the descendant axis, as long as its predicates do not count
positions. -/
theorem select_double_slash {R : String} (hR : IsUncounted R) (d : Document) (n : d.Node) :
    (∃ ns, (Evaluator.ofQueries d).select ("//" ++ R) n = .ok ns ∧
      (Evaluator.ofQueries d).select ("/descendant::" ++ R) n = .ok ns) ∧
    ∀ P, IsStepped P → ∃ ns, (Evaluator.ofQueries d).select (P ++ "//" ++ R) n = .ok ns ∧
      (Evaluator.ofQueries d).select (P ++ "/descendant::" ++ R) n = .ok ns := by
  obtain ⟨t, ps, spells, hps⟩ := hR
  have free : ∀ p ∈ ps.predicates.map Phrase.tree, Predicate.countsPosition p = false :=
    List.forall_mem_map.2 hps
  rw [← ps.tree_predicates] at free
  have below := spells.along .descendant
  have slashes (P : String) : P ++ "/descendant::" ++ R
      = joined .single P (Axis.descendant.name ++ "::" ++ R) := by
    have axis : "/descendant::" = "/" ++ (Axis.descendant.name ++ "::") := rfl
    rw [axis, joined]
    simp only [String.append_assoc]
    rfl
  constructor
  · have double := Phrase.parse_of_spells (spells.absolute .double)
    have single := Phrase.parse_of_spells (below.absolute .single)
    refine ⟨_, (answers_of_parse_ok double n).1, ?_⟩
    rw [← String.empty_append (s := "/descendant::"), slashes]
    exact (answers_of_parse_ok single n).1.trans
      (congrArg Except.ok (select_descendants_child [] free n).symm)
  · rintro P ⟨absolute, ss, hP, hne⟩
    have double := parse_joined hP hne (Phrase.parse_of_spells spells) .double
    have single := parse_joined hP hne (Phrase.parse_of_spells below) .single
    refine ⟨_, (answers_of_parse_ok double n).1, ?_⟩
    rw [slashes]
    exact (answers_of_parse_ok single n).1.trans
      (congrArg Except.ok (select_descendants_child ss free n).symm)

/-- A position of the path before the slash, and one of a path in a predicate. -/
theorem select_double_slash_para :
    let P := "list[2]"
    let R := " para [@id][not(note[1])]"
    IsStepped P ∧ IsUncounted R ∧ ∀ (d : Document) (n : d.Node),
      (∃ ns, (Evaluator.ofQueries d).select ("//" ++ R) n = .ok ns ∧
        (Evaluator.ofQueries d).select ("/descendant::" ++ R) n = .ok ns) ∧
      ∃ ns, (Evaluator.ofQueries d).select (P ++ "//" ++ R) n = .ok ns ∧
        (Evaluator.ofQueries d).select (P ++ "/descendant::" ++ R) n = .ok ns := by
  intro P R
  have hP : IsStepped P :=
    ⟨false, [.mk .child (.element (some "list")) [.position 2]], by cbv, List.cons_ne_nil _ _⟩
  have hR : IsUncounted R := by
    refine ⟨.name "para", .more (.attributed "id" none) (.more (.not (.selects (.alone (.relative
      (.last (.tested none (.name "note") (.more (.position 1) .none))))))) .none), ?_, ?_⟩
    · exact Token.list_layout (by cbv)
    · exact List.forall_mem_cons.2 ⟨rfl, List.forall_mem_singleton.2 rfl⟩
  refine ⟨hP, hR, fun d n => ?_⟩
  obtain ⟨alone, after⟩ := select_double_slash hR d n
  exact ⟨alone, after P hP⟩

end Pattern

end Stylesheet
