import Stylesheet.Proofs.Pattern.Reading
import Stylesheet.Proofs.Query.Unambiguous

/-! The features of a pattern are what its derivation shows outside of all predicates, over all
alternatives and not only the weakest. A predicate that counts positions is one as long as its
number fits into 32 bits. -/

namespace Stylesheet

namespace Features

def Named (a : Features) : Prop := ∀ i, 7 ≤ i → a.bits.getLsbD i = false

theorem named_empty : empty.Named := fun _ _ => BitVec.getLsbD_zero

theorem named_single (f : Feature) : (single f).Named := by
  intro i hi
  have index : f.index < 7 := by cases f <;> decide
  have apart : f.index ≠ i := by omega
  rw [single, BitVec.getLsbD_twoPow, decide_eq_false apart, Bool.and_false]

theorem Named.union {a b : Features} (ha : a.Named) (hb : b.Named) : (a ∪ b).Named := by
  intro i hi
  show (a.bits ||| b.bits).getLsbD i = false
  rw [BitVec.getLsbD_or, ha i hi, hb i hi, Bool.or_self]

theorem named_ite {c : Prop} [Decidable c] (f : Feature) :
    (if c then single f else empty).Named := by
  split
  · exact named_single f
  · exact named_empty

theorem mem_ite {c : Prop} [Decidable c] {f g : Feature} :
    f ∈ (if c then single g else empty) ↔ c ∧ f = g := by
  split <;> simp_all

end Features

namespace Pattern

theorem Score.mem_sum_map {α : Type} {score : α → Score} {l : List α} {f : Feature} :
    f ∈ (Score.sum (l.map score)).features ↔ ∃ x ∈ l, f ∈ (score x).features := by
  induction l with
  | nil => simp [Score.zero]
  | cons x l ih =>
    rw [List.map_cons, sum_cons, List.exists_mem_cons_iff, ← ih]
    exact Features.mem_union

theorem Score.named_sum {scores : List Score} (h : ∀ s ∈ scores, s.features.Named) :
    (Score.sum scores).features.Named := by
  induction scores with
  | nil => exact Features.named_empty
  | cons s ss ih =>
    obtain ⟨hs, hss⟩ := List.forall_mem_cons.1 h
    rw [sum_cons]
    exact hs.union (ih hss)

end Pattern

namespace Query

open Text Pattern

namespace Phrase

def written (e : Phrase .query) : List (Phrase .step) := e.paths.flatMap steps

def isWild {k : Part} : Phrase k → Bool
  | .dot | .doubleDot | .tested _ .star _ | .tested _ (.bare .node false) _ => true
  | _ => false

/-- The test of the step is a name, or `element(x)` for a name or literal. -/
def isNamed {k : Part} : Phrase k → Bool
  | .tested _ (.name _) _ | .tested _ (.element (.name _)) _
  | .tested _ (.element (.literal _)) _ => true
  | _ => false

def Shows (e : Phrase .query) : Feature → Prop
  | .nameTest => ∃ s ∈ e.written, s.isNamed = true
  | .wildcard => ∃ s ∈ e.written, s.isWild = true
  | .kindTest => ∃ s ∈ e.written, s.isWild = false ∧ s.isNamed = false
  | .predicate => ∃ s ∈ e.written, s.predicates ≠ []
  | .attributePredicate => ∃ s ∈ e.written, ∃ p ∈ s.predicates, .symbol .atSign ∈ p.tokens
  | .positionalPredicate =>
    ∃ s ∈ e.written, ∃ n, .position n ∈ s.predicates ∧ n < 4294967296
  | .union => 2 ≤ e.paths.length

theorem kind_eq (s : Phrase .step) :
    s.kind = if s.isWild then .wildcard else if s.isNamed then .name else .kind := by
  cases s with
  | dot => rfl
  | doubleDot => rfl
  | tested axis t ps =>
    cases t with
    | star => rfl
    | name n => rfl
    | bare k starred => cases k <;> cases starred <;> rfl
    | element a => cases a <;> rfl
    | instruction a => rfl

theorem not_isNamed {s : Phrase .step} (h : s.isWild = true) : s.isNamed = false := by
  cases s with
  | dot => rfl
  | doubleDot => rfl
  | tested axis t ps =>
    cases t with
    | star => rfl
    | bare k starred => rfl
    | _ => cases h

theorem mem_kind {s : Phrase .step} {f : Feature} : f = s.kind.feature ↔
    f = .wildcard ∧ s.isWild = true ∨ f = .nameTest ∧ s.isNamed = true ∨
      f = .kindTest ∧ s.isWild = false ∧ s.isNamed = false := by
  rw [kind_eq]
  cases hw : s.isWild with
  | true => simp [TestClass.feature, not_isNamed hw]
  | false => cases s.isNamed <;> simp [TestClass.feature]

theorem tellsPosition_iff {p : Phrase .predicate} :
    p.tellsPosition = true ↔ ∃ n, .position n = p ∧ n < 4294967296 := by
  cases p with
  | position n => simp [tellsPosition]
  | _ => simp [tellsPosition]

theorem mem_predicateScore {p : Phrase .predicate} {f : Feature} :
    f ∈ p.predicateScore.features ↔ f = .predicate ∨
      .symbol .atSign ∈ p.tokens ∧ f = .attributePredicate ∨
      p.tellsPosition = true ∧ f = .positionalPredicate := by
  simp [predicateScore, Features.mem_ite, testsAttribute, or_assoc]

theorem mem_stepScore {s : Phrase .step} {f : Feature} :
    f ∈ s.stepScore.features
      ↔ f = s.kind.feature ∨ ∃ p ∈ s.predicates, f ∈ p.predicateScore.features :=
  Features.mem_union.trans (or_congr Features.mem_single Score.mem_sum_map)

theorem mem_score {e : Phrase .query} {f : Feature} :
    f ∈ e.score.features
      ↔ (∃ s ∈ e.written, f ∈ s.stepScore.features) ∨ 1 < e.paths.length ∧ f = .union := by
  refine Features.mem_union.trans (or_congr ?_ Features.mem_ite)
  simp only [Score.mem_sum_map, branchScore, written, List.mem_flatMap]
  constructor
  · rintro ⟨p, hp, s, hs, hf⟩
    exact ⟨s, ⟨p, hp, hs⟩, hf⟩
  · rintro ⟨s, ⟨p, hp, hs⟩, hf⟩
    exact ⟨p, hp, s, hs, hf⟩

theorem shows_iff (e : Phrase .query) (f : Feature) : e.Shows f ↔ f ∈ e.score.features := by
  rw [mem_score]
  simp only [mem_stepScore, mem_kind, mem_predicateScore, tellsPosition_iff]
  cases f with
  | predicate => simp [Shows, List.eq_nil_iff_forall_not_mem]
  | union => simp [Shows, Nat.succ_le_iff]
  | _ => simp [Shows]

theorem named_predicateScore (p : Phrase .predicate) : p.predicateScore.features.Named :=
  ((Features.named_single .predicate).union (Features.named_ite .attributePredicate)).union
    (Features.named_ite .positionalPredicate)

theorem named_stepScore (s : Phrase .step) : s.stepScore.features.Named := by
  refine (Features.named_single _).union (Score.named_sum ?_)
  rintro _ hp
  obtain ⟨p, -, rfl⟩ := List.mem_map.1 hp
  exact p.named_predicateScore

theorem named_score (e : Phrase .query) : e.score.features.Named := by
  refine (Score.named_sum ?_).union (Features.named_ite .union)
  rintro _ hb
  obtain ⟨p, -, rfl⟩ := List.mem_map.1 hb
  refine Score.named_sum ?_
  rintro _ hs
  obtain ⟨s, -, rfl⟩ := List.mem_map.1 hs
  exact s.named_stepScore

end Phrase

theorem Layout.gap_subset {ps : List Spaced} {s : List Char} (h : Layout ps s) :
    ∀ p ∈ ps, Blank p.gap ∧ p.gap ⊆ s := by
  induction h with
  | nil hb => exact fun _ hp => nomatch hp
  | @cons b r s t ps hb hr h ih =>
    intro p hp
    rcases List.mem_cons.1 hp with rfl | hp
    · exact ⟨hb, List.subset_append_left ..⟩
    · obtain ⟨hg, hs⟩ := ih p hp
      exact ⟨hg, fun c hc => List.mem_append_right _ (List.mem_append_right _ (hs hc))⟩

theorem compact_of_unblank {s : String} {ts : List Token} (h : Token.list s.toList = .ok ts)
    (hs : s.toList.any isBlank = false) : ∃ ps, LaidOut ps s ∧ Compact ps := by
  obtain ⟨ps, hl, rfl⟩ := Token.list_layout h
  refine ⟨ps, ⟨hl, h⟩, ?_⟩
  rintro before p after rfl - -
  obtain ⟨hb, hsub⟩ := hl.gap_subset p (by simp)
  rw [List.eq_nil_iff_forall_not_mem]
  intro c hc
  have unblank := List.any_eq_false.1 hs c (hsub hc)
  exact unblank (hb c hc)

end Query

open Text Query

/-- The features of a pattern without blanks about the parentheses of its node tests are those that
its derivation shows, and no flag is set beyond them. -/
theorem Features.mem_of_compact {s : String} {q : Query} (h : Query.parse s = .ok q)
    (hs : ∃ ps, LaidOut ps s ∧ Compact ps) :
    ∃ e : Phrase .query, Token.list s.toList = .ok e.tokens ∧ q = e.tree ∧
      (∀ f, f ∈ Features.of s ↔ e.Shows f) ∧ (Features.of s).Named := by
  obtain ⟨e, he, rfl⟩ := parse_eq_ok.1 h
  obtain ⟨ps, ⟨hl, hps⟩, hc⟩ := hs
  have written : Written e.tokens s.toList :=
    ⟨ps, hl, Except.ok.inj (hps.symm.trans he), hc.sound⟩
  rw [Features.of, e.score_eq written]
  exact ⟨e, he, rfl, fun f => (e.shows_iff f).symm, e.named_score⟩

/-- A union inside of a predicate is none of the pattern, and a number in there counts no positions
of it, but an attribute sign in there does test an attribute. -/
theorem Features.mem_of_compact_nested :
    let s := "..//*[text()[1]|p[@k]]"
    let q : Query := [.mk false [.mk .parent .any [], .descendants, .mk .child (.element none)
      [.selects [.mk false [.mk .child .text [.position 1]],
        .mk false [.mk .child (.element (some "p")) [.attribute "k" none]]]]]]
    Query.parse s = .ok q ∧ (∃ ps, LaidOut ps s ∧ Compact ps) ∧
      ∃ e : Phrase .query, Token.list s.toList = .ok e.tokens ∧ q = e.tree ∧
        (∀ f, f ∈ Features.of s ↔ e.Shows f) ∧ (Features.of s).Named := by
  intro s q
  have hp : Query.parse s = .ok q := by
    dsimp only [s, q]
    cbv
  obtain ⟨e, he, -⟩ := parse_eq_ok.1 hp
  have hc : ∃ ps, LaidOut ps s ∧ Compact ps := compact_of_unblank he (by dsimp only [s]; decide)
  exact ⟨hp, hc, Features.mem_of_compact hp hc⟩

/-- The first number that is too large to be told from a name. -/
theorem Features.of_ne_shows :
    ¬∀ (s : String) (q : Query), Query.parse s = .ok q → (∃ ps, LaidOut ps s ∧ Compact ps) →
      ∃ e : Phrase .query, Token.list s.toList = .ok e.tokens ∧ q = e.tree ∧
        (.positionalPredicate ∈ Features.of s ↔
          ∃ t ∈ e.written, ∃ n, .position n ∈ t.predicates) := by
  intro h
  let s := "self::div[4294967296]"
  let e : Phrase .query := .alone <| .relative <| .last <|
    .tested (some .self) (.name "div") (.more (.position 4294967296) .none)
  have he : Token.list s.toList = .ok e.tokens := by
    dsimp only [s, e]
    cbv
  have hc : ∃ ps, LaidOut ps s ∧ Compact ps := compact_of_unblank he (by dsimp only [s]; decide)
  obtain ⟨e', he', -, iff⟩ := h s e.tree (parse_eq_ok.2 ⟨e, he, rfl⟩) hc
  cases Phrase.tokens_injective (Except.ok.inj (he.symm.trans he'))
  have unset : .positionalPredicate ∉ Features.of s := by
    dsimp only [s]
    decide +kernel
  exact unset (iff.2 ⟨_, List.mem_singleton_self _, 4294967296, List.mem_singleton_self _⟩)

end Stylesheet
