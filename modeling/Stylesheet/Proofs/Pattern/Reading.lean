import Mathlib
import Stylesheet.Proofs.Pattern.Compact
import Stylesheet.Proofs.Pattern.Positional
import Stylesheet.Proofs.Query.Derivation

/-! Scoring a pattern by its text and by its derivation gives the same, as long as no blanks stand
where they would change the class of a node test. -/

namespace Stylesheet

namespace Query

open Text Pattern

namespace Phrase

def kind {k : Part} : Phrase k → TestClass
  | .tested _ t _ => t.kind
  | _ => .wildcard

def stepScore (s : Phrase .step) : Score :=
  ⟨⟨0, 0, s.kind.weight, 1⟩, .single s.kind.feature⟩ + .sum (s.predicates.map predicateScore)

def branchScore {k : Part} (e : Phrase k) : Score :=
  .sum (e.steps.map stepScore)

def score (e : Phrase .query) : Score :=
  let scores := e.paths.map branchScore
  ⟨weakest (scores.map (·.specificity)),
    (Score.sum scores).features ∪ (if 1 < e.paths.length then .single .union else .empty)⟩

end Phrase

/-- The text without its literals is scored as the phrase. -/
def Part.Scores (s : List Char) : (k : Part) → Phrase k → Prop
  | .step, e | .steps, e | .path, e => Score.ofBranch s = e.branchScore
  | .query, e => (splitOutside '|' s).map .ofBranch = e.paths.map Phrase.branchScore
  | .predicates, _ | .predicate, _ => True

theorem ofBranch_blank {b : List Char} (hb : Blank b) : Score.ofBranch b = .zero := by
  have hl : Balanced isOpener isCloser (· ≠ '/') b :=
    (Counting.both.blank hb (Part.top_of_notMem .step)).mono fun c hc => hc.2
  have ht : trim b = [] := (trim_append_blank [] hb).trans rfl
  rw [Score.ofBranch, splitOutside_of_balanced hl]
  simp [ht]

theorem Written.ofBranch_cons {ts : List Token} {s : List Char} {l : Slash}
    (h : Written (.symbol l.symbol :: ts) s) :
    ∃ v, Written ts v ∧ Score.ofBranch (stripLiterals s) = Score.ofBranch (stripLiterals v) := by
  obtain ⟨b, v, e, hb, hv⟩ := h.cut_cons (by cases l <;> rfl)
  have hd := (Counting.both.blank hb (Part.top_of_notMem .path)).depth_eq 0
  rw [e, ofBranch_join hd, ofBranch_blank hb, Score.zero_add]
  exact ⟨v, hv, rfl⟩

theorem ofBranch_dots {y : Symbol} {e : Phrase .step} {s : List Char} (he : e.tokens = [.symbol y])
    (hy : y = .dot ∨ y = .doubleDot) (h : Written [.symbol y] s) :
    Score.ofBranch (stripLiterals s) = ⟨⟨0, 0, 0, 1⟩, .single .wildcard⟩ := by
  have hbalanced := e.balanced .both (he ▸ h.spelt)
  obtain ⟨b, v, hs, hb, hv⟩ := h.cut_cons (by rcases hy with rfl | rfl <;> rfl)
  rw [stripLiterals_blank hv.blank] at hs
  have htest : Score.ofTest (stripLiterals s) = ⟨⟨0, 0, 0, 1⟩, .single .wildcard⟩ := by
    rw [Score.ofTest, TestClass.of, hs]
    rcases hy with rfl | rfl
    · rw [bareTest_of_tight Symbol.dot.tight rfl (by decide) hb hv.blank]
      rfl
    · rw [bareTest_of_tight Symbol.doubleDot.tight rfl (by decide) hb hv.blank]
      rfl
  have hone : [Token.symbol y].all (fun t => !t.isBracket) = true := by
    rcases hy with rfl | rfl <;> rfl
  rw [← List.append_nil (stripLiterals s)] at hbalanced
  have hbranch := ofBranch_step (h.spelt.unbracketed hone) h.spelt.not_blank_symbol
    (.nil blank_nil) hbalanced
  rw [List.append_nil, htest, List.map_nil, Score.sum_nil, Score.add_zero] at hbranch
  exact hbranch

theorem map_ofPredicate {ps : List (Phrase .predicate)} {qs : List (List Char)}
    (h : List.Forall₂ (fun p q => Spelt p.tokens q) ps qs) :
    qs.map .ofPredicate = ps.map Phrase.predicateScore := by
  induction h with
  | nil => rfl
  | @cons p q ps qs hp h ih => rw [List.map_cons, List.map_cons, p.ofPredicate_eq hp, ih]

theorem ofBranch_tested {axis : Option Axis} {t : TestPhrase} {ps : Phrase .predicates}
    {f r : List Char} (hf : Spelt (axisTokens axis ++ t.tokens) f) (hr : Spelt ps.tokens r) :
    Score.ofBranch (f ++ r)
      = Score.ofTest f + Score.sum (ps.predicates.map Phrase.predicateScore) := by
  have spelt : Spelt (Phrase.tested axis t ps).tokens (f ++ r) := by
    rw [Phrase.tokens, ← List.append_assoc]
    exact hf.append hr
  obtain ⟨qs, hqs, hps⟩ := ps.bracketed hr
  rw [ofBranch_step hf.unbracketed_head hf.not_blank_head hqs (Phrase.balanced .both _ spelt),
    map_ofPredicate hps]

theorem map_ofBranch_join {t : List Char} (ht : depth isOpener isCloser 0 t = 0) (r : List Char) :
    (splitOutside '|' (t ++ (Symbol.pipe.text ++ r))).map Score.ofBranch
      = (splitOutside '|' t).map Score.ofBranch ++ (splitOutside '|' r).map Score.ofBranch := by
  rw [← List.map_append, ← splitOutside_append_cons ht rfl rfl]
  rfl

theorem Written.ofTest_eq {axis : Option Axis} {t : TestPhrase} {s : List Char}
    (h : Written (axisTokens axis ++ t.tokens) s) :
    Score.ofTest (stripLiterals s) = ⟨⟨0, 0, t.kind.weight, 1⟩, .single t.kind.feature⟩ := by
  obtain ⟨ps, hl, e, hs⟩ := h
  obtain ⟨ps, qs, rfl, hps, hqs⟩ := List.map_eq_append_iff.1 e
  rw [Score.ofTest, hl.testClass hps hqs (hs ps qs rfl (hps ▸ outside_axis axis))]

theorem Phrase.scores {k : Part} (e : Phrase k) {s : List Char} (h : Written e.tokens s) :
    k.Scores (stripLiterals s) e := by
  induction e generalizing s with
  | alone p ih =>
    show (splitOutside '|' _).map _ = [p.branchScore]
    rw [splitOutside_of_balanced (p.balanced .both h.spelt), ← ih h]
    rfl
  | union p q ihp ihq =>
    obtain ⟨u, v, e, hu, hv⟩ := h.cut_symbol p.outside rfl
    have hu' := p.balanced .both hu.spelt
    have hp : Score.ofBranch (stripLiterals u) = p.branchScore := ihp hu
    have hq : (splitOutside '|' (stripLiterals v)).map _ = q.paths.map branchScore := ihq hv
    show (splitOutside '|' _).map _ = p.branchScore :: q.paths.map branchScore
    rw [e, ← hp, ← hq, map_ofBranch_join (hu'.depth_eq 0), splitOutside_of_balanced hu']
    rfl
  | root =>
    obtain ⟨v, hv, e⟩ := Written.ofBranch_cons (l := .single) h
    rw [stripLiterals_blank hv.blank, ofBranch_blank hv.blank] at e
    exact e
  | absolute l ss ih =>
    obtain ⟨v, hv, e⟩ := h.ofBranch_cons
    exact e.trans (ih hv)
  | relative ss ih => exact ih h
  | last step ih => exact ih h
  | join step l ss ihs ihss =>
    obtain ⟨u, v, e, hu, hv⟩ := h.cut_symbol step.outside (by cases l <;> rfl)
    have hd := (step.balanced .both hu.spelt).depth_eq 0
    show Score.ofBranch _ = Score.sum ((step.steps ++ ss.steps).map stepScore)
    rw [e, ofBranch_join hd, List.map_append, Score.sum_append]
    exact congrArg₂ (· + ·) (ihs hu) (ihss hv)
  | dot => exact ofBranch_dots (e := .dot) rfl (.inl rfl) h
  | doubleDot => exact ofBranch_dots (e := .doubleDot) rfl (.inr rfl) h
  | tested axis t ps ih =>
    rw [tokens, ← List.append_assoc] at h
    obtain ⟨u, v, rfl, hu, hv⟩ := h.cut ((outside_axis axis).append t.outside)
    show _ = Score.sum [stepScore _]
    rw [hu.strip_append, ofBranch_tested hu.spelt hv.spelt, hu.ofTest_eq, Score.sum_cons,
      Score.sum_nil, Score.add_zero]
    rfl
  | _ => trivial

/-- A pattern is scored by its text as by its derivation. -/
theorem Phrase.score_eq (e : Phrase .query) {s : String} (h : Written e.tokens s.toList) :
    Score.of s = e.score := by
  have hscores : (splitOutside '|' (stripLiterals s.toList)).map Score.ofBranch
      = e.paths.map branchScore := e.scores h
  have hlength := congrArg List.length hscores
  rw [List.length_map, List.length_map] at hlength
  rw [Score.of, Score.ofChars, hscores, hlength]
  rfl

/-- The lexer takes the blanks off the text that are written here before its tokens. -/
def LaidOut (ps : List Spaced) (s : String) : Prop :=
  Layout ps s.toList ∧ Token.list s.toList = .ok (ps.map Spaced.token)

def TestPhrase.weight : TestPhrase → Nat
  | star | bare .node false => 0
  | name _ | element (.name _) | element (.literal _) => 2
  | _ => 1

theorem TestPhrase.weight_eq (t : TestPhrase) : t.kind.weight = .ofNat t.weight := by
  cases t with
  | star => rfl
  | name n => rfl
  | bare k starred => cases k <;> cases starred <;> rfl
  | element a => cases a <;> rfl
  | instruction a => rfl

namespace Phrase

def weight {k : Part} : Phrase k → Nat
  | .tested _ t _ => t.weight
  | _ => 0

/-- The sums over the steps that are written, each of which stops at 65535. -/
def specificity (p : Phrase .path) : Specificity where
  predicates := .ofNat (p.steps.map fun s => s.predicates.length).sum
  attributePredicates := .ofNat (p.steps.map fun s => s.predicates.countP testsAttribute).sum
  nodeTests := .ofNat (p.steps.map weight).sum
  steps := .ofNat p.steps.length

theorem sum_predicateScore (ps : List (Phrase .predicate)) :
    (Score.sum (ps.map predicateScore)).specificity
      = ⟨.ofNat ps.length, .ofNat (ps.countP testsAttribute), 0, 0⟩ := by
  induction ps with
  | nil => rfl
  | cons p ps ih =>
    rw [List.map_cons, Score.sum_cons, Score.specificity_add, ih, List.length_cons,
      List.countP_cons, Count.ofNat_add, Count.ofNat_add]
    ext1
    · exact Count.add_comm _ _
    · refine Eq.trans ?_ (Count.add_comm _ _)
      show (if p.testsAttribute then (1 : Count) else 0) + _
        = .ofNat (if p.testsAttribute then 1 else 0) + _
      cases p.testsAttribute <;> rfl
    · rfl
    · rfl

theorem weight_eq (s : Phrase .step) : s.kind.weight = .ofNat s.weight := by
  cases s with
  | dot => rfl
  | doubleDot => rfl
  | tested axis t ps => exact t.weight_eq

theorem stepScore_specificity (s : Phrase .step) :
    s.stepScore.specificity = ⟨.ofNat s.predicates.length,
      .ofNat (s.predicates.countP testsAttribute), .ofNat s.weight, 1⟩ := by
  rw [stepScore, Score.specificity_add, sum_predicateScore, weight_eq]
  ext1
  · exact Count.zero_add _
  · exact Count.zero_add _
  · exact Count.add_zero _
  · rfl

theorem branchScore_specificity (p : Phrase .path) :
    p.branchScore.specificity = p.specificity := by
  rw [branchScore, specificity]
  induction p.steps with
  | nil => rfl
  | cons s ss ih =>
    rw [List.map_cons, Score.sum_cons, Score.specificity_add, ih, stepScore_specificity]
    simp only [List.map_cons, List.sum_cons, List.length_cons, Count.ofNat_add]
    ext1
    · rfl
    · rfl
    · rfl
    · exact Count.add_comm _ _

theorem paths_ne_nil (e : Phrase .query) : e.paths ≠ [] := by
  cases e <;> exact List.cons_ne_nil _ _

theorem isLeast_score (e : Phrase .query) :
    IsLeast {x | ∃ p ∈ e.paths, x = p.specificity} e.score.specificity := by
  have hscore : e.score.specificity = weakest (e.paths.map specificity) := by
    rw [score, List.map_map]
    exact congrArg weakest (List.map_congr_left fun p _ => p.branchScore_specificity)
  rw [hscore]
  constructor
  · obtain ⟨p, hp, h⟩ := List.mem_map.1 (weakest_mem (mt List.map_eq_nil_iff.1 e.paths_ne_nil))
    exact ⟨p, hp, h.symm⟩
  · rintro x ⟨p, hp, rfl⟩
    exact weakest_le (List.mem_map_of_mem hp)

end Phrase

end Query

open Text Query

/-- A pattern without blanks about the parentheses of its node tests has the specificity of the
weakest alternative of its derivation. -/
theorem Specificity.isLeast_of_compact {s : String} {q : Query} (h : Query.parse s = .ok q)
    (hs : ∃ ps, LaidOut ps s ∧ Compact ps) :
    ∃ e : Phrase .query, Token.list s.toList = .ok e.tokens ∧ q = e.tree ∧
      IsLeast {x | ∃ p ∈ e.paths, x = p.specificity} (Specificity.of s) := by
  obtain ⟨e, he, rfl⟩ := parse_eq_ok.1 h
  obtain ⟨ps, ⟨hl, hps⟩, hc⟩ := hs
  have hw : Written e.tokens s.toList :=
    ⟨ps, hl, Except.ok.inj (hps.symm.trans he), hc.sound⟩
  refine ⟨e, he, rfl, ?_⟩
  rw [Specificity.of, e.score_eq hw]
  exact e.isLeast_score

/-- Separators inside a literal, a predicate with blanks, and a double slash in the weaker
alternative. -/
theorem Specificity.isLeast_of_compact_union :
    let s := "list[ @k='|/['] |element(\"a\")//node()"
    let q : Query := [
      .mk false [.mk .child (.element (some "list")) [.attribute "k" (some ⟨true, "|/["⟩)]],
      .mk false [.mk .child (.element (some "a")) [], .descendants, .mk .child .any []]]
    Query.parse s = .ok q ∧ (∃ ps, LaidOut ps s ∧ Compact ps) ∧
      ∃ e : Phrase .query, Token.list s.toList = .ok e.tokens ∧ q = e.tree ∧
        IsLeast {x | ∃ p ∈ e.paths, x = p.specificity} (Specificity.of s) := by
  intro s q
  have hb : Blank [' '] := List.forall_mem_singleton.2 rfl
  have hlist : (Token.name "list").Raw "list".toList :=
    Token.raw_name (isName_keyword rfl (by decide) (by decide))
  have hk : (Token.name "k").Raw "k".toList := Token.raw_name (isName_keyword rfl (by decide) rfl)
  have hvalue : (Token.literal "|/[").Raw ['\'', '|', '/', '[', '\''] :=
    Token.raw_literal (v := "|/[") (.inr rfl) (by decide)
  have helement : (Token.name "element").Raw "element".toList :=
    Token.raw_name (isName_keyword rfl (by decide) (by decide))
  have ha : (Token.literal "a").Raw ['"', 'a', '"'] :=
    Token.raw_literal (v := "a") (.inl rfl) (by decide)
  have hnode : (Token.name "node").Raw "node".toList :=
    Token.raw_name (isName_keyword rfl (by decide) (by decide))
  have hs : Layout [⟨[], .name "list"⟩, ⟨[], .symbol .leftBracket⟩, ⟨[' '], .symbol .atSign⟩,
      ⟨[], .name "k"⟩, ⟨[], .symbol .equal⟩, ⟨[], .literal "|/["⟩, ⟨[], .symbol .rightBracket⟩,
      ⟨[' '], .symbol .pipe⟩, ⟨[], .name "element"⟩, ⟨[], .symbol .leftParen⟩, ⟨[], .literal "a"⟩,
      ⟨[], .symbol .rightParen⟩, ⟨[], .symbol .doubleSlash⟩, ⟨[], .name "node"⟩,
      ⟨[], .symbol .leftParen⟩, ⟨[], .symbol .rightParen⟩] s.toList := by
    dsimp only [s]
    exact .cons blank_nil hlist <| .cons blank_nil (.symbol .leftBracket) <|
      .cons hb (.symbol .atSign) <| .cons blank_nil hk <| .cons blank_nil (.symbol .equal) <|
      .cons blank_nil hvalue <| .cons blank_nil (.symbol .rightBracket) <|
      .cons hb (.symbol .pipe) <| .cons blank_nil helement <|
      .cons blank_nil (.symbol .leftParen) <| .cons blank_nil ha <|
      .cons blank_nil (.symbol .rightParen) <| .cons blank_nil (.symbol .doubleSlash) <|
      .cons blank_nil hnode <| .cons blank_nil (.symbol .leftParen) <|
      .cons blank_nil (.symbol .rightParen) <| .nil blank_nil
  have hp : Query.parse s = .ok q := by
    dsimp only [s, q]
    cbv
  have hc : ∃ ps, LaidOut ps s ∧ Compact ps := ⟨_, ⟨hs, by dsimp only [s]; cbv⟩, by decide +kernel⟩
  exact ⟨hp, hc, Specificity.isLeast_of_compact hp hc⟩

/-- Patterns with the same tokens have the same rank and features if no blanks stand where they
would change the class of a node test. -/
theorem Specificity.of_eq_of_tokens_eq {s t : String} {ps qs : List Spaced} {q : Query}
    (hs : LaidOut ps s) (ht : LaidOut qs t)
    (h : ps.map Spaced.token = qs.map Spaced.token)
    (hq : ofTokens (ps.map Spaced.token) = .ok q) (hps : Sound ps) (hqs : Sound qs) :
    Specificity.of s = .of t ∧ Features.of s = .of t := by
  obtain ⟨e, he, -⟩ := ofTokens_eq_ok.1 hq
  have hs : Pattern.Score.of s = e.score := e.score_eq ⟨ps, hs.1, he, hps⟩
  have ht : Pattern.Score.of t = e.score := e.score_eq ⟨qs, ht.1, h.symm.trans he, hqs⟩
  rw [Specificity.of, Specificity.of, Features.of, Features.of, hs, ht]
  exact ⟨rfl, rfl⟩

/-- Quotation marks of either kind, a leading zero and blanks about a predicate. -/
theorem Specificity.of_eq_of_tokens_eq_element :
    let s := "element('a')[ 01 ]"
    let t := "element(\"a\") [1]"
    let ps : List Spaced := [⟨[], .name "element"⟩, ⟨[], .symbol .leftParen⟩, ⟨[], .literal "a"⟩,
      ⟨[], .symbol .rightParen⟩, ⟨[], .symbol .leftBracket⟩, ⟨[' '], .number 1⟩,
      ⟨[' '], .symbol .rightBracket⟩]
    let qs : List Spaced := [⟨[], .name "element"⟩, ⟨[], .symbol .leftParen⟩, ⟨[], .literal "a"⟩,
      ⟨[], .symbol .rightParen⟩, ⟨[' '], .symbol .leftBracket⟩, ⟨[], .number 1⟩,
      ⟨[], .symbol .rightBracket⟩]
    LaidOut ps s ∧ LaidOut qs t ∧ Sound ps ∧ Sound qs ∧
      Specificity.of s = .of t ∧ Features.of s = .of t := by
  intro s t ps qs
  have hb : Blank [' '] := List.forall_mem_singleton.2 rfl
  have hname : (Token.name "element").Raw "element".toList :=
    Token.raw_name (isName_keyword rfl (by decide) (by decide))
  have hone : (Token.number 1).Raw ['1'] :=
    Token.Raw.number (f := ['1']) (by decide) (List.all_eq_true.1 rfl) (by decide)
  have hzero : (Token.number 1).Raw ['0', '1'] :=
    Token.Raw.number (f := ['0', '1']) (by decide) (List.all_eq_true.1 rfl) (by decide)
  have hsingle : (Token.literal "a").Raw ['\'', 'a', '\''] :=
    Token.raw_literal (v := "a") (.inr rfl) (by decide)
  have hdouble : (Token.literal "a").Raw ['"', 'a', '"'] :=
    Token.raw_literal (v := "a") (.inl rfl) (by decide)
  have hs : Layout ps s.toList := by
    dsimp only [ps, s]
    exact .cons blank_nil hname <| .cons blank_nil (.symbol .leftParen) <|
      .cons blank_nil hsingle <| .cons blank_nil (.symbol .rightParen) <|
      .cons blank_nil (.symbol .leftBracket) <| .cons hb hzero <|
      .cons hb (.symbol .rightBracket) <| .nil blank_nil
  have ht : Layout qs t.toList := by
    dsimp only [qs, t]
    exact .cons blank_nil hname <| .cons blank_nil (.symbol .leftParen) <|
      .cons blank_nil hdouble <| .cons blank_nil (.symbol .rightParen) <|
      .cons hb (.symbol .leftBracket) <| .cons blank_nil hone <|
      .cons blank_nil (.symbol .rightBracket) <| .nil blank_nil
  have hs' : LaidOut ps s := ⟨hs, by dsimp only [s, ps]; cbv⟩
  have ht' : LaidOut qs t := ⟨ht, by dsimp only [t, qs]; cbv⟩
  have hq : ofTokens (ps.map Spaced.token)
      = .ok [.mk false [.mk .child (.element (some "a")) [.position 1]]] := by
    dsimp only [ps]
    cbv
  have hps : Sound ps := Compact.sound (by decide +kernel)
  have hqs : Sound qs := Compact.sound (by decide +kernel)
  exact ⟨hs', ht', hps, hqs, Specificity.of_eq_of_tokens_eq hs' ht' rfl hq hps hqs⟩

/-- The blank in the parentheses makes a wildcard a test of the kind of nodes. -/
theorem Specificity.of_ne_of_tokens_eq :
    ¬∀ (s t : String) (ts : List Token) (q : Query), Token.list s.toList = .ok ts →
      Token.list t.toList = .ok ts → ofTokens ts = .ok q →
        Specificity.of s = .of t ∧ Features.of s = .of t := by
  intro h
  have hs : Token.list "node()".toList
      = .ok [.name "node", .symbol .leftParen, .symbol .rightParen] := by cbv
  have ht : Token.list "node( )".toList
      = .ok [.name "node", .symbol .leftParen, .symbol .rightParen] := by cbv
  have hq : ofTokens [.name "node", .symbol .leftParen, .symbol .rightParen]
      = .ok [.mk false [.mk .child .any []]] := by cbv
  have hne : Specificity.of "node()" ≠ .of "node( )" := by decide +kernel
  exact hne (h _ _ _ _ hs ht hq).1

end Stylesheet
