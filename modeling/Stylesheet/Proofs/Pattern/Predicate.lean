import Mathlib
import Stylesheet.Proofs.Pattern.Phrase
import Stylesheet.Proofs.Query.Derivation
import Stylesheet.Proofs.Winner

namespace Stylesheet

namespace Query

open Text Pattern

/-- The tokens of a phrase in two parts, cut after a node test or a predicate outside of all
predicates. -/
inductive Place : {k : Part} → Phrase k → List Token → List Token → Prop
  | first (ps : Phrase .predicates) : Place ps [] ps.tokens
  | next {ps : Phrase .predicates} {before after : List Token} (p : Phrase .predicate)
      (h : Place ps before after) : Place (.more p ps)
        (.symbol .leftBracket :: (p.tokens ++ .symbol .rightBracket :: before)) after
  | tested {ps : Phrase .predicates} {before after : List Token} (axis : Option Axis)
      (t : TestPhrase) (h : Place ps before after) :
      Place (.tested axis t ps) (axisTokens axis ++ (t.tokens ++ before)) after
  | last {s : Phrase .step} {before after : List Token} (h : Place s before after) :
      Place (.last s) before after
  | joinLeft {s : Phrase .step} {before after : List Token} (h : Place s before after)
      (l : Slash) (ss : Phrase .steps) :
      Place (.join s l ss) before (after ++ .symbol l.symbol :: ss.tokens)
  | joinRight {ss : Phrase .steps} {before after : List Token} (s : Phrase .step) (l : Slash)
      (h : Place ss before after) :
      Place (.join s l ss) (s.tokens ++ .symbol l.symbol :: before) after
  | absolute {ss : Phrase .steps} {before after : List Token} (l : Slash)
      (h : Place ss before after) : Place (.absolute l ss) (.symbol l.symbol :: before) after
  | relative {ss : Phrase .steps} {before after : List Token} (h : Place ss before after) :
      Place (.relative ss) before after
  | alone {p : Phrase .path} {before after : List Token} (h : Place p before after) :
      Place (.alone p) before after
  | unionLeft {p : Phrase .path} {before after : List Token} (h : Place p before after)
      (q : Phrase .query) : Place (.union p q) before (after ++ .symbol .pipe :: q.tokens)
  | unionRight {q : Phrase .query} {before after : List Token} (p : Phrase .path)
      (h : Place q before after) : Place (.union p q) (p.tokens ++ .symbol .pipe :: before) after

def bracketed (p : Phrase .predicate) : List Token :=
  .symbol .leftBracket :: (p.tokens ++ [.symbol .rightBracket])

namespace Place

variable {k : Part} {e : Phrase k} {before after : List Token}

theorem tokens_eq (h : Place e before after) : e.tokens = before ++ after := by
  induction h with
  | first ps => rfl
  | alone h ih => exact ih
  | relative h ih => exact ih
  | last h ih => exact ih
  | _ => simp_all [Phrase.tokens]

theorem exists_phrase (h : Place e before after) (p : Phrase .predicate) :
    ∃ e' : Phrase k, e'.tokens = before ++ (bracketed p ++ after) := by
  induction h with
  | first ps => exact ⟨.more p ps, by simp [Phrase.tokens, bracketed]⟩
  | next p h ih =>
    obtain ⟨ps, e⟩ := ih
    exact ⟨.more p ps, by simp [Phrase.tokens, e]⟩
  | tested axis t h ih =>
    obtain ⟨ps, e⟩ := ih
    exact ⟨.tested axis t ps, by simp [Phrase.tokens, e]⟩
  | last h ih =>
    obtain ⟨s, e⟩ := ih
    exact ⟨.last s, e⟩
  | joinLeft h l ss ih =>
    obtain ⟨s, e⟩ := ih
    exact ⟨.join s l ss, by simp [Phrase.tokens, e]⟩
  | joinRight s l h ih =>
    obtain ⟨ss, e⟩ := ih
    exact ⟨.join s l ss, by simp [Phrase.tokens, e]⟩
  | absolute l h ih =>
    obtain ⟨ss, e⟩ := ih
    exact ⟨.absolute l ss, by simp [Phrase.tokens, e]⟩
  | relative h ih =>
    obtain ⟨ss, e⟩ := ih
    exact ⟨.relative ss, e⟩
  | alone h ih =>
    obtain ⟨p, e⟩ := ih
    exact ⟨.alone p, e⟩
  | unionLeft h q ih =>
    obtain ⟨p, e⟩ := ih
    exact ⟨.union p q, by simp [Phrase.tokens, e]⟩
  | unionRight p h ih =>
    obtain ⟨q, e⟩ := ih
    exact ⟨.union p q, by simp [Phrase.tokens, e]⟩

section Texts

variable {p : Phrase .predicate} {u v w : List Char} (h : Place e before after)
  (hu : Spelt before u) (hv : Spelt after v) (hw : Spelt (bracketed p) w)

include h hu hv

theorem balanced {op cl : Char → Bool} (hn : Counting op cl) : Balanced op cl k.top (u ++ v) :=
  e.balanced hn (h.tokens_eq ▸ hu.append hv)

include hw

theorem balanced_insert {op cl : Char → Bool} (hn : Counting op cl) :
    Balanced op cl k.top (u ++ (w ++ v)) := by
  obtain ⟨e', he⟩ := h.exists_phrase p
  exact e'.balanced hn (he ▸ hu.append (hw.append hv))

end Texts

end Place

/-- The score of a text grows by `g` as the text grows. -/
def Part.Gains (g : Score) (s s' : List Char) : Part → Prop
  | .predicates => ∃ qs qs', Bracketed qs s ∧ Bracketed qs' s' ∧
      Score.sum (qs'.map .ofPredicate) = Score.sum (qs.map .ofPredicate) + g
  | .step | .steps | .path => Score.ofBranch s' = Score.ofBranch s + g
  | .query => ∃ ss a ts, branchScores s = ss ++ a :: ts ∧
      branchScores s' = ss ++ (a + g.specificity) :: ts
  | .predicate => True

/-- One more predicate adds its score to that of the alternative it is written in. -/
theorem Place.gains {k : Part} {e : Phrase k} {before after : List Token}
    (h : Place e before after) {p : Phrase .predicate} {q u v w : List Char}
    (hu : Spelt before u) (hv : Spelt after v) (hw : Spelt (bracketed p) w)
    (hq : Bracketed [q] w) : k.Gains (.ofPredicate q) (u ++ v) (u ++ (w ++ v)) := by
  induction h generalizing u v with
  | first ps =>
    obtain ⟨qs, hqs, -⟩ := ps.bracketed hv
    cases hu with
    | nil hu =>
      refine ⟨qs, q :: qs, hqs.blank_append hu, (hq.append hqs).blank_append hu, ?_⟩
      rw [List.map_cons, Score.sum_cons, Score.add_comm]
  | next p' h ih =>
    obtain ⟨b, x, rfl, hb, hx⟩ := hu.cut_cons
    obtain ⟨x, u, rfl, hx, hu⟩ := hx.cut_symbol
    obtain ⟨qs, qs', hqs, hqs', e⟩ := ih hu hv
    have hx := p'.balanced .brackets hx
    refine ⟨x :: qs, x :: qs', ?_, ?_, ?_⟩
    · simpa [Symbol.text] using Bracketed.cons hb hx hqs
    · simpa [Symbol.text] using Bracketed.cons hb hx hqs'
    · rw [List.map_cons, List.map_cons, Score.sum_cons, Score.sum_cons, e, Score.add_assoc]
  | tested axis t h ih =>
    have hl := (Place.tested axis t h).balanced hu hv .both
    have hl' := (Place.tested axis t h).balanced_insert hu hv hw .both
    rw [← List.append_assoc] at hu
    obtain ⟨x, u, rfl, hx, hu⟩ := hu.cut
    obtain ⟨qs, qs', hqs, hqs', e⟩ := ih hu hv
    rw [List.append_assoc] at hl hl' ⊢
    rw [List.append_assoc]
    show Score.ofBranch _ = Score.ofBranch _ + _
    rw [ofBranch_step hx.unbracketed_head hx.not_blank_head hqs' hl',
      ofBranch_step hx.unbracketed_head hx.not_blank_head hqs hl, e, Score.add_assoc]
  | last h ih => exact ih hu hv
  | joinLeft h l ss ih =>
    obtain ⟨v, y, rfl, hv, hy⟩ := hv.cut_symbol
    have hs := (h.balanced hu hv .both).depth_eq 0
    have hs' := (h.balanced_insert hu hv hw .both).depth_eq 0
    show Score.ofBranch _ = Score.ofBranch _ + _
    rw [← List.append_assoc u v, ofBranch_join hs, ← List.append_assoc w v, ← List.append_assoc u,
      ofBranch_join hs', ih hu hv, Score.add_right_comm]
  | joinRight s l h ih =>
    obtain ⟨x, u, rfl, hx, hu⟩ := hu.cut_symbol
    have hd := (s.balanced .both hx).depth_eq 0
    show Score.ofBranch _ = Score.ofBranch _ + _
    rw [List.append_assoc, List.append_assoc, ofBranch_join hd, List.append_assoc,
      List.append_assoc, ofBranch_join hd, ih hu hv, Score.add_assoc]
  | absolute l h ih =>
    obtain ⟨b, u, rfl, hb, hu⟩ := hu.cut_cons
    have hd := (Counting.both.blank hb (Part.top_of_notMem .path)).depth_eq 0
    show Score.ofBranch _ = Score.ofBranch _ + _
    rw [List.append_assoc, List.append_assoc, ofBranch_join hd, List.append_assoc,
      List.append_assoc, ofBranch_join hd, ih hu hv, Score.add_assoc]
  | relative h ih => exact ih hu hv
  | alone h ih =>
    refine ⟨[], (Score.ofBranch (u ++ v)).specificity, [], ?_, ?_⟩
    · exact branchScores_of_balanced (h.balanced hu hv .both)
    · rw [branchScores_of_balanced (h.balanced_insert hu hv hw .both), ih hu hv]
      rfl
  | unionLeft h q' ih =>
    obtain ⟨v, y, rfl, hv, hy⟩ := hv.cut_symbol
    have hs := h.balanced hu hv .both
    have hs' := h.balanced_insert hu hv hw .both
    refine ⟨[], (Score.ofBranch (u ++ v)).specificity, branchScores y, ?_, ?_⟩
    · have := branchScores_append_cons (hs.depth_eq 0) y
      rw [branchScores_of_balanced hs] at this
      simpa [Symbol.text] using this
    · have := branchScores_append_cons (hs'.depth_eq 0) y
      rw [branchScores_of_balanced hs', ih hu hv] at this
      simpa [Symbol.text] using this
  | unionRight p' h ih =>
    obtain ⟨x, u, rfl, hx, hu⟩ := hu.cut_symbol
    obtain ⟨ss, a, ts, e, e'⟩ := ih hu hv
    have hx := (p'.balanced .both hx).depth_eq 0
    refine ⟨branchScores x ++ ss, a, ts, ?_, ?_⟩
    · simpa [Symbol.text, e] using branchScores_append_cons hx (u ++ v)
    · simpa [Symbol.text, e'] using branchScores_append_cons hx (u ++ (w ++ v))

section Weakest

variable {before after : List Token} {p : Phrase .predicate} {q u v w : List Char}
  (hu : Spelt before u) (hv : Spelt after v) (hw : Spelt (bracketed p) w) (hq : Bracketed [q] w)

include hu hv hw hq

theorem Place.weakest_le {e : Phrase .query} (h : Place e before after) :
    weakest (branchScores (u ++ v)) ≤ weakest (branchScores (u ++ (w ++ v))) := by
  obtain ⟨ss, s, ts, e, e'⟩ := h.gains hu hv hw hq
  rw [e, e']
  exact weakest_mono (Specificity.le_add_right _ _) ss ts

theorem Place.weakest_lt {e : Phrase .path} (h : Place e before after)
    (hcount : (weakest (branchScores (u ++ v))).predicates.val < 65535) :
    weakest (branchScores (u ++ v)) < weakest (branchScores (u ++ (w ++ v))) := by
  have gains : Score.ofBranch (u ++ (w ++ v)) = Score.ofBranch (u ++ v) + .ofPredicate q :=
    h.gains hu hv hw hq
  rw [branchScores_of_balanced (h.balanced hu hv .both)] at hcount ⊢
  rw [branchScores_of_balanced (h.balanced_insert hu hv hw .both), gains]
  exact Specificity.lt_add_right hcount Nat.one_pos

end Weakest

theorem exists_bracketed {p : Phrase .predicate} {w : List Char} (h : Spelt (bracketed p) w) :
    ∃ q, Bracketed [q] w := by
  obtain ⟨b, x, rfl, hb, hx⟩ := h.cut_cons
  obtain ⟨q, r, rfl, hq, hr⟩ := hx.cut_symbol
  cases hr with
  | nil hr => exact ⟨q, .cons hb (p.balanced .brackets hq) (.nil hr)⟩

end Query

open Query Pattern

/-- The second pattern is the first with a predicate written after a node test or after another
predicate of a step. -/
inductive AddsPredicate : String → String → Prop
  | intro {a w b : List Char} {before after : List Token} {e : Phrase .query}
      {p : Phrase .predicate} (place : Place e before after) (ha : Token.list a = .ok before)
      (hb : Token.list b = .ok after) (hab : Token.list (a ++ b) = .ok (before ++ after))
      (hw : Token.list w = .ok (bracketed p)) :
      AddsPredicate (String.ofList (a ++ b)) (String.ofList (a ++ (w ++ b)))

theorem Rule.specificity_of_mem {β : Type} {history : List (Registration β)} {m : Mode} {r : Rule β}
    (h : r ∈ rulesIn history m) : r.specificity = .of r.head.pattern := by
  obtain ⟨n, x, -, -, rfl⟩ := mem_rulesIn.1 h
  rfl

theorem pattern_ne_of_winner {β ν : Type} {history : List (Registration β)} {ev : Evaluator ν}
    {node : ν} {m : Mode} {P P' : String} (hlt : Specificity.of P < Specificity.of P')
    {x : Registration β} (hx : x ∈ history) (hm : x.mode = m) (hp : x.pattern = P')
    (hmatch : ev.accepts P' node = .ok true) {r : Rule β} {fell : Bool}
    (hr : (ev.winner (.ofList history) node m).result = .ok (some (r, fell))) :
    r.head.pattern ≠ P := by
  obtain ⟨n, hn, e⟩ := List.getElem_of_mem hx
  have hs : x.rule n ∈ rulesIn history m :=
    mem_rulesIn.2 ⟨n, x, List.getElem?_eq_some_iff.2 ⟨hn, e⟩, hm, rfl⟩
  have answered : ev.answer node (x.rule n) = .ok true := by
    rw [← hmatch, ← hp]
    rfl
  have h := Registry.records_ofList history
  have hs' := (h.perm m).mem_iff.2 hs
  have best := (Evaluator.searched_winner (h.decreasing m) (h.decreasing .default)).isBest hs'
    answered hr
  have hmem := (h.perm m).mem_iff.1 best.mem
  intro hP
  have hrP : r.specificity = .of P := hP ▸ Rule.specificity_of_mem hmem
  have hsP : (x.rule n).specificity = .of P' := hp ▸ Rule.specificity_of_mem hs
  rcases best.greatest _ hs' answered with h | h | ⟨h, -⟩
  · rw [← h, hsP] at hrP
    exact Specificity.lt_irrefl _ (hrP ▸ hlt)
  · rw [hrP, hsP] at h
    exact Specificity.lt_irrefl _ (Specificity.lt_trans h hlt)
  · rw [hrP, hsP] at h
    exact Specificity.lt_irrefl _ (h ▸ hlt)

/-- One more predicate never lowers the specificity. Without a union it raises it, as long as the
predicates can be counted, and then a rule for the shorter pattern is never found for a node that
the longer one matches. -/
theorem outranks_of_addsPredicate {P P' : String} (h : AddsPredicate P P') :
    Specificity.of P ≤ Specificity.of P' ∧
      ∀ path, Query.parse P = .ok [path] → (Specificity.of P).predicates.val < 65535 →
        Specificity.of P < Specificity.of P' ∧
          ∀ {β ν : Type} (history : List (Registration β)) (m : Mode) (ev : Evaluator ν) (node : ν),
            (∃ x ∈ history, x.mode = m ∧ x.pattern = P') → ev.accepts P' node = .ok true →
            ∀ r fell, (ev.winner (.ofList history) node m).result = .ok (some (r, fell)) →
              r.head.pattern ≠ P := by
  cases h with
  | @intro a w b before after e p place ha hb hab hw =>
    obtain ⟨u, hu, hau⟩ := Token.list_spelt ha
    obtain ⟨v, hv, hbv⟩ := Token.list_spelt hb
    obtain ⟨x, hx, hwx⟩ := Token.list_spelt hw
    obtain ⟨q, hq⟩ := exists_bracketed hx
    have hP : Specificity.of (.ofList (a ++ b)) = weakest (branchScores (u ++ v)) := by
      rw [Specificity.of_eq, String.toList_ofList, hau, ← List.append_nil b, hbv,
        stripLiterals_nil, List.append_nil]
    have hP' : Specificity.of (.ofList (a ++ (w ++ b)))
        = weakest (branchScores (u ++ (x ++ v))) := by
      rw [Specificity.of_eq, String.toList_ofList, hau, hwx, ← List.append_nil b, hbv,
        stripLiterals_nil, List.append_nil]
    refine ⟨hP ▸ hP' ▸ place.weakest_le hu hv hx hq, fun path hpath hcount => ?_⟩
    have htree : e.tree = [path] := by
      have h : Query.parse (.ofList (a ++ b)) = .ok e.tree :=
        parse_eq_ok.2 ⟨e, by rw [String.toList_ofList, hab, place.tokens_eq], rfl⟩
      exact Except.ok.inj (h.symm.trans hpath)
    obtain ⟨p', rfl⟩ := Phrase.exists_alone htree
    have hlt : Specificity.of (.ofList (a ++ b)) < Specificity.of (.ofList (a ++ (w ++ b))) := by
      rw [hP] at hcount ⊢
      rw [hP']
      cases place with
      | alone place => exact place.weakest_lt hu hv hx hq hcount
    refine ⟨hlt, fun history m ev node hx hm r fell hr => ?_⟩
    obtain ⟨x, hx, hmode, hpattern⟩ := hx
    exact pattern_ne_of_winner hlt hx hmode hpattern hm hr

/-- A predicate with blanks inside, before a slash, and both patterns in the default mode. -/
theorem outranks_of_addsPredicate_para :
    let P := "list[@id]/self::para"
    let P' := "list[@id] [ not(x|y) ]/self::para"
    let history : List (Registration Nat) := [⟨.default, P', 0⟩, ⟨.default, P, 1⟩]
    let ev : Evaluator Nat := .ofTables [(P', .all), (P, .all)] []
    AddsPredicate P P' ∧ Specificity.of P < Specificity.of P' ∧
      ∀ r fell, (ev.winner (.ofList history) 7 .default).result = .ok (some (r, fell)) →
        r.head.pattern ≠ P := by
  intro P P' history ev
  have adds : AddsPredicate P P' := by
    have place : Place (.alone (.relative (.join
        (.tested none (.name "list") (.more (.attributed "id" none) .none)) .single
        (.last (.tested (some .self) (.name "para") .none))))) _ _ :=
      .alone (.relative (.joinLeft (.tested _ _ (.next _ (.first _))) _ _))
    refine .intro (a := "list[@id]".toList) (w := " [ not(x|y) ]".toList)
      (b := "/self::para".toList) (p := .not (.selects (.union
        (.relative (.last (.tested none (.name "x") .none)))
        (.alone (.relative (.last (.tested none (.name "y") .none))))))) place ?_ ?_ ?_ ?_
    all_goals cbv
  have parsed : Query.parse P = .ok [.mk false [.mk .child (.element (some "list"))
      [.attribute "id" none], .mk .self (.element (some "para")) []]] := by cbv
  obtain ⟨-, h⟩ := outranks_of_addsPredicate adds
  obtain ⟨hlt, h⟩ := h _ parsed (by decide +kernel)
  have matched : ev.accepts P' 7 = .ok true := by simp [ev, Evaluator.ofTables]
  exact ⟨adds, hlt, h history .default ev 7 ⟨_, List.mem_cons_self, rfl, rfl⟩ matched⟩

end Stylesheet
