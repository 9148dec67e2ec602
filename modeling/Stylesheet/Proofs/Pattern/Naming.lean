import Mathlib
import Stylesheet.Proofs.Pattern.Feature
import Stylesheet.Proofs.Query.Context
import Stylesheet.Proofs.Query.Seam

namespace Stylesheet

namespace Specificity

variable {a b : Specificity} (hp : a.predicates = b.predicates)
  (ha : a.attributePredicates = b.attributePredicates)

include hp ha

theorem le_of_nodeTests (hs : a.steps = b.steps) (h : a.nodeTests.val ≤ b.nodeTests.val) :
    a ≤ b := by
  rw [le_iff, hp, ha, hs]
  omega

theorem lt_of_nodeTests (h : a.nodeTests.val < b.nodeTests.val) : a < b := by
  rw [lt_iff, hp, ha]
  omega

end Specificity

namespace Query

open Text Pattern

def TestPhrase.isGeneral : TestPhrase → Bool
  | star | bare .node _ => true
  | _ => false

/-- A pattern without one of the steps that are outside of all predicates. -/
inductive Frame : Part → Type
  | last : Frame .steps
  | first (l : Slash) (ss : Phrase .steps) : Frame .steps
  | after (s : Phrase .step) (l : Slash) (c : Frame .steps) : Frame .steps
  | absolute (l : Slash) (c : Frame .steps) : Frame .path
  | relative (c : Frame .steps) : Frame .path
  | alone (c : Frame .path) : Frame .query
  | unionLeft (c : Frame .path) (q : Phrase .query) : Frame .query
  | unionRight (p : Phrase .path) (c : Frame .query) : Frame .query

def Phrase.outer : {k : Part} → Phrase k → List (Phrase .step)
  | .query, e => e.written
  | .path, e | .steps, e => e.steps
  | _, _ => []

namespace Frame

def fill {k : Part} (s : Phrase .step) : Frame k → Phrase k
  | last => .last s
  | first l ss => .join s l ss
  | after s' l c => .join s' l (c.fill s)
  | absolute l c => .absolute l (c.fill s)
  | relative c => .relative (c.fill s)
  | alone c => .alone (c.fill s)
  | unionLeft c q => .union (c.fill s) q
  | unionRight p c => .union p (c.fill s)

def front {k : Part} : Frame k → List Token
  | last | first _ _ => []
  | after s l c => s.tokens ++ .symbol l.symbol :: c.front
  | absolute l c => .symbol l.symbol :: c.front
  | unionRight p c => p.tokens ++ .symbol .pipe :: c.front
  | relative c | alone c | unionLeft c _ => c.front

def back {k : Part} : Frame k → List Token
  | last => []
  | first l ss => .symbol l.symbol :: ss.tokens
  | unionLeft c q => c.back ++ .symbol .pipe :: q.tokens
  | after _ _ c | absolute _ c | relative c | alone c | unionRight _ c => c.back

def earlier {k : Part} : Frame k → List (Phrase .step)
  | last | first _ _ => []
  | after s _ c => s :: c.earlier
  | unionRight p c => p.steps ++ c.earlier
  | absolute _ c | relative c | alone c | unionLeft c _ => c.earlier

def later {k : Part} : Frame k → List (Phrase .step)
  | last => []
  | first _ ss => ss.steps
  | unionLeft c q => c.later ++ q.written
  | after _ _ c | absolute _ c | relative c | alone c | unionRight _ c => c.later

variable {k : Part}

theorem tokens_fill (c : Frame k) (s : Phrase .step) :
    (c.fill s).tokens = c.front ++ (s.tokens ++ c.back) := by
  induction c with
  | last => simp [fill, front, back, Phrase.tokens]
  | first l ss => simp [fill, front, back, Phrase.tokens]
  | _ => simp_all [fill, front, back, Phrase.tokens]

theorem tokens_tested (c : Frame k) (axis : Option Axis) (t : TestPhrase)
    (ps : Phrase .predicates) : (c.fill (.tested axis t ps)).tokens
      = (c.front ++ axisTokens axis) ++ (t.tokens ++ (ps.tokens ++ c.back)) := by
  simp [tokens_fill, Phrase.tokens]

theorem exists_alone {c : Frame .query} {s : Phrase .step} {path : Path}
    (h : (c.fill s).tree = [path]) : ∃ d, c = .alone d := by
  obtain ⟨p, hp⟩ := Phrase.exists_alone h
  cases c with
  | alone d => exact ⟨d, rfl⟩
  | unionLeft d q => cases hp
  | unionRight p' d => cases hp

end Frame

namespace Phrase

theorem steps_step (s : Phrase .step) : s.steps = [s] := by
  cases s <;> rfl

theorem written_union (p : Phrase .path) (q : Phrase .query) :
    (union p q).written = p.steps ++ q.written := rfl

theorem written_alone (p : Phrase .path) : (alone p).written = p.steps := by
  simp [written, paths]

theorem exists_frame {k : Part} (e : Phrase k) {us vs : List (Phrase .step)} {s : Phrase .step}
    (h : e.outer = us ++ s :: vs) :
    ∃ c : Frame k, e = c.fill s ∧ c.earlier = us ∧ c.later = vs := by
  induction e generalizing us vs with
  | last s' =>
    obtain ⟨rfl, e⟩ | ⟨us, rfl, e⟩ := List.cons_eq_append_iff.1 ((steps_step s').symm.trans h)
    · cases e
      exact ⟨.last, rfl, rfl, rfl⟩
    · simp at e
  | join s' l ss ihs ihss =>
    have h : s' :: ss.steps = us ++ s :: vs := by
      rw [← h, outer, steps, steps_step]
      rfl
    obtain ⟨rfl, e⟩ | ⟨us, rfl, e⟩ := List.cons_eq_append_iff.1 h
    · cases e
      exact ⟨.first l ss, rfl, rfl, rfl⟩
    · obtain ⟨c, rfl, rfl, rfl⟩ := ihss e
      exact ⟨.after s' l c, rfl, rfl, rfl⟩
  | absolute l ss ih =>
    obtain ⟨c, rfl, rfl, rfl⟩ := ih h
    exact ⟨.absolute l c, rfl, rfl, rfl⟩
  | relative ss ih =>
    obtain ⟨c, rfl, rfl, rfl⟩ := ih h
    exact ⟨.relative c, rfl, rfl, rfl⟩
  | alone p ih =>
    obtain ⟨c, rfl, rfl, rfl⟩ := ih (p.written_alone.symm.trans h)
    exact ⟨.alone c, rfl, rfl, rfl⟩
  | union p q ihp ihq =>
    -- The step stands in the first alternative if that has more steps than come before it.
    obtain ⟨as, rfl, e⟩ | ⟨as, e, e'⟩ :=
      List.append_eq_append_iff.1 ((written_union p q).symm.trans h)
    · obtain ⟨c, rfl, rfl, rfl⟩ := ihq e
      exact ⟨.unionRight p c, rfl, rfl, rfl⟩
    · cases as with
      | nil =>
        have first : q.outer = [] ++ s :: vs := e'.symm
        obtain ⟨c, rfl, hc, rfl⟩ := ihq first
        refine ⟨.unionRight p c, rfl, ?_, rfl⟩
        rw [Frame.earlier, hc, e, List.append_nil, List.append_nil]
      | cons s' as =>
        cases e'
        obtain ⟨c, rfl, rfl, rfl⟩ := ihp e
        exact ⟨.unionLeft c q, rfl, rfl, rfl⟩
  | _ => cases us <;> cases h

end Phrase

/-! ### Scores -/

/-- The text of a step with its score, which is that of its node test and of its predicates. -/
inductive StepText : Phrase .step → List Char → Score → Prop
  | tested {axis : Option Axis} {t : TestPhrase} {ps : Phrase .predicates} {f r : List Char}
      (hf : Spelt (axisTokens axis ++ t.tokens) f) (hr : Spelt ps.tokens r) :
      StepText (.tested axis t ps) (f ++ r)
        (.ofTest f + .sum (ps.predicates.map Phrase.predicateScore))

namespace StepText

variable {s : Phrase .step} {x : List Char} {a : Score}

theorem spelt (h : StepText s x a) : Spelt s.tokens x := by
  cases h with
  | tested hf hr =>
    rw [Phrase.tokens, ← List.append_assoc]
    exact hf.append hr

theorem ofBranch (h : StepText s x a) : Score.ofBranch x = a := by
  cases h with
  | tested hf hr => exact ofBranch_tested hf hr

theorem blanks {b b' : List Char} (hb : Blank b) (hb' : Blank b') (h : StepText s x a) :
    StepText s (b ++ (x ++ b')) a := by
  cases h with
  | @tested axis t ps f r hf hr =>
    have same : Score.ofTest (b ++ f) = Score.ofTest f := by
      rw [Score.ofTest, Score.ofTest, TestClass.of, TestClass.of, bareTest_blank_append hb]
    have hr' : Spelt ps.tokens (r ++ b') := by
      simpa using hr.append (.nil hb')
    rw [List.append_assoc, ← List.append_assoc b, ← same]
    exact .tested (hf.blank hb) hr'

end StepText

/-- What stands before and after a step adds the same to the score of every step. -/
def Part.Embeds (u v : List Char) : Part → Prop
  | .steps | .path => ∃ g, ∀ ⦃s x a⦄, StepText s x a → Score.ofBranch (u ++ (x ++ v)) = a + g
  | .query => ∃ ss g ts, ∀ ⦃s x a⦄, StepText s x a →
      branchScores (u ++ (x ++ v)) = ss ++ (a + g).specificity :: ts
  | _ => True

namespace Frame

variable {k : Part} {s : Phrase .step} {u v x : List Char} {a : Score}

theorem balanced (c : Frame k) (hu : Spelt c.front u) (hv : Spelt c.back v)
    (h : StepText s x a) : Balanced isOpener isCloser k.top (u ++ (x ++ v)) := by
  refine (c.fill s).balanced .both ?_
  rw [c.tokens_fill]
  exact hu.append (h.spelt.append hv)

theorem embeds (c : Frame k) (hu : Spelt c.front u) (hv : Spelt c.back v) : k.Embeds u v := by
  induction c generalizing u v with
  | last =>
    cases hu with
    | nil hu =>
      cases hv with
      | nil hv =>
        refine ⟨.zero, fun s x a h => ?_⟩
        rw [Score.add_zero]
        exact (h.blanks hu hv).ofBranch
  | first l ss =>
    obtain ⟨b, y, rfl, hb, hy⟩ := hv.cut_cons
    cases hu with
    | nil hu =>
      refine ⟨Score.ofBranch y, fun s x a h => ?_⟩
      have step := h.blanks hu hb
      have depth := (s.balanced .both step.spelt).depth_eq 0
      have parts : u ++ (x ++ (b ++ (l.symbol.text ++ y)))
          = u ++ (x ++ b) ++ (l.symbol.text ++ y) := by simp
      rw [parts, ofBranch_join depth, step.ofBranch]
  | after s l c ih =>
    obtain ⟨y, u, rfl, hy, hu⟩ := hu.cut_symbol
    obtain ⟨g, hg⟩ := ih hu hv
    have depth := (s.balanced .both hy).depth_eq 0
    refine ⟨Score.ofBranch y + g, fun s x a h => ?_⟩
    rw [List.append_assoc, List.append_assoc, ofBranch_join depth, hg h, ← Score.add_assoc,
      Score.add_comm (Score.ofBranch y), Score.add_assoc]
  | absolute l c ih =>
    obtain ⟨b, u, rfl, hb, hu⟩ := hu.cut_cons
    obtain ⟨g, hg⟩ := ih hu hv
    have depth := (Counting.both.blank hb (Part.top_of_notMem .path)).depth_eq 0
    refine ⟨g, fun s x a h => ?_⟩
    rw [List.append_assoc, List.append_assoc, ofBranch_join depth, ofBranch_blank hb,
      Score.zero_add, hg h]
  | relative c ih => exact ih hu hv
  | alone c ih =>
    obtain ⟨g, hg⟩ := ih hu hv
    refine ⟨[], g, [], fun s x a h => ?_⟩
    rw [branchScores_of_balanced (c.balanced hu hv h), hg h]
    rfl
  | unionLeft c q ih =>
    obtain ⟨v, y, rfl, hv, hy⟩ := hv.cut_symbol
    obtain ⟨g, hg⟩ := ih hu hv
    refine ⟨[], g, branchScores y, fun s x a h => ?_⟩
    have balanced := c.balanced hu hv h
    have scores := branchScores_append_cons (balanced.depth_eq 0) y
    rw [branchScores_of_balanced balanced, hg h] at scores
    simpa [Symbol.text] using scores
  | unionRight p c ih =>
    obtain ⟨y, u, rfl, hy, hu⟩ := hu.cut_symbol
    obtain ⟨ss, g, ts, hg⟩ := ih hu hv
    have depth := (p.balanced .both hy).depth_eq 0
    refine ⟨branchScores y ++ ss, g, ts, fun s x a h => ?_⟩
    simpa [Symbol.text, hg h] using branchScores_append_cons depth (u ++ (x ++ v))

end Frame

/-! ### Node tests -/

/-- With blanks anywhere, the text of `node()` falls into a class below that of the names. -/
theorem CallText.exists_general {a : Argument} (c : CallText "node" a) :
    ∃ t : TestPhrase, t.kind ≠ .name ∧ t.Text c.text := by
  by_cases wild : isWild c.text = true
  · refine ⟨.star, by decide, c.test ?_⟩
    rw [TestClass.ofBare, if_pos wild]
    rfl
  · refine ⟨.bare .text false, by decide, c.test (c.ofBare_call (eq_false_of_ne_true wild) ?_)⟩
    exact argument?_cons (c := 'n') (by decide) (by decide) _

theorem Layout.strip_general {ps : List Spaced} {s : List Char} {t : TestPhrase}
    (h : Layout ps s) (e : ps.map Spaced.token = t.tokens) (ht : t.isGeneral = true) :
    ∃ (t' : TestPhrase) (b f b' : List Char), t'.kind ≠ .name ∧ Blank b ∧ Blank b' ∧ t'.Text f ∧
      stripLiterals s = b ++ (f ++ b') := by
  cases t with
  | star =>
    have snug : Snug ps := by
      obtain ⟨b, qs, rfl, hqs⟩ := exists_spaced e
      trivial
    obtain ⟨b, f, b', hb, hb', hf, hs⟩ := h.strip_test e snug
    exact ⟨.star, b, f, b', by decide, hb, hb', hf, hs⟩
  | bare k starred =>
    cases k with
    | node =>
      obtain ⟨b, c, b', hb, hb', -, hs⟩ := h.strip_call e
      obtain ⟨t', ht', hf⟩ := c.exists_general
      exact ⟨t', b, c.text, b', ht', hb, hb', hf, hs⟩
    | _ => cases ht
  | _ => cases ht

section Weight

variable {axis : Option Axis} {s : List Char}

theorem Laid.weight_le {t : TestPhrase} (h : Laid (axisTokens axis ++ t.tokens) s)
    (ht : t.isGeneral = true) : (TestClass.of (stripLiterals s)).weight.val ≤ 1 := by
  obtain ⟨ls, hl, e⟩ := h
  obtain ⟨ps, qs, rfl, hps, hqs⟩ := List.map_eq_append_iff.1 e
  obtain ⟨u, hu, same⟩ := hl.exists_test hps
  obtain ⟨t', b, f, b', hn, hb, hb', hf, hs⟩ := hu.strip_general hqs ht
  rw [same hb hb' hf hs]
  cases hk : t'.kind with
  | wildcard => exact Nat.zero_le _
  | kind => exact Nat.le_refl _
  | name => exact absurd hk hn

theorem Laid.weight_name {n : String} (h : Laid (axisTokens axis ++ [.name n]) s) :
    (TestClass.of (stripLiterals s)).weight.val = 2 := by
  obtain ⟨ls, hl, e⟩ := h
  obtain ⟨ps, qs, rfl, hps, hqs⟩ := List.map_eq_append_iff.1 e
  have snug : Snug qs := by
    obtain ⟨b, rs, rfl, hrs⟩ := exists_spaced hqs
    cases List.map_eq_nil_iff.1 hrs
    trivial
  rw [hl.testClass (t := .name n) hps hqs snug]
  rfl

end Weight

section Heavier

variable {f f' : List Char} (g : Score)

theorem ofTest_add_le (h : (TestClass.of f).weight.val ≤ (TestClass.of f').weight.val) :
    (Score.ofTest f + g).specificity ≤ (Score.ofTest f' + g).specificity := by
  have heavier : min ((TestClass.of f).weight.val + g.specificity.nodeTests.val) 65535
      ≤ min ((TestClass.of f').weight.val + g.specificity.nodeTests.val) 65535 := by omega
  exact Specificity.le_of_nodeTests rfl rfl rfl heavier

theorem ofTest_add_lt (h : (TestClass.of f).weight.val < (TestClass.of f').weight.val)
    (hcount : (Score.ofTest f + g).specificity.nodeTests.val < 65535) :
    (Score.ofTest f + g).specificity < (Score.ofTest f' + g).specificity := by
  have heavier : min ((TestClass.of f).weight.val + g.specificity.nodeTests.val) 65535
      < min ((TestClass.of f').weight.val + g.specificity.nodeTests.val) 65535 := by
    have hcount : min ((TestClass.of f).weight.val + g.specificity.nodeTests.val) 65535 < 65535 :=
      hcount
    omega
  exact Specificity.lt_of_nodeTests rfl rfl heavier

end Heavier

/-! ### Texts -/

/-- The text of a pattern in three parts, of which the second one is a node test in the frame. -/
structure Frame.Cut (c : Frame .query) (axis : Option Axis) (t : TestPhrase)
    (ps : Phrase .predicates) (a w b : List Char) : Prop where
  front : Token.list a = .ok (c.front ++ axisTokens axis)
  test : Token.list w = .ok t.tokens
  back : Token.list b = .ok (ps.tokens ++ c.back)

namespace Frame

variable {k : Part} {axis : Option Axis} {ps : Phrase .predicates} {a b : List Char}

theorem exists_texts (c : Frame k) (ha : Token.list a = .ok (c.front ++ axisTokens axis))
    (hb : Token.list b = .ok (ps.tokens ++ c.back)) :
    ∃ u y v, Spelt c.front u ∧ Spelt c.back v ∧ Laid (axisTokens axis) y ∧
      ∀ {t : TestPhrase} {w : List Char}, Laid t.tokens w → ∃ x,
        stripLiterals (a ++ (w ++ b)) = u ++ (x ++ v) ∧ StepText (.tested axis t ps) x
          (.ofTest (stripLiterals (y ++ w)) + .sum (ps.predicates.map Phrase.predicateScore)) := by
  obtain ⟨a, y, rfl, ha, hy⟩ := (Token.list_iff.1 ha).cut
  obtain ⟨r, b, rfl, hr, hb⟩ := (Token.list_iff.1 hb).cut
  obtain ⟨as, hla, eas⟩ := Token.list_layout (Token.list_iff.2 ha)
  obtain ⟨bs, hlb, ebs⟩ := Token.list_layout (Token.list_iff.2 hb)
  obtain ⟨rs, hlr, ers⟩ := Token.list_layout (Token.list_iff.2 hr)
  have hy : Laid (axisTokens axis) y := Token.list_layout (Token.list_iff.2 hy)
  refine ⟨_, y, _, eas ▸ hla.spelt, ebs ▸ hlb.spelt, hy, fun {t w} hw => ?_⟩
  obtain ⟨ls, hl, els⟩ := hy.append hw
  refine ⟨stripLiterals (y ++ w) ++ stripLiterals r, ?_, .tested (els ▸ hl.spelt) (ers ▸ hlr.spelt)⟩
  have parts : a ++ y ++ (w ++ (r ++ b)) = a ++ (y ++ w ++ (r ++ b)) := by simp
  rw [parts, hla.stripLiterals_append, hl.stripLiterals_append, hlr.stripLiterals_append,
    List.append_assoc]

namespace Cut

variable {c : Frame .query} {t : TestPhrase} {w : List Char}

theorem exists_of_list {P : String}
    (h : Token.list P.toList = .ok (c.fill (.tested axis t ps)).tokens) :
    ∃ a w b, P = .ofList (a ++ (w ++ b)) ∧ c.Cut axis t ps a w b := by
  rw [c.tokens_tested, Token.list_iff] at h
  obtain ⟨a, s, e, ha, hs⟩ := h.cut
  obtain ⟨w, b, rfl, hw, hb⟩ := hs.cut
  refine ⟨a, w, b, ?_, Token.list_iff.2 ha, Token.list_iff.2 hw, Token.list_iff.2 hb⟩
  rw [← e, String.ofList_toList]

theorem parse_eq (h : c.Cut axis t ps a w b) :
    Query.parse (.ofList (a ++ (w ++ b))) = .ok (c.fill (.tested axis t ps)).tree := by
  have laid : Laid (c.fill (.tested axis t ps)).tokens (a ++ (w ++ b)) := by
    rw [c.tokens_tested]
    exact Laid.append (Token.list_layout h.front)
      (Laid.append (Token.list_layout h.test) (Token.list_layout h.back))
  refine Phrase.parse_of_spells ?_
  rw [Phrase.Spells, String.toList_ofList]
  exact laid

theorem named {n : String} {m : List Char} (h : c.Cut axis t ps a w b)
    (hm : Token.list m = .ok [.name n]) : c.Cut axis (.name n) ps a m b where
  front := h.front
  test := hm
  back := h.back

section Naming

variable {n : String} {m : List Char} (general : t.isGeneral = true) (h : c.Cut axis t ps a w b)
  (h' : c.Cut axis (.name n) ps a m b)

include general h h'

theorem exists_heavier : ∃ u x x' v s s' f f' g, Spelt c.front u ∧ Spelt c.back v ∧
    stripLiterals (a ++ (w ++ b)) = u ++ (x ++ v) ∧
    stripLiterals (a ++ (m ++ b)) = u ++ (x' ++ v) ∧ StepText s x (.ofTest f + g) ∧
    StepText s' x' (.ofTest f' + g) ∧
    (TestClass.of f).weight.val < (TestClass.of f').weight.val := by
  obtain ⟨u, y, v, hu, hv, hy, texts⟩ := c.exists_texts h.front h.back
  obtain ⟨x, e, step⟩ := texts (Token.list_layout h.test)
  obtain ⟨x', e', step'⟩ := texts (Token.list_layout h'.test)
  have light := Laid.weight_le (hy.append (Token.list_layout h.test)) general
  have heavy := Laid.weight_name (hy.append (Token.list_layout h'.test))
  exact ⟨u, x, x', v, _, _, _, _, _, hu, hv, e, e', step, step', by omega⟩

theorem specificity_le :
    Specificity.of (.ofList (a ++ (w ++ b))) ≤ .of (.ofList (a ++ (m ++ b))) := by
  obtain ⟨u, x, x', v, s, s', f, f', g, hu, hv, e, e', step, step', heavier⟩ :=
    exists_heavier general h h'
  obtain ⟨ss, g', ts, scores⟩ := c.embeds hu hv
  rw [Specificity.of_eq, Specificity.of_eq, String.toList_ofList, String.toList_ofList, e, e',
    scores step, scores step', Score.add_assoc, Score.add_assoc]
  exact weakest_mono (ofTest_add_le _ (Nat.le_of_lt heavier)) ss ts

theorem specificity_lt {d : Frame .path} (hd : c = .alone d)
    (hcount : (Specificity.of (.ofList (a ++ (w ++ b)))).nodeTests.val < 65535) :
    Specificity.of (.ofList (a ++ (w ++ b))) < .of (.ofList (a ++ (m ++ b))) := by
  subst hd
  obtain ⟨u, x, x', v, s, s', f, f', g, hu, hv, e, e', step, step', heavier⟩ :=
    exists_heavier general h h'
  obtain ⟨g', scores⟩ := d.embeds hu hv
  have score {z x : List Char} {s : Phrase .step} {f : List Char}
      (e : stripLiterals z = u ++ (x ++ v)) (step : StepText s x (.ofTest f + g)) :
      Specificity.of (.ofList z) = (Score.ofTest f + (g + g')).specificity := by
    have balanced := d.balanced hu hv step
    rw [Specificity.of_eq, String.toList_ofList, e, branchScores_of_balanced balanced, scores step,
      Score.add_assoc]
    rfl
  rw [score e step] at hcount ⊢
  rw [score e' step']
  exact ofTest_add_lt _ heavier hcount

end Naming

end Cut

end Frame

end Query

open Query

/-- A name in the place of the test `*` or `node` of a step outside of all predicates never lowers
the specificity. Without a union it raises it, as long as the node tests can be counted. -/
theorem Specificity.le_of_named {P : String} {q : Query} (h : Query.parse P = .ok q) :
    ∃ e : Phrase .query, Token.list P.toList = .ok e.tokens ∧ q = e.tree ∧
      (∀ us s vs, e.written = us ++ s :: vs →
        ∃ c : Frame .query, e = c.fill s ∧ c.earlier = us ∧ c.later = vs) ∧
      ∀ (c : Frame .query) (axis : Option Axis) (t : TestPhrase) (ps : Phrase .predicates),
        e = c.fill (.tested axis t ps) → t.isGeneral = true →
        (∃ a w b, P = .ofList (a ++ (w ++ b)) ∧ c.Cut axis t ps a w b) ∧
        ∀ a w b m n, P = .ofList (a ++ (w ++ b)) → c.Cut axis t ps a w b →
          Token.list m = .ok [.name n] →
          let P' := .ofList (a ++ (m ++ b))
          Query.parse P' = .ok (c.fill (.tested axis (.name n) ps)).tree ∧
            Specificity.of P ≤ .of P' ∧
            ∀ path, q = [path] → (Specificity.of P).nodeTests.val < 65535 →
              Specificity.of P < .of P' := by
  obtain ⟨e, he, rfl⟩ := parse_eq_ok.1 h
  refine ⟨e, he, rfl, fun us s vs hs => e.exists_frame hs, ?_⟩
  rintro c axis t ps rfl general
  refine ⟨Frame.Cut.exists_of_list he, ?_⟩
  rintro a w b m n rfl cut hm
  have cut' := cut.named hm
  refine ⟨cut'.parse_eq, cut.specificity_le general cut', fun path hpath hcount => ?_⟩
  obtain ⟨d, hd⟩ := Frame.exists_alone hpath
  exact cut.specificity_lt general cut' hd hcount

/-- The scorer takes a `node` test with blanks in its parentheses for a test of the kind. -/
theorem Specificity.le_of_named_node :
    let P := "list//self:: node ( ) [@id]"
    let P' := "list//self::item[@id]"
    let ps : Phrase .predicates := .more (.attributed "id" none) .none
    let c : Frame .query :=
      .alone (.relative (.after (.tested none (.name "list") .none) .double .last))
    let q : Query := [.mk false [.mk .child (.element (some "list")) [], .descendants,
      .mk .self .any [.attribute "id" none]]]
    Query.parse P = .ok q ∧ c.Cut (some .self) (.bare .node false) ps "list//self::".toList
        " node ( ) ".toList "[@id]".toList ∧ Token.list "item".toList = .ok [.name "item"] ∧
      Query.parse P' = .ok (c.fill (.tested (some .self) (.name "item") ps)).tree ∧
      Specificity.of P = ⟨1, 1, 3, 2⟩ ∧ Specificity.of P < .of P' := by
  intro P P' ps c q
  have parsed : Query.parse P = .ok q := by
    dsimp only [P, q]
    cbv
  have cut : c.Cut (some .self) (.bare .node false) ps "list//self::".toList
      " node ( ) ".toList "[@id]".toList := ⟨by cbv, by cbv, by cbv⟩
  have item : Token.list "item".toList = .ok [.name "item"] := by cbv
  have score : Specificity.of P = ⟨1, 1, 3, 2⟩ := by decide +kernel
  obtain ⟨e, he, -, -, named⟩ := le_of_named parsed
  have written : e = c.fill (.tested (some .self) (.bare .node false) ps) := by
    have tokens : Token.list P.toList
        = .ok (c.fill (.tested (some .self) (.bare .node false) ps)).tokens := by
      dsimp only [P]
      cbv
    exact Phrase.tokens_injective (Except.ok.inj (he.symm.trans tokens))
  obtain ⟨-, named⟩ := named c _ _ _ written rfl
  obtain ⟨parsed', -, strict⟩ := named _ _ _ _ _ (by decide) cut item
  exact ⟨parsed, cut, item, parsed', score, strict _ rfl (by rw [score]; decide)⟩

end Stylesheet
