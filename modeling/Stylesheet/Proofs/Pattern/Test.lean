import Stylesheet.Proofs.Pattern.Phrase
import Stylesheet.Proofs.Query.Neighbour

/-! The text of a node test falls into the class that the grammar gives it, unless blanks stand in
`node()` or before the parenthesis of `element(x)`. -/

namespace Stylesheet

namespace Query

open Text Pattern

def TestPhrase.kind : TestPhrase → TestClass
  | star => .wildcard
  | name _ => .name
  | bare .node false => .wildcard
  | bare _ _ => .kind
  | element a => if a.value.isSome then .name else .kind
  | instruction _ => .kind

/-- If the tokens start a node test, then no blanks stand where they would change its class. -/
def Snug : List Spaced → Prop
  | ⟨_, .name n⟩ :: ⟨g, .symbol .leftParen⟩ :: p :: _ =>
    (n = "node" → p.token = .symbol .rightParen → g = [] ∧ p.gap = []) ∧
      (n = "element" → p.token ≠ .symbol .rightParen → p.token ≠ .symbol .star → g = [])
  | _ => True

end Query

namespace Pattern

open Text

section Axis

theorem afterAxis?_cons {c : Char} {s : List Char} (h : s.head? ≠ some ':') :
    afterAxis? (c :: s) = afterAxis? s := by
  rw [afterAxis?]
  rintro r - rfl
  exact h rfl

theorem afterAxis?_append {u : List Char} (h : ':' ∉ u) (s : List Char) :
    afterAxis? (u ++ s) = afterAxis? s := by
  induction u with
  | nil => rfl
  | cons c u ih =>
    obtain ⟨hc, hu⟩ := not_or.1 (mt List.mem_cons.2 h)
    rw [List.cons_append, afterAxis?, ih hu]
    rintro r rfl
    exact absurd rfl hc

theorem afterAxis?_blank {b : List Char} (hb : Blank b) (s : List Char) :
    afterAxis? (b ++ s) = afterAxis? s :=
  afterAxis?_append (fun h => absurd (hb ':' h) (by decide)) s

end Axis

section Classes

theorem isWild_cons {c : Char} (hs : c ≠ '*') (hd : c ≠ '.') (s : List Char) :
    isWild (c :: s) = (c :: s == "node()".toList) := by
  simp [isWild, hs, hd]

theorem argument?_cons {c : Char} (he : c ≠ 'e') (ha : c ≠ 'a') (s : List Char) :
    argument? (c :: s) = none := by
  simp [argument?, List.isPrefixOf, he.symm, ha.symm]

theorem ofBare_kind {s : List Char} (hw : isWild (s ++ [')']) = false)
    (ha : argument? (s ++ [')']) = none) : TestClass.ofBare (s ++ [')']) = .kind := by
  have hs : [')'].isSuffixOf (s ++ [')']) = true :=
    List.isSuffixOf_iff_suffix.2 (List.suffix_append _ _)
  simp [TestClass.ofBare, hw, ha, hs]

end Classes

end Pattern

namespace Query

open Text Pattern

theorem IsName.afterAxis? {f : List Char} (h : IsName f) (s : List Char) :
    afterAxis? (f ++ s) = afterAxis? s := by
  have word {g : List Char} (hg : IsWord g) : ':' ∉ g := fun hm =>
    absurd (hg.nameChar ':' hm) (by decide)
  cases h with
  | word h => exact afterAxis?_append (word h) s
  | @prefixed f g hf hg =>
    have hcolon : (g ++ s).head? ≠ some ':' := by
      cases hg with
      | intro hc _ =>
        rintro ⟨⟩
        exact absurd hc (by decide)
    rw [List.append_assoc, afterAxis?_append (word hf), List.cons_append, afterAxis?_cons hcolon,
      afterAxis?_append (word hg)]

/-- What is left of an argument, with the blanks before it, without literals. -/
inductive Argument.Text : Argument → List Char → Prop
  | nothing : Text .nothing []
  | star {b : List Char} (hb : Blank b) : Text .star (b ++ ['*'])
  | name {n : String} {b : List Char} (hb : Blank b) (hn : IsName n.toList) :
      Text (.name n) (b ++ n.toList)
  | literal {b : List Char} (v : String) (hb : Blank b) : Text (.literal v) (b ++ ['\'', '\''])

/-- The parts of a test with parentheses: the blanks before the parentheses, the argument with the
blanks before it, and the blanks after it. -/
structure CallText (kind : String) (a : Argument) where
  gap : List Char
  argument : List Char
  last : List Char
  isName : IsName kind.toList
  blank_gap : Blank gap
  text_argument : a.Text argument
  blank_last : Blank last

namespace CallText

variable {kind : String} {a : Argument}

def text (c : CallText kind a) : List Char :=
  kind.toList ++ (c.gap ++ '(' :: (c.argument ++ (c.last ++ [')'])))

structure Snug (c : CallText kind a) : Prop where
  node : kind = "node" → a = .nothing → c.gap = [] ∧ c.last = []
  element : kind = "element" → a.value.isSome → c.gap = []

theorem text_eq (c : CallText kind a) :
    c.text = kind.toList ++ ((c.gap ++ '(' :: (c.argument ++ c.last)) ++ [')']) := by
  simp [text]

theorem tight (c : CallText kind a) : Tight c.text := by
  rw [text_eq]
  exact c.isName.tight.append _ Symbol.rightParen.tight

end CallText

section Layout

variable {ps : List Spaced} {s : List Char} {a : Argument}

theorem Layout.strip_close (h : Layout ps s) (e : ps.map Spaced.token = [.symbol .rightParen]) :
    ∃ g b, ps = [⟨g, .symbol .rightParen⟩] ∧ Blank g ∧ Blank b ∧
      stripLiterals s = g ++ ([')'] ++ b) := by
  obtain ⟨g, qs, rfl, hqs⟩ := exists_spaced e
  cases List.map_eq_nil_iff.1 hqs
  obtain ⟨u, hu, hg, hs⟩ := h.strip_symbol
  exact ⟨g, _, rfl, hg, hu.strip_nil, hs⟩

theorem Layout.strip_argument (h : Layout ps s)
    (e : ps.map Spaced.token = a.tokens ++ [.symbol .rightParen]) : ∃ x g b p qs, ps = p :: qs ∧
      a.Text x ∧ Blank g ∧ Blank b ∧ stripLiterals s = x ++ (g ++ ([')'] ++ b)) ∧
      (a = .nothing → p = ⟨g, .symbol .rightParen⟩) ∧
      (a.value.isSome → p.token ≠ .symbol .rightParen ∧ p.token ≠ .symbol .star) := by
  cases a with
  | nothing =>
    obtain ⟨g, b, rfl, hg, hb, hs⟩ := h.strip_close e
    exact ⟨[], g, b, _, _, rfl, .nothing, hg, hb, hs, fun _ => rfl, nofun⟩
  | star =>
    obtain ⟨c, qs, rfl, hqs⟩ := exists_spaced e
    obtain ⟨u, hu, hc, hs⟩ := h.strip_symbol
    obtain ⟨g, b, -, hg, hb, hu⟩ := hu.strip_close hqs
    refine ⟨_, g, b, _, _, rfl, .star hc, hg, hb, ?_, nofun, nofun⟩
    rw [hs, hu, List.append_assoc]
    rfl
  | name n =>
    obtain ⟨c, qs, rfl, hqs⟩ := exists_spaced e
    obtain ⟨u, hu, hc, hn, hs⟩ := h.strip_name
    obtain ⟨g, b, -, hg, hb, hu⟩ := hu.strip_close hqs
    refine ⟨_, g, b, _, _, rfl, .name hc hn, hg, hb, ?_, nofun, fun _ => ⟨nofun, nofun⟩⟩
    rw [hs, hu, List.append_assoc]
  | literal v =>
    obtain ⟨c, qs, rfl, hqs⟩ := exists_spaced e
    obtain ⟨u, hu, hc, hs⟩ := h.strip_literal
    obtain ⟨g, b, -, hg, hb, hu⟩ := hu.strip_close hqs
    refine ⟨_, g, b, _, _, rfl, .literal v hc, hg, hb, ?_, nofun, fun _ => ⟨nofun, nofun⟩⟩
    rw [hs, hu, List.append_assoc]

theorem Layout.strip_call {kind : String} (h : Layout ps s)
    (e : ps.map Spaced.token = TestPhrase.call kind a) :
    ∃ (b : List Char) (c : CallText kind a) (b' : List Char), Blank b ∧ Blank b' ∧
      (Snug ps → c.Snug) ∧ stripLiterals s = b ++ (c.text ++ b') := by
  obtain ⟨b, ps, rfl, e₁⟩ := exists_spaced e
  obtain ⟨g, ps, rfl, e₂⟩ := exists_spaced e₁
  obtain ⟨u, h₁, hb, hn, hu⟩ := h.strip_name
  obtain ⟨v, h₂, hg, hv⟩ := h₁.strip_symbol
  obtain ⟨x, c, b', p, ps, rfl, hx, hc, hb', hw, hnothing, hvalue⟩ := h₂.strip_argument e₂
  refine ⟨b, ⟨g, x, c, hn, hg, hx, hc⟩, b', hb, hb',
    fun hs => ⟨fun hk ha => ?_, fun hk ha => ?_⟩, ?_⟩
  · cases hnothing ha
    exact hs.1 hk rfl
  · exact hs.2 hk (hvalue ha).1 (hvalue ha).2
  · rw [hu, hv, hw, CallText.text]
    simp [Symbol.text]

end Layout

section Bare

variable {f b b' : List Char}

theorem bareTest_of_tight (hf : Tight f) (ha : afterAxis? f = none) (hat : f.head? ≠ some '@')
    (hb : Blank b) (hb' : Blank b') : bareTest (b ++ (f ++ b')) = f := by
  have hdrop : f.dropWhile (· == '@') = f := by
    cases f with
    | nil => rfl
    | cons c f =>
      refine List.dropWhile_cons_of_neg ?_
      rw [beq_iff_eq]
      rintro rfl
      exact hat rfl
  rw [bareTest_blank_append hb, bareTest_append_blank _ hb', bareTest, hf.trim_eq, ha,
    Option.getD_none, hdrop, hf.trim_eq]

theorem bareTest_axis {a c d : List Char} (ha : IsName a) (hc : Blank c) (hd : Blank d)
    (hf : Tight f) (hb : Blank b) (hb' : Blank b') :
    bareTest (b ++ (a ++ (c ++ ([':', ':'] ++ (d ++ (f ++ b')))))) = f := by
  have e : b ++ (a ++ (c ++ ([':', ':'] ++ (d ++ (f ++ b')))))
      = b ++ (a ++ ((c ++ ([':', ':'] ++ d)) ++ f) ++ b') := by simp
  have haxis : afterAxis? (a ++ ((c ++ ([':', ':'] ++ d)) ++ f)) = some (d ++ f) := by
    rw [ha.afterAxis?, List.append_assoc, afterAxis?_blank hc]
    rfl
  rw [e, bareTest_blank_append hb, bareTest_append_blank _ hb', bareTest,
    (ha.tight.append _ hf).trim_eq, haxis, Option.getD_some, trim_blank_append hd, hf.trim_eq]

end Bare

section Classes

theorem ofBare_name {f : List Char} (h : IsName f) : TestClass.ofBare f = .name := by
  have other {c : Char} (hc : (isNameChar c || c == ':') = false) : c ∉ f := fun hm => by
    rcases h.nameChar c hm with h | rfl
    · simp [h] at hc
    · cases hc
  have hopen : '(' ∉ f := other (by decide)
  have hwild : isWild f = false := by
    obtain ⟨c, r, rfl, hc⟩ := (Token.Raw.name h).exists_starts
    rw [isWild_cons, beq_eq_false_iff_ne]
    · exact fun e => hopen (by rw [e]; decide)
    · rintro rfl
      cases hc
    · rintro rfl
      cases hc
  have hargument : argument? f = none := by
    have prefixed {p : List Char} (hp : '(' ∈ p) : p.isPrefixOf f = false := by
      rw [← Bool.not_eq_true, List.isPrefixOf_iff_prefix]
      exact fun h => hopen (h.subset hp)
    rw [argument?, prefixed (by decide), prefixed (by decide)]
    rfl
  have hclose : [')'].isSuffixOf f = false := by
    rw [← Bool.not_eq_true, List.isSuffixOf_iff_suffix]
    exact fun h => other (c := ')') (by decide) (h.subset (by decide))
  have hstar : [':', '*'].isSuffixOf f = false := by
    rw [← Bool.not_eq_true, List.isSuffixOf_iff_suffix]
    exact fun h => other (c := '*') (by decide) (h.subset (by decide))
  simp [TestClass.ofBare, hwild, hargument, hclose, hstar]

theorem argument_element {b w h : List Char} (hb : Blank b)
    (hw : ∀ c ∈ w, c ≠ ')' ∧ c ≠ ',' ∧ isBlank c = false) (hh : Blank h) :
    argument? ("element(".toList ++ (b ++ (w ++ (h ++ [')'])))) = some w := by
  refine congrArg some (?_ : (trimLeft (b ++ (w ++ (h ++ [')'])))).takeWhile
    (fun c => !(c == ')' || c == ',' || isBlank c)) = w)
  rw [trimLeft_append hb]
  cases w with
  | nil =>
    rw [List.nil_append, trimLeft_append hh]
    rfl
  | cons c w =>
    have htrim : trimLeft (c :: w ++ (h ++ [')'])) = c :: w ++ (h ++ [')']) :=
      List.dropWhile_cons_of_neg (by simp [(hw c List.mem_cons_self).2.2])
    rw [htrim, List.takeWhile_append_of_pos fun d hd => by simp [hw d hd]]
    cases h with
    | nil => simp
    | cons d h => simp [hh d List.mem_cons_self]

theorem Argument.Text.afterAxis? {a : Argument} {x : List Char} (h : a.Text x) (s : List Char) :
    afterAxis? (x ++ s) = afterAxis? s := by
  cases h with
  | nothing => rfl
  | star hb => rw [List.append_assoc, afterAxis?_blank hb, afterAxis?_append (by decide)]
  | name hb hn => rw [List.append_assoc, afterAxis?_blank hb, hn.afterAxis?]
  | literal v hb => rw [List.append_assoc, afterAxis?_blank hb, afterAxis?_append (by decide)]

theorem Argument.Text.exists_word {a : Argument} {x : List Char} (h : a.Text x) :
    ∃ b w, x = b ++ w ∧ Blank b ∧ (∀ c ∈ w, c ≠ ')' ∧ c ≠ ',' ∧ isBlank c = false) ∧
      (w == [] || w == ['*']) = !a.value.isSome := by
  cases h with
  | nothing => exact ⟨[], [], rfl, blank_nil, nofun, rfl⟩
  | star hb => exact ⟨_, _, rfl, hb, List.forall_mem_singleton.2 (by decide), rfl⟩
  | @name n b hb hn =>
    refine ⟨_, _, rfl, hb, fun c hc => ⟨?_, ?_, hn.not_blank c hc⟩, ?_⟩
    · rintro rfl
      rcases hn.nameChar _ hc with h | h <;> cases h
    · rintro rfl
      rcases hn.nameChar _ hc with h | h <;> cases h
    · obtain ⟨c, r, e, hc⟩ := (Token.Raw.name hn).exists_starts
      rw [e]
      have : c ≠ '*' := by
        rintro rfl
        cases hc
      simp [value, this]
  | literal v hb =>
    refine ⟨_, _, rfl, hb, List.forall_mem_cons.2 ⟨by decide, ?_⟩, rfl⟩
    exact List.forall_mem_singleton.2 (by decide)

theorem Argument.Text.ne_nil {a : Argument} {x : List Char} (h : a.Text x) (ha : a ≠ .nothing) :
    x ≠ [] := by
  cases h with
  | nothing => exact absurd rfl ha
  | star hb => simp
  | name hb hn =>
    obtain ⟨c, r, e, -⟩ := (Token.Raw.name hn).exists_starts
    simp [e]
  | literal v hb => simp

namespace CallText

variable {kind : String} {a : Argument}

theorem ofBare_call (c : CallText kind a) (hw : isWild c.text = false)
    (ha : argument? c.text = none) : TestClass.ofBare c.text = .kind := by
  rw [text_eq, ← List.append_assoc] at hw ha ⊢
  exact ofBare_kind hw ha

theorem ofBare_element (c : CallText "element" a) (hc : c.Snug) :
    TestClass.ofBare c.text = (TestPhrase.element a).kind := by
  have hwild : isWild c.text = false :=
    (isWild_cons (c := 'e') (by decide) (by decide) _).trans rfl
  cases hg : c.gap with
  | nil =>
    obtain ⟨b, w, hx, hb, hw, hv⟩ := c.text_argument.exists_word
    have hargument : argument? c.text = some w := by
      rw [text, hg, hx, List.append_assoc b]
      exact argument_element hb hw c.blank_last
    rw [TestClass.ofBare, hwild, hargument]
    simp only [Bool.false_eq_true, if_false, hv, TestPhrase.kind]
    cases a.value <;> rfl
  | cons d g =>
    have hd : '(' ≠ d := by
      rintro rfl
      exact absurd (c.blank_gap '(' (hg ▸ List.mem_cons_self)) (by decide)
    have hnone : argument? c.text = none := by
      simp [argument?, text, List.isPrefixOf, hg, hd]
    rw [ofBare_call c hwild hnone, TestPhrase.kind, if_neg]
    intro hv
    cases hg.symm.trans (hc.element rfl hv)

theorem ofBare_node (c : CallText "node" a) (hc : c.Snug) :
    TestClass.ofBare c.text = if a = .nothing then .wildcard else .kind := by
  split
  next ha =>
    obtain ⟨g, x, l, hn, hg, hx, hl⟩ := c
    obtain ⟨rfl, rfl⟩ : g = [] ∧ l = [] := hc.node rfl ha
    subst ha
    cases hx
    rfl
  next ha =>
    refine c.ofBare_call ?_ (argument?_cons (c := 'n') (by decide) (by decide) _)
    refine (isWild_cons (c := 'n') (by decide) (by decide) _).trans ?_
    refine beq_eq_false_iff_ne.2 fun e => ?_
    have hpos := List.length_pos_iff.2 (c.text_argument.ne_nil ha)
    have hlength := congrArg List.length e
    simp at hlength
    omega

theorem ofBare_other (c : CallText kind a) {d : Char} {r : List Char} (e : kind.toList = d :: r)
    (hd : d ∉ ['*', '.', 'n', 'e', 'a']) : TestClass.ofBare c.text = .kind := by
  have e : c.text = d :: (r ++ (c.gap ++ '(' :: (c.argument ++ (c.last ++ [')'])))) := by
    rw [text, e]
    rfl
  simp only [List.mem_cons, List.not_mem_nil, or_false, not_or] at hd
  refine c.ofBare_call ?_ ?_
  · rw [e, isWild_cons hd.1 hd.2.1, beq_eq_false_iff_ne]
    exact fun e => hd.2.2.1 (Option.some.inj ((congrArg List.head? e).trans rfl))
  · rw [e]
    exact argument?_cons hd.2.2.2.1 hd.2.2.2.2 _

theorem afterAxis?_text (c : CallText kind a) : afterAxis? c.text = none := by
  have hopen (s : List Char) : afterAxis? ('(' :: s) = afterAxis? s :=
    afterAxis?_append (u := ['(']) (by decide) s
  rw [text, c.isName.afterAxis?, afterAxis?_blank c.blank_gap, hopen, c.text_argument.afterAxis?,
    afterAxis?_blank c.blank_last]
  rfl

end CallText

end Classes

theorem IsName.head_ne_at {f : List Char} (h : IsName f) (s : List Char) :
    (f ++ s).head? ≠ some '@' := by
  obtain ⟨c, r, rfl, hc⟩ := (Token.Raw.name h).exists_starts
  rintro ⟨⟩
  cases hc

structure TestPhrase.Text (t : TestPhrase) (f : List Char) : Prop where
  tight : Tight f
  axis : afterAxis? f = none
  head : f.head? ≠ some '@'
  kind : TestClass.ofBare f = t.kind

theorem CallText.test {kind : String} {a : Argument} (c : CallText kind a) {t : TestPhrase}
    (h : TestClass.ofBare c.text = t.kind) : t.Text c.text :=
  ⟨c.tight, c.afterAxis?_text, c.isName.head_ne_at _, h⟩

theorem Layout.strip_test {ps : List Spaced} {s : List Char} {t : TestPhrase} (h : Layout ps s)
    (e : ps.map Spaced.token = t.tokens) (hs : Snug ps) :
    ∃ b f b', Blank b ∧ Blank b' ∧ t.Text f ∧ stripLiterals s = b ++ (f ++ b') := by
  have call {kind : String} {a : Argument} (e : ps.map Spaced.token = TestPhrase.call kind a)
      (ht : ∀ c : CallText kind a, c.Snug → TestClass.ofBare c.text = t.kind) :
      ∃ b f b', Blank b ∧ Blank b' ∧ t.Text f ∧ stripLiterals s = b ++ (f ++ b') := by
    obtain ⟨b, c, b', hb, hb', hc, hs'⟩ := h.strip_call e
    exact ⟨b, _, b', hb, hb', c.test (ht c (hc hs)), hs'⟩
  cases t with
  | star =>
    obtain ⟨b, qs, rfl, hqs⟩ := exists_spaced e
    cases List.map_eq_nil_iff.1 hqs
    obtain ⟨u, hu, hb, hs⟩ := h.strip_symbol
    exact ⟨b, _, _, hb, hu.strip_nil, ⟨Symbol.star.tight, rfl, by decide, rfl⟩, hs⟩
  | name n =>
    obtain ⟨b, qs, rfl, hqs⟩ := exists_spaced e
    cases List.map_eq_nil_iff.1 hqs
    obtain ⟨u, hu, hb, hn, hs⟩ := h.strip_name
    refine ⟨b, _, _, hb, hu.strip_nil, ⟨hn.tight, ?_, ?_, ofBare_name hn⟩, hs⟩
    · have := hn.afterAxis? []
      rwa [List.append_nil] at this
    · have := hn.head_ne_at []
      rwa [List.append_nil] at this
  | bare k starred =>
    refine call e fun c hc => ?_
    cases k with
    | node =>
      refine (CallText.ofBare_node c hc).trans ?_
      cases starred <;> rfl
    | text => exact c.ofBare_other rfl (by decide)
    | comment => exact c.ofBare_other rfl (by decide)
    | document => exact c.ofBare_other rfl (by decide)
  | element a => exact call e fun c hc => c.ofBare_element hc
  | instruction a => exact call e fun c _ => c.ofBare_other rfl (by decide)

theorem Layout.exists_test {ps qs : List Spaced} {s : List Char} {axis : Option Axis}
    (h : Layout (ps ++ qs) s) (hps : ps.map Spaced.token = axisTokens axis) :
    ∃ u, Layout qs u ∧ ∀ {t : TestPhrase} {b f b' : List Char}, Blank b → Blank b' → t.Text f →
      stripLiterals u = b ++ (f ++ b') → TestClass.of (stripLiterals s) = t.kind := by
  cases axis with
  | none =>
    cases List.map_eq_nil_iff.1 hps
    refine ⟨s, h, fun hb hb' hf e => ?_⟩
    rw [TestClass.of, e, bareTest_of_tight hf.tight hf.axis hf.head hb hb', hf.kind]
  | some a =>
    obtain ⟨b, ps₁, rfl, hps₁⟩ := exists_spaced hps
    obtain ⟨c, ps₂, rfl, hps₂⟩ := exists_spaced hps₁
    cases List.map_eq_nil_iff.1 hps₂
    obtain ⟨u, h₁, hb, ha, e₁⟩ := h.strip_name
    obtain ⟨v, h₂, hc, e₂⟩ := h₁.strip_symbol
    refine ⟨v, h₂, fun hd hb' hf e₃ => ?_⟩
    rw [TestClass.of, e₁, e₂, e₃]
    exact (congrArg TestClass.ofBare (bareTest_axis ha hc hd hf.tight hb hb')).trans hf.kind

theorem Layout.testClass {ps qs : List Spaced} {s : List Char} {axis : Option Axis}
    {t : TestPhrase} (h : Layout (ps ++ qs) s) (hps : ps.map Spaced.token = axisTokens axis)
    (hqs : qs.map Spaced.token = t.tokens) (hs : Snug qs) :
    TestClass.of (stripLiterals s) = t.kind := by
  obtain ⟨u, hu, same⟩ := h.exists_test hps
  obtain ⟨b, f, b', hb, hb', hf, e⟩ := hu.strip_test hqs hs
  exact same hb hb' hf e

end Query

end Stylesheet
