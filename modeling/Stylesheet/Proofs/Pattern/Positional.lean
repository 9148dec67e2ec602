import Stylesheet.Proofs.Pattern.Phrase
import Stylesheet.Proofs.Query.Neighbour

/-! What scoring finds in the text of a predicate is in its tokens: an attribute sign is a token of
its own, a number makes up the whole predicate, and no parenthesis follows the words that would tell
a position. -/

namespace Stylesheet

namespace Pattern

open Text

theorem isInfix_of_contains {part s : List Char} (h : contains part s = true) : part <:+: s := by
  induction s with
  | nil =>
    rw [contains, List.isEmpty_iff] at h
    exact h ▸ List.nil_infix
  | cons c s ih =>
    rw [contains, Bool.or_eq_true] at h
    rcases h with h | h
    · exact (List.isPrefixOf_iff_prefix.1 h).isInfix
    · exact (ih h).trans (List.suffix_cons c s).isInfix

theorem isInfix_trim (s : List Char) : trim s <:+: s := by
  obtain ⟨b, b', -, -, e⟩ := exists_trim s
  exact ⟨b, b', by rw [List.append_assoc]; exact e.symm⟩

theorem isNumeral_cons {c : Char} (hc : c.isDigit = false) (hp : c ≠ '+') (s : List Char) :
    isNumeral (c :: s) = false := by
  have hd : decimal? 4294967296 (c :: s) = none := by
    rw [Option.eq_none_iff_forall_ne_some]
    intro n h
    have := ((decimal?_eq_some (by decide)).1 h).1 c List.mem_cons_self
    simp [hc] at this
  simp [isNumeral, hp, hd]

theorem isNumeral_digits {s : List Char} (hne : s ≠ []) (hd : ∀ c ∈ s, c.isDigit = true) :
    isNumeral s = decide (Nat.ofDigitChars 10 s 0 < 4294967296) := by
  obtain ⟨c, r, rfl⟩ := List.exists_cons_of_ne_nil hne
  have hp : c ≠ '+' := by
    rintro rfl
    exact absurd (hd '+' List.mem_cons_self) (by decide)
  have hs : (decimal? 4294967296 (c :: r)).isSome
      = decide (Nat.ofDigitChars 10 (c :: r) 0 < 4294967296) := by
    rw [Bool.eq_iff_iff, decide_eq_true_eq, Option.isSome_iff_exists]
    constructor
    · rintro ⟨n, hn⟩
      obtain ⟨-, rfl, hlt⟩ := (decimal?_eq_some (by decide)).1 hn
      exact hlt
    · exact fun hlt => ⟨_, (decimal?_eq_some (by decide)).2 ⟨hd, rfl, hlt⟩⟩
  simp [isNumeral, hp, hs]

end Pattern

namespace Query

open Text Pattern

theorem append_eq_append_cons {α : Type} {s t u v : List α} {c : α} (h : s ++ t = u ++ c :: v) :
    (∃ x, s = u ++ c :: x) ∨ ∃ x, u = s ++ x ∧ t = x ++ c :: v := by
  rcases List.append_eq_append_iff.1 h with ⟨x, rfl, e⟩ | ⟨x, rfl, e⟩
  · exact .inr ⟨x, rfl, e⟩
  · cases x with
    | nil => exact .inr ⟨[], by simp, e.symm⟩
    | cons d x =>
      cases e
      exact .inl ⟨x, rfl⟩

section Spelt

variable {ts : List Token} {s : List Char}

theorem Token.Face.mem_signs {t : Token} {f : List Char} (hf : t.Face f) {c : Char} (hc : c ∈ f)
    (hs : c ∈ signs) (hq : c ≠ '\'') : ∃ y, t = .symbol y ∧ c ∈ y.text := by
  cases hf with
  | symbol y => exact ⟨y, rfl, hc⟩
  | literal v => simp [hq] at hc
  | number hne h hn => exact absurd hs (digit_notMem_signs (h c hc))
  | name hn h => exact absurd hs (name_notMem_signs (h c hc))

theorem Spelt.mem_sign (h : Spelt ts s) {y : Symbol} {c : Char} (hc : c ∈ signs) (hq : c ≠ '\'')
    (hy : ∀ z : Symbol, c ∈ z.text ↔ z = y) : c ∈ s ↔ .symbol y ∈ ts := by
  have hface {t : Token} {f : List Char} (hf : t.Face f) : c ∈ f ↔ t = .symbol y := by
    constructor
    · intro hm
      obtain ⟨z, rfl, hz⟩ := hf.mem_signs hm hc hq
      rw [(hy z).1 hz]
    · rintro rfl
      cases hf
      exact (hy y).2 rfl
  induction h with
  | nil hb =>
    exact iff_of_false (fun hm => blank_notMem_signs (hb c hm) hc) (List.not_mem_nil)
  | cons hb hf h ih =>
    have hb : c ∉ _ := fun hm => blank_notMem_signs (hb c hm) hc
    simp only [List.mem_append, List.mem_cons, hb, hface hf, ih, false_or, eq_comm]

theorem Spelt.exists_caller {t : Token} {u v : List Char} (h : Spelt ts s)
    (ha : Adjoining (t :: ts)) (e : s = u ++ '(' :: v) :
    (∃ n ∈ callers, ∃ w b, Blank b ∧ u = w ++ (n.toList ++ b)) ∨
      Blank u ∧ ∃ n ∈ callers, t = .name n := by
  induction h generalizing t u with
  | nil hb => exact absurd (hb '(' (e ▸ by simp)) (by decide)
  | @cons t' ts b f s hb hf h ih =>
    rcases append_eq_append_cons e with ⟨x, rfl⟩ | ⟨x, rfl, hx⟩
    · exact absurd (hb '(' (by simp)) (by decide)
    obtain ⟨htt, ha⟩ := List.isChain_cons_cons.1 ha
    rcases append_eq_append_cons hx with ⟨y, rfl⟩ | ⟨y, rfl, hy⟩
    · -- The parenthesis is the token that follows `t`.
      obtain ⟨z, rfl, hz⟩ := hf.mem_signs (c := '(') (by simp) (by decide) (by decide)
      have hz : z = .leftParen := by cases z <;> simp_all [Symbol.text]
      subst hz
      obtain ⟨n, hn, rfl⟩ := htt.caller rfl
      have hx : x = [] := by
        generalize hf' : x ++ '(' :: y = f at hf
        cases hf
        cases x with
        | nil => rfl
        | cons d x => simp [Symbol.text] at hf'
      exact .inr ⟨by simpa [hx] using hb, n, hn, rfl⟩
    · rcases ih ha hy with ⟨n, hn, w, b', hb', rfl⟩ | ⟨hy, n, hn, rfl⟩
      · exact .inl ⟨n, hn, b ++ (f ++ w), b', hb', by simp⟩
      · refine .inl ⟨n, hn, b, y, hy, ?_⟩
        have hf : f = n.toList := by
          generalize ht : Token.name n = t at hf
          cases hf <;> cases ht
          exact String.toList_ofList.symm
        rw [hf]

theorem Spelt.not_isInfix {y : Symbol} (h : Spelt ts s) (ha : Adjoining (.symbol y :: ts))
    {word v : List Char} {c : Char} (hc : isBlank c = false)
    (hw : ∀ n ∈ callers, ¬n.toList <:+ word ++ [c] ∧ ¬word ++ [c] <:+ n.toList) :
    ¬word ++ c :: '(' :: v <:+: s := by
  rintro ⟨x, r, e⟩
  have e : s = (x ++ (word ++ [c])) ++ '(' :: (v ++ r) := by simp [← e]
  rcases h.exists_caller ha e with ⟨n, hn, w, b, hb, hx⟩ | ⟨-, n, -, ⟨⟩⟩
  have hnil : b = [] := by
    cases hlast : b.getLast? with
    | none => exact List.getLast?_eq_none_iff.1 hlast
    | some d =>
      have hx := congrArg List.getLast? hx
      simp only [List.getLast?_append, hlast, List.getLast?_singleton, Option.some_or,
        Option.some.injEq] at hx
      have := hb d (List.mem_of_getLast? hlast)
      rw [← hx, hc] at this
      cases this
  rw [hnil, List.append_nil] at hx
  have hs : n.toList <:+ x ++ (word ++ [c]) := ⟨w, hx.symm⟩
  rcases List.suffix_or_suffix_of_suffix hs (List.suffix_append x _) with h | h
  · exact (hw n hn).1 h
  · exact (hw n hn).2 h

theorem Spelt.contains_position {y : Symbol} (h : Spelt ts s) (ha : Adjoining (.symbol y :: ts)) :
    contains "position()".toList (trim s) = false ∧ contains "last()".toList (trim s) = false := by
  have not_contains (word : List Char) (c : Char) (hc : isBlank c = false)
      (hw : ∀ n ∈ callers, ¬n.toList <:+ word ++ [c] ∧ ¬word ++ [c] <:+ n.toList) :
      contains (word ++ c :: ['(', ')']) (trim s) = false := by
    rw [← Bool.not_eq_true]
    exact fun hp => h.not_isInfix ha hc hw ((isInfix_of_contains hp).trans (isInfix_trim s))
  exact ⟨not_contains "positio".toList 'n' rfl (by decide),
    not_contains "las".toList 't' rfl (by decide)⟩

theorem Spelt.isNumeral_other (h : Spelt ts s) (ht : ∀ n us, ts ≠ .number n :: us) :
    isNumeral (trim s) = false := by
  cases h with
  | nil hb =>
    have e : trim s = [] := (trim_append_blank [] hb).trans rfl
    rw [e]
    rfl
  | @cons t ts b f s hb hf h =>
    have hstart : ∃ c r, f = c :: r ∧ isBlank c = false ∧ c.isDigit = false ∧ c ≠ '+' := by
      cases hf with
      | symbol y => cases y <;> exact ⟨_, _, rfl, rfl, rfl, by decide⟩
      | literal v => exact ⟨_, _, rfl, rfl, rfl, by decide⟩
      | number hne hd hn => exact absurd rfl (ht _ _)
      | @name c r hc hr =>
        have hb := isBlank_isNameChar (isNameChar_of_isNameStart hc)
        refine ⟨c, r, rfl, hb, Bool.eq_false_iff.2 fun hd => ?_, ?_⟩
        · have := isDecimalDigit_of_isDigit hd
          simp [isDecimalDigit_nameStart hc] at this
        · rintro rfl
          cases hc
    obtain ⟨c, r, rfl, hb', hd, hp⟩ := hstart
    obtain ⟨x, hx⟩ := exists_trim_cons hb' (r ++ s)
    rw [trim_blank_append hb, List.cons_append, hx]
    exact isNumeral_cons hd hp x

theorem Spelt.isNumeral_number {n : Nat} (h : Spelt [.number n] s) :
    isNumeral (trim s) = decide (n < 4294967296) := by
  cases h with
  | @cons _ _ b f s hb hf h =>
    cases h with
    | nil hs =>
      cases hf with
      | number hne hd hn =>
        obtain ⟨hd, hn, -⟩ := (decimal?_eq_some (by decide)).1 hn
        have hblank : ∀ c ∈ f, isBlank c = false :=
          fun c hc => isBlank_isDecimalDigit (isDecimalDigit_of_isDigit (hd c hc))
        rw [trim_blank_append hb, trim_append_blank _ hs, (tight_of_forall hne hblank).trim_eq,
          isNumeral_digits hne hd, hn]

end Spelt

/-- The predicate counts as one that tells a position: a greater number does not. -/
def Phrase.tellsPosition {k : Part} : Phrase k → Bool
  | .position n => n < 4294967296
  | _ => false

def Phrase.testsAttribute {k : Part} (e : Phrase k) : Bool := .symbol .atSign ∈ e.tokens

def Phrase.predicateScore (p : Phrase .predicate) : Score :=
  ⟨⟨1, if p.testsAttribute then 1 else 0, 0, 0⟩,
    .single .predicate
      ∪ (if p.testsAttribute then .single .attributePredicate else .empty)
      ∪ (if p.tellsPosition then .single .positionalPredicate else .empty)⟩

theorem Spelt.contains_at {ts : List Token} {s : List Char} (h : Spelt ts s) :
    s.contains '@' = decide (.symbol .atSign ∈ ts) := by
  have hy (z : Symbol) : '@' ∈ z.text ↔ z = .atSign := by cases z <;> decide
  rw [Bool.eq_iff_iff, List.contains_iff_mem, decide_eq_true_eq]
  exact h.mem_sign (by decide) (by decide) hy

theorem Phrase.tellsPosition_eq (p : Phrase .predicate) {s : List Char} (h : Spelt p.tokens s) :
    Pattern.tellsPosition s = p.tellsPosition := by
  have ha : Adjoining (.symbol .leftBracket :: p.tokens) := by
    have := p.adjoining_append ⟨.leftBracket, by decide, rfl⟩ (Part.ends_nil _) .nil
    rwa [List.append_nil] at this
  obtain ⟨hposition, hlast⟩ := h.contains_position ha
  rw [Pattern.tellsPosition, hposition, hlast, Bool.or_false, Bool.or_false]
  cases p with
  | position n => exact h.isNumeral_number
  | attributed name c => exact h.isNumeral_other nofun
  | not p => exact h.isNumeral_other nofun
  | selects q =>
    refine h.isNumeral_other fun n us e => ?_
    have hnil : AfterTest [] := fun us => ⟨nofun, nofun⟩
    have := opensOther_query q hnil
    rw [List.append_nil, show q.tokens = _ from e] at this
    cases this

theorem Phrase.ofPredicate_eq (p : Phrase .predicate) {s : List Char} (h : Spelt p.tokens s) :
    Score.ofPredicate s = p.predicateScore := by
  rw [Score.ofPredicate, h.contains_at, p.tellsPosition_eq h]
  rfl

end Query

end Stylesheet
