import Stylesheet.Proofs.Pattern.Score
import Stylesheet.Proofs.Pattern.Spelling
import Stylesheet.Proofs.Query.Grammar

/-! The text of a phrase has its brackets in order, and is cut only where the grammar has a
separator outside of them. -/

namespace Stylesheet.Query

open Text Pattern

/-- The characters that may stand outside the brackets of a phrase. -/
def Part.top : Part → Char → Prop
  | .query, _ | .predicate, _ => True
  | .path, c | .steps, c => c ≠ '|'
  | .step, c | .predicates, c => c ≠ '|' ∧ c ≠ '/'

theorem Part.top_of_notMem (k : Part) (c : Char) (h : c ∉ cuts) : k.top c := by
  have hp : c ≠ '|' := by
    rintro rfl
    exact h (by decide)
  have hs : c ≠ '/' := by
    rintro rfl
    exact h (by decide)
  cases k <;> simp [top, hp, hs]

theorem Part.top_brackets (k : Part) : ∀ c ∈ brackets, k.top c := by
  cases k <;> simp [top, brackets]

theorem Slash.text_top (l : Slash) : ∀ c ∈ l.symbol.text, c ∉ brackets ∧ c ≠ '|' := by
  cases l <;> simp [symbol, Symbol.text, brackets]

def Token.isUncut : Token → Bool
  | .symbol y => y.text.all (· ∉ cuts)
  | _ => true

section Spelt

variable {ts : List Token} {s : List Char}

theorem Token.Face.uncut {t : Token} {f : List Char} (hf : t.Face f) (ht : t.isUncut = true) :
    ∀ c ∈ f, c ∉ cuts := by
  intro c hc
  cases hf with
  | symbol y => simpa using List.all_eq_true.1 ht c hc
  | literal v =>
    have none : ['\'', '\''].all (· ∉ cuts) = true := rfl
    simpa using List.all_eq_true.1 none c hc
  | number hne h hn => exact fun hm => digit_notMem_signs (h c hc) (List.mem_append_left _ hm)
  | name hs h => exact fun hm => name_notMem_signs (h c hc) (List.mem_append_left _ hm)

def Token.isBracket (t : Token) : Bool :=
  t == .symbol .leftBracket || t == .symbol .rightBracket

theorem Token.Face.unbracketed {t : Token} {f : List Char} (hf : t.Face f)
    (ht : t.isBracket = false) : Unbracketed f := by
  by_cases hu : t.isUncut = true
  · intro c hc
    have h := hf.uncut hu c hc
    constructor <;> rintro rfl <;> exact h (by decide)
  · cases hf with
    | symbol y => revert ht; cases y <;> simp [Symbol.text, Unbracketed, isBracket]
    | literal v => exact absurd rfl hu
    | number hne h hn => exact absurd rfl hu
    | name hc h => exact absurd rfl hu

theorem Spelt.forall_mem {P : Char → Prop} (h : Spelt ts s) (hb : ∀ c, isBlank c = true → P c)
    (ht : ∀ t ∈ ts, ∀ f, t.Face f → ∀ c ∈ f, P c) : ∀ c ∈ s, P c := by
  induction h with
  | nil hs => exact fun c hc => hb c (hs c hc)
  | @cons t ts b f s hs hf h ih =>
    intro c hc
    rcases List.mem_append.1 hc with hc | hc
    · exact hb c (hs c hc)
    · rcases List.mem_append.1 hc with hc | hc
      · exact ht t List.mem_cons_self f hf c hc
      · exact ih (fun u hu => ht u (List.mem_cons_of_mem _ hu)) c hc

theorem Spelt.uncut (h : Spelt ts s) (ht : ts.all Token.isUncut = true) : ∀ c ∈ s, c ∉ cuts :=
  h.forall_mem (fun _ hb hm => blank_notMem_signs hb (List.mem_append_left _ hm))
    fun t hm _ hf => hf.uncut (List.all_eq_true.1 ht t hm)

theorem Spelt.unbracketed (h : Spelt ts s) (ht : ts.all (fun t => !t.isBracket) = true) :
    Unbracketed s := by
  refine h.forall_mem (fun c hb => ?_) fun t hm f hf => hf.unbracketed ?_
  · exact unbracketed_of_blank (b := [c]) (by simpa [Blank] using hb) c List.mem_cons_self
  · simpa using List.all_eq_true.1 ht t hm

section Balanced

variable {op cl : Char → Bool} (hn : Counting op cl) (k : Part)

include hn

theorem Spelt.balanced_uncut (h : Spelt ts s) (ht : ts.all Token.isUncut = true) :
    Balanced op cl k.top s :=
  hn.uncut (h.uncut ht) k.top_of_notMem

theorem Spelt.balanced_parens {n : String}
    (h : Spelt (.name n :: .symbol .leftParen :: (ts ++ [.symbol .rightParen])) s)
    (hts : ∀ u, Spelt ts u → Balanced op cl k.top u) : Balanced op cl k.top s := by
  have h : Spelt ([.name n] ++ .symbol .leftParen :: (ts ++ [.symbol .rightParen])) s := h
  obtain ⟨u, v, rfl, hu, hv⟩ := h.cut_symbol
  obtain ⟨v, w, rfl, hv, hw⟩ := hv.cut_symbol
  have hc := hn.parenthesized (hts v hv) (k.top_brackets _ (by decide))
    (k.top_brackets _ (by decide))
  have hu := hu.balanced_uncut hn k rfl
  have hw := hw.balanced_uncut hn k rfl
  simpa [Symbol.text] using hu.append (hc.append hw)

theorem Spelt.balanced_call {kind : String} {a : Argument} (h : Spelt (TestPhrase.call kind a) s) :
    Balanced op cl k.top s := by
  refine h.balanced_parens hn k fun v hv => hv.balanced_uncut hn k ?_
  cases a <;> rfl

theorem Spelt.balanced_test {t : TestPhrase} (h : Spelt t.tokens s) : Balanced op cl k.top s := by
  cases t with
  | star => exact h.balanced_uncut hn k rfl
  | name n => exact h.balanced_uncut hn k rfl
  | bare b starred => exact h.balanced_call hn k
  | element a => exact h.balanced_call hn k
  | instruction a => exact h.balanced_call hn k

theorem Spelt.balanced_head {axis : Option Axis} {t : TestPhrase}
    (h : Spelt (axisTokens axis ++ t.tokens) s) : Balanced op cl k.top s := by
  obtain ⟨u, v, rfl, hu, hv⟩ := h.cut
  have ha : (axisTokens axis).all Token.isUncut = true := by cases axis <;> rfl
  exact (hu.balanced_uncut hn k ha).append (hv.balanced_test hn k)

theorem Spelt.balanced_symbol {y : Symbol} {us : List Token} (h : Spelt (ts ++ .symbol y :: us) s)
    (hy : ∀ c ∈ y.text, c ∉ brackets ∧ k.top c)
    (hts : ∀ u, Spelt ts u → Balanced op cl k.top u)
    (hus : ∀ u, Spelt us u → Balanced op cl k.top u) :
    Balanced op cl k.top s := by
  obtain ⟨u, v, rfl, hu, hv⟩ := h.cut_symbol
  exact (hts u hu).append ((hn.plain hy).append (hus v hv))

theorem Spelt.balanced_cons {y : Symbol} (h : Spelt (.symbol y :: ts) s)
    (hy : ∀ c ∈ y.text, c ∉ brackets ∧ k.top c) (hts : ∀ u, Spelt ts u → Balanced op cl k.top u) :
    Balanced op cl k.top s := by
  obtain ⟨b, v, rfl, hb, hv⟩ := h.cut_cons
  exact (hn.blank hb k.top_of_notMem).append ((hn.plain hy).append (hts v hv))

/-- The brackets of a phrase are in order, by both ways of counting. -/
theorem Phrase.balanced {k : Part} (e : Phrase k) {s : List Char} (h : Spelt e.tokens s) :
    Balanced op cl k.top s := by
  induction e generalizing s with
  | alone p ih => exact (ih h).mono fun c _ => trivial
  | union p q ihp ihq =>
    exact h.balanced_symbol hn .query (by simp [Symbol.text, brackets, Part.top])
      (fun u hu => (ihp hu).mono fun c _ => trivial) fun v hv => ihq hv
  | root =>
    exact h.balanced_cons hn .path (Slash.text_top .single) fun u hu =>
      hu.balanced_uncut hn .path rfl
  | absolute l ss ih => exact h.balanced_cons hn .path l.text_top fun u hu => ih hu
  | relative ss ih => exact ih h
  | last s ih => exact (ih h).mono fun c hc => hc.1
  | join s l ss ihs ihss =>
    exact h.balanced_symbol hn .steps l.text_top (fun u hu => (ihs hu).mono fun c hc => hc.1)
      fun v hv => ihss hv
  | dot => exact h.balanced_uncut hn .step rfl
  | doubleDot => exact h.balanced_uncut hn .step rfl
  | tested axis t ps ih =>
    rw [tokens, ← List.append_assoc] at h
    obtain ⟨u, v, rfl, hu, hv⟩ := h.cut
    exact (hu.balanced_head hn .step).append (ih hv)
  | none => exact h.balanced_uncut hn .predicates rfl
  | more p ps ihp ihps =>
    obtain ⟨b, v, rfl, hb, hv⟩ := h.cut_cons
    obtain ⟨q, r, rfl, hq, hr⟩ := hv.cut_symbol
    have hb : Balanced op cl (Part.top .predicates) b := hn.blank hb (Part.top_of_notMem _)
    have hg := hn.bracketed (ihp hq) (Part.top_brackets .predicates _ (by decide))
    simpa [Symbol.text] using hb.append (hg.append (ihps hr))
  | position n => exact h.balanced_uncut hn .predicate rfl
  | attributed name c =>
    refine h.balanced_uncut hn .predicate ?_
    cases c with
    | none => rfl
    | some c =>
      obtain ⟨equal, v⟩ := c
      cases equal <;> cases v <;> rfl
  | not p ih => exact h.balanced_parens hn .predicate fun u hu => ih hu
  | selects q ih => exact ih h

end Balanced

theorem Spelt.not_blank_name {n : String} (h : Spelt (.name n :: ts) s) : ¬Blank s := by
  cases h with
  | cons hb hf hs =>
    intro hs
    cases hf with
    | @name c f hc h =>
      have := hs c (by simp)
      rw [isBlank_isNameChar (isNameChar_of_isNameStart hc)] at this
      cases this

theorem Spelt.not_blank_symbol {y : Symbol} (h : Spelt (.symbol y :: ts) s) : ¬Blank s := by
  have hy : y.text.any (fun c => !isBlank c) = true := by cases y <;> rfl
  cases h with
  | cons hb hf hs =>
    intro hs
    cases hf
    obtain ⟨c, hc, hn⟩ := List.any_eq_true.1 hy
    simp [hs c (by simp [hc])] at hn

section Head

variable {axis : Option Axis} {t : TestPhrase} (h : Spelt (axisTokens axis ++ t.tokens) s)

include h

theorem Spelt.not_blank_head : ¬Blank s := by
  cases axis with
  | some a => exact h.not_blank_name
  | none =>
    cases t with
    | star => exact h.not_blank_symbol
    | name n => exact h.not_blank_name
    | bare b starred => exact h.not_blank_name
    | element a => exact h.not_blank_name
    | instruction a => exact h.not_blank_name

theorem Spelt.unbracketed_head : Unbracketed s := by
  refine h.unbracketed ?_
  rw [List.all_append, Bool.and_eq_true_iff]
  constructor
  · cases axis <;> rfl
  · cases t with
    | star => rfl
    | name n => rfl
    | bare b starred => cases starred <;> rfl
    | element a => cases a <;> rfl
    | instruction a => cases a <;> rfl

end Head

theorem Phrase.bracketed (ps : Phrase .predicates) {s : List Char} (h : Spelt ps.tokens s) :
    ∃ qs, Bracketed qs s ∧ List.Forall₂ (fun p q => Spelt p.tokens q) ps.predicates qs := by
  match ps with
  | .none =>
    cases h with
    | nil hb => exact ⟨[], .nil hb, .nil⟩
  | .more p ps =>
    obtain ⟨b, v, rfl, hb, hv⟩ := h.cut_cons
    obtain ⟨q, r, rfl, hq, hr⟩ := hv.cut_symbol
    obtain ⟨qs, hqs, hps⟩ := bracketed ps hr
    exact ⟨q :: qs, .cons hb (p.balanced .brackets hq) hqs, .cons hq hps⟩

end Spelt

section Branches

variable {t r : List Char}

theorem ofBranch_join (hs : depth isOpener isCloser 0 t = 0) (l : Slash) (r : List Char) :
    Score.ofBranch (t ++ (l.symbol.text ++ r)) = Score.ofBranch t + Score.ofBranch r := by
  cases l with
  | single => exact Score.ofBranch_append_cons hs r
  | double =>
    have hr : Score.ofBranch ('/' :: r) = Score.ofBranch r := by
      have h := @Score.ofBranch_append_cons [] rfl r
      exact h.trans (Score.zero_add _)
    rw [← hr]
    exact Score.ofBranch_append_cons hs ('/' :: r)

theorem ofBranch_step {qs : List (List Char)} (ht : Unbracketed t) (hb : ¬Blank t)
    (hr : Bracketed qs r) (hl : Balanced isOpener isCloser (Part.top .step) (t ++ r)) :
    Score.ofBranch (t ++ r) = Score.ofTest t + Score.sum (qs.map .ofPredicate) := by
  have hne : trim (t ++ r) ≠ [] := fun e =>
    hb fun c hc => blank_of_trim e c (List.mem_append_left _ hc)
  rw [Score.ofBranch_of_balanced (hl.mono fun c hc => hc.2) hne, Score.ofStep_bracketed ht hr]

end Branches

end Stylesheet.Query
