import Mathlib.Data.List.Chain
import Stylesheet.Proofs.Text.Blank
import Stylesheet.Query.Lexer

/-! How tokens are written: with blanks before each of them, literals in either kind of quotation
marks, and numbers with or without leading zeros. The lexer finds the tokens of such a text, unless
one of them runs into the next. -/

namespace Stylesheet.Query

open Text

inductive IsWord : List Char → Prop
  | intro {c : Char} {f : List Char} (hc : isNameStart c = true)
      (hf : ∀ d ∈ f, isNameChar d = true) : IsWord (c :: f)

inductive IsName : List Char → Prop
  | word {s : List Char} (h : IsWord s) : IsName s
  | prefixed {s t : List Char} (hs : IsWord s) (ht : IsWord t) : IsName (s ++ ':' :: t)

theorem isName_keyword {n : String} {c : Char} {f : List Char} (e : n.toList = c :: f)
    (hc : isNameStart c = true) (hf : f.all isNameChar = true) : IsName n.toList := by
  rw [e]
  exact .word (.intro hc (List.all_eq_true.1 hf))

inductive Token.Raw : Token → List Char → Prop
  | symbol (y : Symbol) : Raw (.symbol y) y.text
  | literal {q : Char} {v : List Char} (hq : q = '"' ∨ q = '\'') (hv : q ∉ v) :
      Raw (.literal (String.ofList v)) (q :: (v ++ [q]))
  | number {f : List Char} (hne : f ≠ []) (hf : ∀ c ∈ f, c.isDigit = true)
      (hlt : Nat.ofDigitChars 10 f 0 < 18446744073709551616) :
      Raw (.number (Nat.ofDigitChars 10 f 0)) f
  | name {f : List Char} (h : IsName f) : Raw (.name (String.ofList f)) f

theorem Token.raw_name {n : String} (h : IsName n.toList) : (Token.name n).Raw n.toList := by
  have := Raw.name h
  rwa [String.ofList_toList] at this

theorem Token.raw_literal {q : Char} {v : String} (hq : q = '"' ∨ q = '\'') (hv : q ∉ v.toList) :
    (Token.literal v).Raw (q :: (v.toList ++ [q])) := by
  have := Raw.literal hq hv
  rwa [String.ofList_toList] at this

theorem Token.raw_number {n : Nat} (h : n < 18446744073709551616) :
    (Token.number n).Raw (Nat.toDigits 10 n) := by
  have hn : Nat.ofDigitChars 10 (Nat.toDigits 10 n) 0 = n :=
    Nat.ofDigitChars_ten_toDigits
  have hd : ∀ c ∈ Nat.toDigits 10 n, c.isDigit = true :=
    fun c hc => Nat.isDigit_of_mem_toDigits (by decide) (by decide) hc
  have := Raw.number Nat.toDigits_ne_nil hd (hn.symm ▸ h)
  rwa [hn] at this

structure Spaced where
  gap : List Char
  token : Token

/-- The text consists of the tokens with the blanks before them, and blanks at the end. -/
inductive Layout : List Spaced → List Char → Prop
  | nil {b : List Char} (hb : Blank b) : Layout [] b
  | cons {b r s : List Char} {t : Token} {ps : List Spaced} (hb : Blank b) (hr : t.Raw r)
      (h : Layout ps s) : Layout (⟨b, t⟩ :: ps) (b ++ (r ++ s))

section Reading

theorem Symbol.read?_append {s rest : List Char} {y : Symbol} (h : read? s = some (y, rest)) :
    s = y.text ++ rest := by
  obtain ⟨z, hz, e⟩ := Option.map_eq_some_iff.1 h
  cases e
  have hp : y.text.isPrefixOf s = true :=
    List.find?_some (p := fun y : Symbol => y.text.isPrefixOf s) hz
  obtain ⟨u, rfl⟩ := List.isPrefixOf_iff_prefix.1 hp
  rw [List.drop_left]

theorem splitName_append (s : List Char) : (splitName s).1 ++ (splitName s).2 = s := by
  have h := List.takeWhile_append_dropWhile (p := isNameChar) (l := s)
  rw [splitName]
  split
  next c rest e =>
    rw [e] at h
    split
    · simpa [List.takeWhile_append_dropWhile] using h
    · exact h
  next => exact h

theorem isWord_takeWhile {c : Char} (h : isNameStart c = true) (s : List Char) :
    IsWord ((c :: s).takeWhile isNameChar) := by
  rw [List.takeWhile_cons_of_pos (isNameChar_of_isNameStart h)]
  exact .intro h fun d hd => List.mem_takeWhile_imp hd

theorem isName_splitName {c : Char} (h : isNameStart c = true) (s : List Char) :
    IsName (splitName (c :: s)).1 := by
  have hw := isWord_takeWhile h s
  rw [splitName]
  split
  next d rest e =>
    split
    next hd => exact .prefixed hw (isWord_takeWhile hd rest)
    next => exact .word hw
  next => exact .word hw

theorem Token.ofDigits_eq_ok {digits : List Char} {t : Token} (hne : digits ≠ [])
    (h : ofDigits digits = .ok t) : t.Raw digits := by
  rw [ofDigits] at h
  split at h
  next n e =>
    cases h
    obtain ⟨hd, rfl, hlt⟩ := (decimal?_eq_some (by decide)).1 e
    exact .number hne hd hlt
  next => cases h

theorem Token.read_raw {c : Char} {s rest : List Char} {t : Token}
    (h : read c s = .ok (t, rest)) : ∃ r, c :: s = r ++ rest ∧ t.Raw r := by
  rw [read] at h
  split at h
  next y u e =>
    cases h
    exact ⟨y.text, Symbol.read?_append e, .symbol y⟩
  next =>
    split at h
    next hq =>
      cases h
      simp only [Bool.and_eq_true, Bool.or_eq_true, beq_iff_eq, List.contains_iff_mem] at hq
      obtain ⟨v, u, rfl, hv⟩ := List.eq_append_cons_of_mem hq.2
      have hne : ∀ d ∈ v, (d != c) = true := fun d hd => bne_iff_ne.2 fun e => hv (e ▸ hd)
      rw [List.takeWhile_append_of_pos hne, List.dropWhile_append_of_pos hne]
      refine ⟨c :: (v ++ [c]), by simp, ?_⟩
      simpa using Raw.literal hq.1 hv
    next =>
      split at h
      next hd =>
        split at h
        next u e =>
          cases h
          refine ⟨_, ?_, ofDigits_eq_ok (List.cons_ne_nil _ _) e⟩
          rw [List.cons_append, List.takeWhile_append_dropWhile]
        next => cases h
      next =>
        split at h
        next hn =>
          cases h
          exact ⟨_, (splitName_append _).symm, .name (isName_splitName hn s)⟩
        next => cases h

theorem Token.list_blank {s : List Char} (h : trimLeft s = []) : list s = .ok [] := by
  rw [list]
  split
  · rfl
  next e => cases h.symm.trans e

theorem Token.list_eq_ok {s tail : List Char} {c : Char} {ts : List Token}
    (h : trimLeft s = c :: tail) (hs : list s = .ok ts) : ∃ t rest us,
      read c tail = .ok (t, rest) ∧ list rest = .ok us ∧ ts = t :: us := by
  rw [list] at hs
  split at hs
  next e => cases h.symm.trans e
  next d tail' e =>
    cases h.symm.trans e
    split at hs
    · cases hs
    next t rest hr =>
      split at hs
      · cases hs
      next us hus =>
        cases hs
        exact ⟨t, rest, us, hr, hus, rfl⟩

/-- A text that the lexer accepts is laid out as the tokens it gives. -/
theorem Token.list_layout {s : List Char} {ts : List Token} (h : list s = .ok ts) :
    ∃ ps, Layout ps s ∧ ps.map Spaced.token = ts := by
  induction hn : s.length using Nat.strongRecOn generalizing s ts with
  | ind n ih =>
    have hs := List.takeWhile_append_dropWhile (p := isBlank) (l := s)
    rw [← trimLeft] at hs
    cases e : trimLeft s with
    | nil =>
      rw [list_blank e] at h
      cases h
      rw [e, List.append_nil] at hs
      exact ⟨[], .nil (hs ▸ blank_takeWhile s), rfl⟩
    | cons c tail =>
      obtain ⟨t, rest, us, hr, hus, rfl⟩ := list_eq_ok e h
      obtain ⟨r, er, hraw⟩ := read_raw hr
      have hlt : rest.length < n := by
        have := read_length hr
        have := length_dropWhile_le isBlank s
        rw [← trimLeft, e, List.length_cons] at this
        omega
      obtain ⟨ps, hps, rfl⟩ := ih _ hlt hus rfl
      have h := Layout.cons (blank_takeWhile s) hraw hps
      rw [← er, ← e, hs] at h
      exact ⟨_, h, rfl⟩

end Reading

section Cutting

variable {ps qs : List Spaced} {b s : List Char}

theorem exists_spaced {ps : List Spaced} {t : Token} {ts : List Token}
    (e : ps.map Spaced.token = t :: ts) : ∃ b qs, ps = ⟨b, t⟩ :: qs ∧ qs.map Spaced.token = ts := by
  obtain ⟨⟨b, u⟩, qs, rfl, rfl, hqs⟩ := List.map_eq_cons_iff.1 e
  exact ⟨b, qs, rfl, hqs⟩

theorem Layout.single {t : Token} {r : List Char} (h : t.Raw r) : Layout [⟨[], t⟩] r := by
  have := Layout.cons blank_nil h (.nil blank_nil)
  rwa [List.append_nil] at this

theorem Layout.append_blank (h : Layout ps s) (hb : Blank b) : Layout ps (s ++ b) := by
  induction h with
  | nil hs => exact .nil (hs.append hb)
  | cons hs hr h ih =>
    rw [List.append_assoc, List.append_assoc]
    exact .cons hs hr ih

theorem Layout.cut (h : Layout (ps ++ qs) s) : ∃ u v, s = u ++ v ∧ Layout ps u ∧ Layout qs v := by
  induction ps generalizing s with
  | nil => exact ⟨[], s, rfl, .nil blank_nil, h⟩
  | cons p ps ih =>
    cases h with
    | @cons b r s _ _ hb hr h =>
      obtain ⟨u, v, rfl, hu, hv⟩ := ih h
      exact ⟨b ++ (r ++ u), v, by simp, .cons hb hr hu, hv⟩

theorem Layout.cut_cons {y : Symbol} (h : Layout (⟨b, .symbol y⟩ :: qs) s) :
    ∃ v, s = b ++ (y.text ++ v) ∧ Blank b ∧ Layout qs v := by
  cases h with
  | cons hb hr h =>
    cases hr
    exact ⟨_, rfl, hb, h⟩

theorem Layout.cut_symbol {y : Symbol} (h : Layout (ps ++ ⟨b, .symbol y⟩ :: qs) s) :
    ∃ u v, s = u ++ (y.text ++ v) ∧ Layout ps u ∧ Layout qs v := by
  obtain ⟨u, v, rfl, hu, hv⟩ := h.cut
  obtain ⟨v, rfl, hb, hv⟩ := hv.cut_cons
  exact ⟨u ++ b, v, by simp, hu.append_blank hb, hv⟩

end Cutting

section Writing

variable {s : List Char}

theorem isBlank_isNameChar {c : Char} (h : isNameChar c = true) : isBlank c = false :=
  isBlank_eq_false (by decide +kernel) h

theorem isBlank_isDecimalDigit {c : Char} (h : isDecimalDigit c = true) : isBlank c = false :=
  isBlank_eq_false (by decide +kernel) h

theorem isDecimalDigit_of_isDigit {c : Char} (h : c.isDigit = true) : isDecimalDigit c = true := by
  rw [isDecimalDigit, if_pos, h]
  simp only [Char.isDigit, Bool.and_eq_true, decide_eq_true_eq] at h
  exact Nat.lt_of_le_of_lt (UInt32.le_iff_toNat_le.1 h.2) (by decide)

theorem isDecimalDigit_nameStart {c : Char} (h : isNameStart c = true) :
    isDecimalDigit c = false := by
  have ascii : ∀ n < 128, isNameStart (Char.ofNat n) = true →
    isDecimalDigit (Char.ofNat n) = false := by decide
  have := ascii c.toNat (toNat_lt_of_isNameStart h)
  rw [Char.ofNat_toNat] at this
  exact this h

def Token.Starts (c : Char) : Token → Prop
  | .symbol y => y.text.head? = some c
  | .literal _ => c = '"' ∨ c = '\''
  | .number _ => c.isDigit = true
  | .name _ => isNameStart c = true

theorem Token.Raw.exists_starts {t : Token} {r : List Char} (h : t.Raw r) :
    ∃ c f, r = c :: f ∧ t.Starts c := by
  cases h with
  | symbol y => cases y <;> exact ⟨_, _, rfl, rfl⟩
  | literal hq hv => exact ⟨_, _, rfl, hq⟩
  | number hne hf hlt =>
    obtain ⟨c, f, rfl⟩ := List.exists_cons_of_ne_nil hne
    exact ⟨c, f, rfl, hf c List.mem_cons_self⟩
  | name h =>
    cases h with
    | word h => cases h with | intro hc _ => exact ⟨_, _, rfl, hc⟩
    | prefixed h _ => cases h with | intro hc _ => exact ⟨_, _, rfl, hc⟩

theorem Token.Starts.not_blank {t : Token} {c : Char} (h : t.Starts c) : isBlank c = false := by
  cases t with
  | symbol y => cases y <;> cases h <;> rfl
  | literal v => rcases h with rfl | rfl <;> rfl
  | number n => exact isBlank_isDecimalDigit (isDecimalDigit_of_isDigit h)
  | name n => exact isBlank_isNameChar (isNameChar_of_isNameStart h)

/-- The token goes on if the character comes after it. -/
def Token.runsInto (c : Char) : Token → Bool
  | .symbol .slash => c == '/'
  | .symbol .dot => c == '.'
  | .symbol _ | .literal _ => false
  | .number _ => isDecimalDigit c
  | .name _ => isNameChar c

/-- The token ends where the text begins. -/
structure Token.Clear (t : Token) (s : List Char) : Prop where
  head : ∀ c r, s = c :: r → t.runsInto c = false
  colon : ∀ c r, s = ':' :: c :: r → c = ':'

theorem Symbol.read?_text {y : Symbol} (h : (Token.symbol y).Clear s) :
    read? (y.text ++ s) = some (y, s) := by
  cases y with
  | slash =>
    cases s with
    | nil => rfl
    | cons c s =>
      have hc : ('/' == c) = false := BEq.comm.trans (h.head c s rfl)
      simp [read?, all, text, List.find?, List.isPrefixOf, hc]
  | dot =>
    cases s with
    | nil => rfl
    | cons c s =>
      have hc : ('.' == c) = false := BEq.comm.trans (h.head c s rfl)
      simp [read?, all, text, List.find?, List.isPrefixOf, hc]
  | _ => rfl

theorem span_append {p : Char → Bool} {f : List Char} (hf : ∀ c ∈ f, p c = true)
    (hs : ∀ c r, s = c :: r → p c = false) :
    (f ++ s).takeWhile p = f ∧ (f ++ s).dropWhile p = s := by
  rw [List.takeWhile_append_of_pos hf, List.dropWhile_append_of_pos hf]
  cases s with
  | nil => simp
  | cons c s => simp [hs c s rfl]

theorem IsWord.nameChar {f : List Char} (h : IsWord f) : ∀ c ∈ f, isNameChar c = true := by
  cases h with
  | intro hc hf => simpa [isNameChar_of_isNameStart hc] using hf

theorem splitName_name {f : List Char} {n : String} (h : IsName f) (hs : (Token.name n).Clear s) :
    splitName (f ++ s) = (f, s) := by
  cases h with
  | word hf =>
    obtain ⟨ht, hd⟩ := span_append hf.nameChar hs.head
    rw [splitName, ht, hd]
    split
    next c r =>
      cases hs.colon c r rfl
      rfl
    next => rfl
  | @prefixed f g hf hg =>
    have hcolon : ∀ c r, ':' :: (g ++ s) = c :: r → isNameChar c = false := by
      rintro c r ⟨⟩
      decide
    obtain ⟨ht, hd⟩ := span_append hf.nameChar hcolon
    obtain ⟨ht', hd'⟩ := span_append hg.nameChar hs.head
    cases hg with
    | @intro c g hc hg =>
      rw [List.append_assoc, List.cons_append, splitName, ht, hd]
      show (if isNameStart c = true then _ else _) = _
      rw [if_pos hc]
      exact congrArg₂ Prod.mk (congrArg (f ++ ':' :: ·) ht') hd'

def otherStarts : List Char :=
  ['"', '\'', ':', '/', '.', '[', ']', '(', ')', '@', '|', '!', '=', '*']

theorem Symbol.read?_eq_none {c : Char} (h : c ∉ otherStarts) (s : List Char) :
    read? (c :: s) = none := by
  rw [read?, Option.map_eq_none_iff, List.find?_eq_none]
  intro y _ hp
  obtain ⟨u, hu⟩ := List.isPrefixOf_iff_prefix.1 hp
  cases y <;> cases hu <;> exact h (by decide)

theorem notMem_otherStarts {p : Char → Bool} (h : otherStarts.all (fun c => !p c) = true)
    {c : Char} (hc : p c = true) : c ∉ otherStarts := by
  intro hm
  have := List.all_eq_true.1 h c hm
  simp [hc] at this

theorem Token.read_other {c : Char} (h : c ∉ otherStarts) (s : List Char) :
    Symbol.read? (c :: s) = none ∧ ((c == '"' || c == '\'') && s.contains c) = false := by
  refine ⟨Symbol.read?_eq_none h s, ?_⟩
  simp only [otherStarts, List.mem_cons, not_or] at h
  simp [h.1, h.2.1]

theorem Token.Raw.read {t : Token} {r tail : List Char} {c : Char} (hr : t.Raw r) (hs : t.Clear s)
    (e : r ++ s = c :: tail) : Token.read c tail = .ok (t, s) := by
  cases hr with
  | symbol y =>
    have hread := Symbol.read?_text hs
    rw [e] at hread
    rw [Token.read, hread]
  | @literal q v hq hv =>
    rw [List.cons_append, List.append_assoc, List.singleton_append] at e
    obtain ⟨rfl, rfl⟩ := List.cons.inj e
    have hne : ∀ d ∈ v, (d != q) = true := fun d hd => bne_iff_ne.2 fun e => hv (e ▸ hd)
    have hsymbol : Symbol.read? (q :: (v ++ q :: s)) = none := by rcases hq with rfl | rfl <;> rfl
    rw [Token.read, hsymbol]
    simp [hq, List.takeWhile_append_of_pos hne, List.dropWhile_append_of_pos hne]
  | number hne hf hlt =>
    obtain ⟨d, f, rfl⟩ := List.exists_cons_of_ne_nil hne
    rw [List.cons_append] at e
    obtain ⟨rfl, rfl⟩ := List.cons.inj e
    have hdigits : ∀ c ∈ d :: f, isDecimalDigit c = true :=
      fun c hc => isDecimalDigit_of_isDigit (hf c hc)
    have hdigit := hdigits d List.mem_cons_self
    obtain ⟨ht, hd⟩ := span_append (fun c hc => hdigits c (List.mem_cons_of_mem d hc)) hs.head
    obtain ⟨hsymbol, hquote⟩ := read_other (notMem_otherStarts (by decide) hdigit) (f ++ s)
    have hn : ofDigits (d :: f) = .ok (.number (Nat.ofDigitChars 10 (d :: f) 0)) := by
      rw [ofDigits, (decimal?_eq_some (by decide)).2 ⟨hf, rfl, hlt⟩]
    simp only [Token.read, hsymbol, hquote, hdigit, ht, hd, hn, Bool.false_eq_true, if_false,
      if_true]
  | name hf =>
    have hsplit := splitName_name hf hs
    have hc : isNameStart c = true := by
      obtain ⟨d, f, rfl, hd⟩ := (Raw.name hf).exists_starts
      cases e
      exact hd
    obtain ⟨hsymbol, hquote⟩ := read_other (notMem_otherStarts (by decide) hc) tail
    rw [e] at hsplit
    simp only [Token.read, hsymbol, hquote, isDecimalDigit_nameStart hc, hc, hsplit,
      Bool.false_eq_true, if_false, if_true]

theorem Token.list_cons {b r : List Char} {t : Token} {ts : List Token} (hb : Blank b)
    (hr : t.Raw r) (ht : t.Clear s) (hs : list s = .ok ts) :
    list (b ++ (r ++ s)) = .ok (t :: ts) := by
  obtain ⟨c, f, rfl, hc⟩ := hr.exists_starts
  have hread := hr.read ht rfl
  have htrim : trimLeft (b ++ (c :: f ++ s)) = c :: (f ++ s) := by
    rw [trimLeft_append hb]
    exact List.dropWhile_cons_of_neg (by simp [hc.not_blank])
  rw [list]
  split
  next e => cases htrim.symm.trans e
  next e =>
    cases htrim.symm.trans e
    split
    next e => cases hread.symm.trans e
    next e =>
      cases hread.symm.trans e
      rw [hs]

theorem Token.clear_blank {t : Token} {c : Char} (hc : isBlank c = true) (s : List Char) :
    t.Clear (c :: s) where
  head := by
    rintro d r ⟨⟩
    rw [← Bool.not_eq_true]
    intro h
    cases t with
    | symbol y => cases y <;> simp_all [runsInto] <;> cases hc
    | literal v => cases h
    | number n => exact absurd (isBlank_isDecimalDigit h) (by simp [hc])
    | name n => exact absurd (isBlank_isNameChar h) (by simp [hc])
  colon := by
    rintro d r ⟨⟩
    cases hc

/-- The tokens do not run into each other without blanks between them. -/
def Token.Apart : Token → Token → Prop
  | .symbol .slash, .symbol y => y ≠ .slash ∧ y ≠ .doubleSlash
  | .symbol .dot, .symbol y | .name _, .symbol y => y ≠ .dot ∧ y ≠ .doubleDot
  | .number _, .number _ | .name _, .number _ | .name _, .name _ => False
  | _, _ => True

theorem Token.Starts.exists_symbol {u : Token} {c : Char} (h : u.Starts c)
    (hc : c = '/' ∨ c = '.' ∨ c = ':') : ∃ y, u = .symbol y := by
  cases u with
  | symbol y => exact ⟨y, rfl⟩
  | literal v => rcases hc with rfl | rfl | rfl <;> rcases h with h | h <;> cases h
  | number n => rcases hc with rfl | rfl | rfl <;> cases h
  | name n => rcases hc with rfl | rfl | rfl <;> cases h

theorem Token.Apart.runsInto {t u : Token} {c : Char} (h : t.Apart u) (hc : u.Starts c) :
    t.runsInto c = false := by
  rw [← Bool.not_eq_true]
  intro hr
  cases t with
  | literal v => cases hr
  | symbol y =>
    have hpoint : c = '/' ∨ c = '.' ∨ c = ':' := by cases y <;> simp_all [Token.runsInto]
    obtain ⟨z, rfl⟩ := hc.exists_symbol hpoint
    cases y <;> cases z <;> simp_all [Token.runsInto, Starts, Apart, Symbol.text]
  | number n =>
    cases u with
    | symbol z => cases z <;> cases hc <;> cases hr
    | literal v => rcases hc with rfl | rfl <;> cases hr
    | number m => exact h
    | name n => simp [isDecimalDigit_nameStart hc, Token.runsInto] at hr
  | name n =>
    cases u with
    | symbol z =>
      obtain ⟨hdot, hdots⟩ := h
      cases z <;> cases hc <;> first | exact hdot rfl | exact hdots rfl | cases hr
    | literal v => rcases hc with rfl | rfl <;> cases hr
    | number m => exact h
    | name m => exact h

theorem Token.Raw.colon {u : Token} {r s t : List Char} {c : Char} (h : u.Raw r)
    (e : r ++ s = ':' :: c :: t) : c = ':' := by
  obtain ⟨d, f, rfl, hd⟩ := h.exists_starts
  obtain ⟨rfl, -⟩ := List.cons.inj e
  obtain ⟨y, rfl⟩ := hd.exists_symbol (.inr (.inr rfl))
  cases y <;> cases hd
  cases h
  cases e
  rfl

theorem Token.Apart.clear {t u : Token} {r : List Char} (h : t.Apart u) (hr : u.Raw r)
    (s : List Char) : t.Clear (r ++ s) where
  head := by
    obtain ⟨c, f, rfl, hc⟩ := hr.exists_starts
    rintro d r ⟨⟩
    exact h.runsInto hc
  colon _ _ e := hr.colon e

theorem Layout.clear {t : Token} {ps : List Spaced} (h : Layout ps s)
    (hc : (t :: ps.map Spaced.token).IsChain Token.Apart) : t.Clear s := by
  cases h with
  | nil hb =>
    cases s with
    | nil => exact ⟨nofun, nofun⟩
    | cons c s => exact Token.clear_blank (hb c List.mem_cons_self) s
  | @cons b r s u ps hb hr h =>
    cases b with
    | nil => exact (List.isChain_cons_cons.1 hc).1.clear hr s
    | cons c b => exact Token.clear_blank (hb c List.mem_cons_self) _

/-- A text is read as the tokens that it is laid out as. -/
theorem Layout.list_eq {ps : List Spaced} (h : Layout ps s)
    (hc : (ps.map Spaced.token).IsChain Token.Apart) :
    Token.list s = .ok (ps.map Spaced.token) := by
  induction h with
  | nil hb => exact Token.list_blank (List.dropWhile_eq_nil_iff.2 hb)
  | cons hb hr h ih => exact Token.list_cons hb hr (h.clear hc) (ih hc.tail)

end Writing

end Stylesheet.Query
