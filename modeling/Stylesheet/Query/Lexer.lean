import Stylesheet.Query.Fault
import Stylesheet.Text.Blank
import Stylesheet.Text.Decimal
import Stylesheet.Text.Digit
import Stylesheet.Text.WordChar

/-! Reading a path as tokens, with any blanks between them. -/

namespace Stylesheet.Query

open Text

def isNameStart (c : Char) : Bool := isLetter c || c == '_'

def isNameChar (c : Char) : Bool := isWordChar c || c == '.' || c == '-'

/-- The name at the start of `s`, with at most one colon, and the rest. -/
def splitName (s : List Char) : List Char × List Char :=
  let head := s.takeWhile isNameChar
  match s.dropWhile isNameChar with
  | ':' :: c :: rest =>
    if isNameStart c then
      (head ++ ':' :: (c :: rest).takeWhile isNameChar, (c :: rest).dropWhile isNameChar)
    else (head, ':' :: c :: rest)
  | rest => (head, rest)

def Symbol.read? (s : List Char) : Option (Symbol × List Char) :=
  (all.find? fun y => y.text.isPrefixOf s).map fun y => (y, s.drop y.text.length)

/-- Numbers have ASCII digits and fit into 64 bits. -/
def Token.ofDigits (digits : List Char) : Except Fault Token :=
  match decimal? 18446744073709551616 digits with
  | some n => .ok (.number n)
  | none => .error (.badNumber (String.ofList digits))

/-- The token at the start of `c :: s`. -/
def Token.read (c : Char) (s : List Char) : Except Fault (Token × List Char) :=
  match Symbol.read? (c :: s) with
  | some (y, rest) => .ok (.symbol y, rest)
  | none =>
    if (c == '"' || c == '\'') && s.contains c then
      .ok (.literal (String.ofList (s.takeWhile (· != c))), (s.dropWhile (· != c)).tail)
    else if isDecimalDigit c then
      match ofDigits (c :: s.takeWhile isDecimalDigit) with
      | .ok t => .ok (t, s.dropWhile isDecimalDigit)
      | .error e => .error e
    else if isNameStart c then
      .ok (.name (String.ofList (splitName (c :: s)).1), (splitName (c :: s)).2)
    else .error (.unexpectedInput (String.ofList (c :: s)))

theorem length_dropWhile_le {α : Type} (p : α → Bool) (s : List α) :
    (s.dropWhile p).length ≤ s.length :=
  (List.dropWhile_sublist p).length_le

theorem Symbol.text_pos (y : Symbol) : 0 < y.text.length := by
  cases y <;> decide

theorem toNat_lt_of_isNameStart {c : Char} (h : isNameStart c = true) : c.toNat < 128 := by
  simp only [isNameStart, isLetter, Bool.or_eq_true, Bool.and_eq_true, decide_eq_true_eq,
    beq_iff_eq] at h
  rcases h with (⟨-, h⟩ | ⟨-, h⟩) | rfl
  · exact Nat.lt_of_le_of_lt (UInt32.le_iff_toNat_le.1 h) (by decide)
  · exact Nat.lt_of_le_of_lt (UInt32.le_iff_toNat_le.1 h) (by decide)
  · decide

theorem isNameChar_of_isNameStart {c : Char} (h : isNameStart c = true) : isNameChar c = true := by
  have hc := toNat_lt_of_isNameStart h
  simp only [isNameStart, isNameChar, isWordChar, if_pos hc, Bool.or_eq_true] at h ⊢
  rcases h with h | h <;> simp [h]

theorem splitName_length {c : Char} {s : List Char} (h : isNameStart c = true) :
    (splitName (c :: s)).2.length ≤ s.length := by
  have hc := isNameChar_of_isNameStart h
  have hd := length_dropWhile_le isNameChar s
  simp only [splitName, List.dropWhile_cons_of_pos hc]
  split
  next d rest e =>
    have := length_dropWhile_le isNameChar (d :: rest)
    rw [e] at hd
    split
    · exact Nat.le_trans this (by simp at hd ⊢; omega)
    · exact hd
  next => exact hd

theorem Token.read_length {c : Char} {s rest : List Char} {t : Token}
    (h : read c s = .ok (t, rest)) : rest.length ≤ s.length := by
  unfold read at h
  split at h
  next y r e =>
    simp only [Symbol.read?, Option.map_eq_some_iff] at e
    obtain ⟨z, -, hz⟩ := e
    have := z.text_pos
    simp at h hz
    obtain ⟨-, rfl⟩ := h
    obtain ⟨-, rfl⟩ := hz
    simp
    omega
  next =>
    split at h
    · have := length_dropWhile_le (· != c) s
      simp at h
      obtain ⟨-, rfl⟩ := h
      simp
      omega
    · split at h
      · have := length_dropWhile_le isDecimalDigit s
        split at h <;> simp at h
        obtain ⟨-, rfl⟩ := h
        exact this
      · split at h
        next hn =>
          simp at h
          obtain ⟨-, rfl⟩ := h
          exact splitName_length hn
        next => simp at h

/-- The tokens of `s`; the first fault from the left ends the reading. -/
def Token.list (s : List Char) : Except Fault (List Token) :=
  match _h : trimLeft s with
  | [] => .ok []
  | c :: tail =>
    match _ht : Token.read c tail with
    | .error e => .error e
    | .ok (t, rest) =>
      match Token.list rest with
      | .error e => .error e
      | .ok ts => .ok (t :: ts)
termination_by s.length
decreasing_by
  have h := length_dropWhile_le isBlank s
  have ht := Token.read_length _ht
  rw [← trimLeft, _h] at h
  simp at h
  omega

end Stylesheet.Query
