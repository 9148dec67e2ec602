import Mathlib
import Stylesheet.Proofs.Pattern.Spelling
import Stylesheet.Proofs.Query.Context
import Stylesheet.Proofs.Query.Seam

/-! Numbers that attributes are compared with. The lexer takes the digits for a number, and the
parser writes the number down again, so that the comparison is with the digits of the number and
not with those of the text. They are the same but for leading zeros. -/

namespace Stylesheet

/-! ### Digits -/

namespace Text

/-- The digits without the leading zeros, and one zero if there is nothing else. -/
def unpadded : List Char → List Char
  | '0' :: c :: s => unpadded (c :: s)
  | s => s

theorem unpadded_of_ne {s : List Char} (h : ∀ c t, s ≠ '0' :: c :: t) : unpadded s = s :=
  unpadded.eq_2 s h

theorem length_unpadded_le (s : List Char) : (unpadded s).length ≤ s.length := by
  induction s using unpadded.induct with
  | case1 c s ih => exact Nat.le_succ_of_le ih
  | case2 s leading => rw [unpadded_of_ne leading]

theorem mem_of_mem_unpadded {c : Char} {s : List Char} (h : c ∈ unpadded s) : c ∈ s := by
  induction s using unpadded.induct with
  | case1 e s ih => exact List.mem_cons_of_mem _ (ih h)
  | case2 s leading => rwa [unpadded_of_ne leading] at h

theorem unpadded_eq_self {s : List Char} : unpadded s = s ↔ ∀ c t, s ≠ '0' :: c :: t := by
  constructor
  · rintro h c t rfl
    have := length_unpadded_le (c :: t)
    rw [unpadded] at h
    rw [h] at this
    exact Nat.not_succ_le_self _ this
  · exact unpadded_of_ne

theorem toDigits_digit {c : Char} (h : c.isDigit = true) :
    c.toNat - '0'.toNat < 10 ∧ Nat.toDigits 10 (c.toNat - '0'.toNat) = [c] := by
  obtain ⟨lo, hi⟩ := Char.isDigit_iff_toNat.1 h
  have hlt : c.toNat - '0'.toNat < 10 := by
    have : '9'.toNat - '0'.toNat < 10 := by decide
    omega
  have hc : Nat.digitChar (c.toNat - '0'.toNat) = c := by
    apply Char.toNat_inj.1
    rw [Nat.toNat_digitChar_of_lt_ten hlt]
    exact Nat.add_sub_of_le lo
  exact ⟨hlt, (Nat.toDigits_of_lt_base hlt).trans (congrArg ([·]) hc)⟩

theorem toDigits_ofDigitChars_of_pos {s : List Char} (hs : ∀ c ∈ s, c.isDigit = true) {n : Nat}
    (hn : 0 < n) : Nat.toDigits 10 (Nat.ofDigitChars 10 s n) = Nat.toDigits 10 n ++ s := by
  induction s generalizing n with
  | nil => simp
  | cons c s ih =>
    obtain ⟨hc, hs⟩ := List.forall_mem_cons.1 hs
    obtain ⟨hlt, digit⟩ := toDigits_digit hc
    rw [Nat.ofDigitChars_cons, ih hs (by omega), ← Nat.toDigits_append_toDigits (by decide) hn hlt,
      digit, List.append_assoc, List.singleton_append]

theorem toDigits_ofDigitChars {s : List Char} (hne : s ≠ []) (hs : ∀ c ∈ s, c.isDigit = true) :
    Nat.toDigits 10 (Nat.ofDigitChars 10 s 0) = unpadded s := by
  induction s using unpadded.induct with
  | case1 c s ih => exact ih (List.cons_ne_nil c s) fun d hd => hs d (List.mem_cons_of_mem _ hd)
  | case2 s leading =>
    rw [unpadded_of_ne leading]
    obtain ⟨c, s, rfl⟩ := List.exists_cons_of_ne_nil hne
    obtain ⟨hc, hs⟩ := List.forall_mem_cons.1 hs
    obtain ⟨hlt, digit⟩ := toDigits_digit hc
    rw [Nat.ofDigitChars_cons, Nat.mul_zero, Nat.zero_add]
    cases s with
    | nil => exact digit
    | cons d s =>
      have hpos : 0 < c.toNat - '0'.toNat := by
        have lo := (Char.isDigit_iff_toNat.1 hc).1
        have hzero : c.toNat ≠ '0'.toNat := fun e => leading d s (by rw [Char.toNat_inj.1 e])
        omega
      rw [toDigits_ofDigitChars_of_pos hs hpos, digit]
      rfl

theorem toString_ofDigitChars {s : List Char} (hne : s ≠ []) (hs : ∀ c ∈ s, c.isDigit = true) :
    toString (Nat.ofDigitChars 10 s 0) = String.ofList (unpadded s) := by
  rw [Nat.toString_eq_ofList_toDigits, toDigits_ofDigitChars hne hs]

end Text

namespace Query

open Text

/-! ### Reading -/

variable {b s w : List Char} {ts us : List Token}

theorem Laid.of_raw {t : Token} {r : List Char} (h : t.Raw r) : Laid [t] r :=
  ⟨_, .single h, rfl⟩

theorem Laid.exists_raw {t : Token} (h : Laid ts s) (ht : t ∈ ts) : ∃ r, t.Raw r := by
  obtain ⟨ps, h, rfl⟩ := h
  induction h with
  | nil => cases ht
  | cons hb hr h ih =>
    rcases List.mem_cons.1 ht with rfl | ht
    · exact ⟨_, hr⟩
    · exact ih ht

theorem Token.raw_of_name {k : String} (h : list s = .ok ts) (hk : .name k ∈ ts) :
    (Token.name k).Raw k.toList := by
  obtain ⟨r, hr⟩ := Laid.exists_raw (list_layout h) hk
  cases hr with
  | name hn => exact raw_name (by rwa [String.toList_ofList])

theorem Token.list_digits (hne : w ≠ []) (hw : ∀ c ∈ w, isDecimalDigit c = true)
    (hb : ∀ c ∈ b.head?, isDecimalDigit c = false) (h : list (w ++ b) = .ok ts) :
    ∃ us, ts = .number (Nat.ofDigitChars 10 w 0) :: us ∧ list b = .ok us ∧
      (∀ c ∈ w, c.isDigit = true) ∧ (Token.number (Nat.ofDigitChars 10 w 0)).Raw w := by
  obtain ⟨c, w, rfl⟩ := List.exists_cons_of_ne_nil hne
  obtain ⟨hc, hw⟩ := List.forall_mem_cons.1 hw
  have htrim : trimLeft (c :: (w ++ b)) = c :: (w ++ b) :=
    List.dropWhile_cons_of_neg (by simp [isBlank_isDecimalDigit hc])
  obtain ⟨t, rest, us, hr, hus, rfl⟩ := list_eq_ok htrim h
  obtain ⟨hsymbol, hquote⟩ := read_other (notMem_otherStarts (by decide) hc) (w ++ b)
  obtain ⟨htake, hdrop⟩ := span_append (s := b) hw fun e r he => hb e (he ▸ rfl)
  simp only [read, hsymbol, hquote, hc, htake, hdrop, Bool.false_eq_true, if_false, if_true] at hr
  split at hr
  next u hu =>
    cases hr
    rw [ofDigits] at hu
    split at hu
    next n hn =>
      cases hu
      obtain ⟨digits, rfl, hlt⟩ := (decimal?_eq_some (by decide)).1 hn
      exact ⟨us, rfl, hus, digits, .number hne digits hlt⟩
    next => cases hu
  next => cases hr

def sign (equal : Bool) : Symbol := if equal then .equal else .notEqual

theorem sign_clear (equal : Bool) {c : Char} (hc : isDecimalDigit c = true) (s : List Char) :
    (Token.symbol (sign equal)).Clear (c :: s) where
  head _ _ _ := by cases equal <;> rfl
  colon d r e := by
    obtain ⟨rfl, -⟩ := List.cons.inj e
    cases hc

/-! ### Other operands -/

section Operands

variable {u v : List Token} {z : Symbol} {equal : Bool} {o p : Operand} {k : Part}

theorem Operand.token_ne (o : Operand) (z : Symbol) : o.token ≠ .symbol z := by
  cases o <;> exact Token.noConfusion

theorem append_cons_eq_append_sign (hz : z ≠ sign equal)
    (h : ts ++ .symbol z :: us = u ++ .symbol (sign equal) :: o.token :: v) :
    (∃ x, ts = u ++ .symbol (sign equal) :: o.token :: x ∧ v = x ++ .symbol z :: us) ∨
      ∃ x, u = ts ++ .symbol z :: x ∧ us = x ++ .symbol (sign equal) :: o.token :: v := by
  rcases append_cons_eq_append_cons (fun e => hz (Token.symbol.inj e)) h with ⟨x, rfl, hx⟩ | h
  · obtain ⟨y, rfl, rfl⟩ := cons_eq_append_cons (o.token_ne z) hx
    exact .inl ⟨y, rfl, rfl⟩
  · exact .inr h

theorem comparisonTokens_eq_append_sign {c : Option (Bool × Operand)}
    (h : comparisonTokens c = u ++ .symbol (sign equal) :: o.token :: v) :
    c = some (equal, o) ∧ u = [] ∧ v = [] := by
  cases c with
  | none => exact absurd h (ne_append_cons List.not_mem_nil)
  | some c =>
    have length := congrArg List.length h
    rw [comparisonTokens, List.length_append] at length
    simp only [List.length_cons, List.length_nil] at length
    obtain rfl : u = [] := List.length_eq_zero_iff.1 (by omega)
    obtain rfl : v = [] := List.length_eq_zero_iff.1 (by omega)
    have same : comparisonTokens (some c) = comparisonTokens (some (equal, o)) := h
    exact ⟨comparisonTokens_injective same, rfl, rfl⟩

/-- An operand of the same value can be written in the place of one. -/
theorem Phrase.exists_operand (e : Phrase k) (ho : p.value = o.value)
    (h : e.tokens = u ++ .symbol (sign equal) :: o.token :: v) : ∃ f : Phrase k,
      f.tokens = u ++ .symbol (sign equal) :: p.token :: v ∧ f.tree = e.tree := by
  induction e generalizing u v with
  | alone e ih =>
    obtain ⟨f, hf, tree⟩ := ih h
    exact ⟨.alone f, hf, congrArg (fun t : Path => [t]) tree⟩
  | union e q ihe ihq =>
    rcases append_cons_eq_append_sign (by cases equal <;> decide) h with
      ⟨x, hx, rfl⟩ | ⟨x, rfl, hx⟩
    · obtain ⟨f, hf, tree⟩ := ihe hx
      exact ⟨.union f q, by simp [tokens, hf], congrArg (fun t : Path => t :: q.tree) tree⟩
    · obtain ⟨f, hf, tree⟩ := ihq hx
      exact ⟨.union e f, by simp [tokens, hf], congrArg (e.tree :: ·) tree⟩
  | root => exact absurd h (ne_append_cons (by cases equal <;> simp [tokens, sign]))
  | absolute l ss ih =>
    have hl : Token.symbol l.symbol ≠ .symbol (sign equal) := by
      cases l <;> cases equal <;> decide
    obtain ⟨x, rfl, hx⟩ := cons_eq_append_cons hl h
    obtain ⟨f, hf, tree⟩ := ih hx
    exact ⟨.absolute l f, congrArg (_ :: ·) hf, congrArg (fun t => Path.mk true (l.before t)) tree⟩
  | relative ss ih =>
    obtain ⟨f, hf, tree⟩ := ih h
    exact ⟨.relative f, hf, congrArg (Path.mk false) tree⟩
  | last e ih =>
    obtain ⟨f, hf, tree⟩ := ih h
    exact ⟨.last f, hf, congrArg (fun t : Step => [t]) tree⟩
  | join e l ss ihe ihss =>
    have hl : l.symbol ≠ sign equal := by cases l <;> cases equal <;> decide
    rcases append_cons_eq_append_sign hl h with ⟨x, hx, rfl⟩ | ⟨x, rfl, hx⟩
    · obtain ⟨f, hf, tree⟩ := ihe hx
      exact ⟨.join f l ss, by simp [tokens, hf],
        congrArg (fun t : Step => t :: l.before ss.tree) tree⟩
    · obtain ⟨f, hf, tree⟩ := ihss hx
      exact ⟨.join e l f, by simp [tokens, hf], congrArg (e.tree :: l.before ·) tree⟩
  | dot => exact absurd h (ne_append_cons (by cases equal <;> simp [tokens, sign]))
  | doubleDot => exact absurd h (ne_append_cons (by cases equal <;> simp [tokens, sign]))
  | tested axis test ps ih =>
    rw [tokens, ← List.append_assoc] at h
    rcases append_eq_append_cons h with ⟨x, hx⟩ | ⟨x, rfl, hx⟩
    · have hsign := symbol_notMem_head (y := sign equal) (by cases equal <;> decide) axis test
      exact absurd hx (ne_append_cons hsign)
    · obtain ⟨f, hf, tree⟩ := ih hx
      exact ⟨.tested axis test f, by simp [tokens, hf], congrArg (Step.mk _ _) tree⟩
  | none => exact absurd h (ne_append_cons List.not_mem_nil)
  | more r ps ihr ihps =>
    obtain ⟨x, rfl, hx⟩ := cons_eq_append_cons (by cases equal <;> decide) h
    rcases append_cons_eq_append_sign (by cases equal <;> decide) hx with
      ⟨y, hy, rfl⟩ | ⟨y, rfl, hy⟩
    · obtain ⟨f, hf, tree⟩ := ihr hy
      exact ⟨.more f ps, by simp [tokens, hf], congrArg (fun t : Predicate => t :: ps.tree) tree⟩
    · obtain ⟨f, hf, tree⟩ := ihps hy
      exact ⟨.more r f, by simp [tokens, hf], congrArg (r.tree :: ·) tree⟩
  | position n => exact absurd h (ne_append_cons (by simp [tokens]))
  | attributed name c =>
    obtain ⟨x, rfl, hx⟩ := cons_eq_append_cons (by cases equal <;> decide) h
    obtain ⟨y, rfl, hy⟩ := cons_eq_append_cons Token.noConfusion hx
    obtain ⟨rfl, rfl, rfl⟩ := comparisonTokens_eq_append_sign hy
    exact ⟨.attributed name (some (equal, p)), rfl,
      congrArg (fun t => Predicate.attribute name (some ⟨equal, t⟩)) ho⟩
  | not q ih =>
    obtain ⟨x, rfl, hx⟩ := cons_eq_append_cons Token.noConfusion h
    obtain ⟨y, rfl, hy⟩ := cons_eq_append_cons (by cases equal <;> decide) hx
    rcases append_cons_eq_append_sign (by cases equal <;> decide) hy with
      ⟨z, hz, rfl⟩ | ⟨z, -, hz⟩
    · obtain ⟨f, hf, tree⟩ := ih hz
      exact ⟨.not f, by simp [tokens, hf], congrArg Predicate.not tree⟩
    · exact absurd hz (ne_append_cons List.not_mem_nil)
  | selects q ih =>
    obtain ⟨f, hf, tree⟩ := ih h
    exact ⟨.selects f, hf, congrArg Predicate.selects tree⟩

end Operands

/-! ### Selecting -/

open Document

def withAttribute (k : String) (r : List Char) : String :=
  .ofList ("self::node()[@".toList ++ (k.toList ++ '=' :: (r ++ [']'])))

def Phrase.withAttribute (k : String) (o : Operand) : Phrase .query :=
  .alone <| .relative <| .last <| .tested (some .self) (.bare .node false) <|
    .more (.attributed k (some (true, o))) .none

theorem Phrase.spells_withAttribute {k : String} (hk : (Token.name k).Raw k.toList) {o : Operand}
    {r : List Char} (hr : o.token.Raw r) :
    (Phrase.withAttribute k o).Spells (Query.withAttribute k r) := by
  have front : Token.list "self::node()[@".toList = .ok [.name "self", .symbol .doubleColon,
      .name "node", .symbol .leftParen, .symbol .rightParen, .symbol .leftBracket,
      .symbol .atSign] := by cbv
  have laid := Laid.append (Token.list_layout front) <| (Laid.of_raw hk).append <|
    (Laid.of_raw (.symbol .equal)).append <| (Laid.of_raw hr).append <|
    Laid.of_raw (.symbol .rightBracket)
  show Laid _ (String.toList (.ofList _))
  rw [String.toList_ofList]
  exact laid

variable {d : Document} {k : String} {o : Operand}

theorem Phrase.mem_select_withAttribute {n m : d.Node} :
    m ∈ select (Phrase.withAttribute k o).tree n ↔ m = n ∧ n.attribute? k = some o.value := by
  have tree : (Phrase.withAttribute k o).tree
      = [.mk false [.mk .self .any [.attribute k (some ⟨true, o.value⟩)]]] := rfl
  refine mem_select.trans ?_
  simp only [tree, Leads, Path.Leads, Chain, Step.Leads, Survives, Axis.Relates, NodeTest.Admits,
    Predicate.Meets, HasAttribute]
  constructor
  · rintro (⟨x, ⟨⟨rfl, -⟩, value, hx, hv⟩, rfl⟩ | h)
    · refine ⟨rfl, hx.trans (congrArg some ?_)⟩
      exact (hv _ rfl).2 rfl
    · cases h
  · rintro ⟨rfl, h⟩
    refine .inl ⟨m, ⟨⟨rfl, trivial⟩, _, h, ?_⟩, rfl⟩
    rintro c ⟨⟩
    exact iff_of_true rfl rfl

theorem accepts_withAttribute (hk : (Token.name k).Raw k.toList) {r : List Char}
    (hr : o.token.Raw r) (n : d.Node) :
    (Evaluator.ofQueries d).accepts (withAttribute k r) n
      = .ok (n.attribute? k == some o.value) := by
  have parsed := Phrase.parse_of_spells (Phrase.spells_withAttribute hk hr)
  rw [(answers_of_parse_ok parsed n).2, Except.ok.injEq, Bool.eq_iff_iff, beq_iff_eq,
    Bool.not_eq_true', List.isEmpty_eq_false_iff_exists_mem]
  simp only [Phrase.mem_select_withAttribute, exists_eq_left]

end Query

namespace Pattern

open Query Document Text

/-- The text between `a` and `b` is a number, and an attribute is compared with it. -/
structure IsCompared (k : String) (a w b : List Char) : Prop where
  before : ∃ (ts : List Token) (equal : Bool),
    Token.list a = .ok (ts ++ [.symbol .atSign, .name k, .symbol (sign equal)])
  nonempty : w ≠ []
  digits : ∀ c ∈ w, isDecimalDigit c = true
  after : ∀ c ∈ b.head?, isDecimalDigit c = false
  accepted : Accepted (.ofList (a ++ (w ++ b)))

variable {k : String} {a b w : List Char}

theorem raw_digits {q : Char} (hq : isQuote q = true) (hw : ∀ c ∈ w, c.isDigit = true) :
    (Token.literal (.ofList (unpadded w))).Raw (q :: (unpadded w ++ [q])) := by
  refine .literal (by simpa [isQuote] using hq) fun hmem => ?_
  have digit := isDecimalDigit_of_isDigit (hw q (mem_of_mem_unpadded hmem))
  exact Bool.false_ne_true ((isQuote_of_notMem (digit_notMem_signs digit)).symm.trans hq)

theorem IsCompared.read (h : IsCompared k a w b) : ∃ (ts us : List Token) (equal : Bool),
    Token.list a = .ok (ts ++ [.symbol .atSign, .name k, .symbol (sign equal)]) ∧
      Token.list (a ++ (w ++ b)) = .ok (ts ++ .symbol .atSign :: .name k ::
        .symbol (sign equal) :: .number (Nat.ofDigitChars 10 w 0) :: us) ∧
      Token.list b = .ok us ∧ (∀ c ∈ w, c.isDigit = true) ∧
      (Token.number (Nat.ofDigitChars 10 w 0)).Raw w := by
  obtain ⟨ts, equal, ha⟩ := h.before
  obtain ⟨q, hP⟩ := h.accepted
  obtain ⟨e, he, rfl⟩ := parse_eq_ok.1 hP
  rw [String.toList_ofList] at he
  have seam : (Token.symbol (sign equal)).Clear (w ++ b) := by
    obtain ⟨c, w, rfl⟩ := List.exists_cons_of_ne_nil h.nonempty
    exact sign_clear equal (h.digits c List.mem_cons_self) _
  obtain ⟨vs, hvs, hwb⟩ := Token.list_of_append ha (by simpa using seam) he
  obtain ⟨us, rfl, hb, digits⟩ := Token.list_digits h.nonempty h.digits h.after hwb
  refine ⟨ts, us, equal, ha, ?_, hb, digits⟩
  rw [he, hvs, List.append_assoc]
  rfl

theorem IsCompared.parse_eq (h : IsCompared k a w b) {q : Char} (hq : isQuote q = true) :
    ∃ t, parse (.ofList (a ++ (w ++ b))) = .ok t ∧
      parse (.ofList (a ++ (q :: (unpadded w ++ q :: b)))) = .ok t := by
  obtain ⟨ts, us, equal, ha, hw, hb, digits, -⟩ := h.read
  obtain ⟨t, hP⟩ := h.accepted
  obtain ⟨e, he, rfl⟩ := parse_eq_ok.1 hP
  rw [String.toList_ofList, hw, Except.ok.injEq] at he
  have value := toString_ofDigitChars h.nonempty digits
  obtain ⟨f, hf, same⟩ := e.exists_operand (u := ts ++ [.symbol .atSign, .name k])
    (o := .number (Nat.ofDigitChars 10 w 0)) (p := .literal (.ofList (unpadded w))) value.symm
    (by rw [← he, List.append_assoc]; rfl)
  have laid := Laid.append (Token.list_layout ha) <| (Laid.of_raw (raw_digits hq digits)).append <|
    Token.list_layout hb
  have spells : f.Spells (.ofList (a ++ (q :: (unpadded w ++ q :: b)))) := by
    show Laid _ (String.toList (.ofList _))
    rw [String.toList_ofList, hf]
    simpa [Operand.token] using laid
  refine ⟨e.tree, hP, ?_⟩
  rw [← same]
  exact Phrase.parse_of_spells spells

/-- The number stands for the literal of its digits, except for zeros in front of them. -/
theorem compared_with_number (h : IsCompared k a w b) {q : Char} (hq : isQuote q = true) :
    let P := String.ofList (a ++ (w ++ b))
    let P' := String.ofList (a ++ (q :: (unpadded w ++ q :: b)))
    Accepted P' ∧ (∀ (d : Document) (n : d.Node),
        (Evaluator.ofQueries d).select P' n = (Evaluator.ofQueries d).select P n ∧
          (Evaluator.ofQueries d).accepts P' n = (Evaluator.ofQueries d).accepts P n ∧
          (Evaluator.ofQueries d).accepts (withAttribute k w) n
            = .ok (n.attribute? k == some (.ofList (unpadded w)))) ∧
      (unpadded w = w ↔ ∀ c s, w ≠ '0' :: c :: s) := by
  intro P P'
  obtain ⟨t, hP, hP'⟩ := h.parse_eq hq
  obtain ⟨ts, us, equal, ha, -, -, digits, raw⟩ := h.read
  have hk : (Token.name k).Raw k.toList := Token.raw_of_name ha (by simp)
  refine ⟨⟨t, hP'⟩, fun d n => ⟨?_, ?_, ?_⟩, unpadded_eq_self⟩
  · exact (answers_of_parse_ok hP' n).1.trans (answers_of_parse_ok hP n).1.symm
  · exact (answers_of_parse_ok hP' n).2.trans (answers_of_parse_ok hP n).2.symm
  · rw [← toString_ofDigitChars h.nonempty digits]
    exact accepts_withAttribute (o := .number _) hk raw n

/-- A comparison inside of a negation, in a predicate before a position. -/
theorem compared_with_number_nested :
    let P := "list/item[not(p[@k != 105])][2]"
    let P' := "list/item[not(p[@k != '105'])][2]"
    IsCompared "k" "list/item[not(p[@k != ".toList "105".toList "])][2]".toList ∧
      isQuote '\'' = true ∧ Accepted P' ∧ ∀ (d : Document) (n : d.Node),
        (Evaluator.ofQueries d).select P' n = (Evaluator.ofQueries d).select P n ∧
          (Evaluator.ofQueries d).accepts P' n = (Evaluator.ofQueries d).accepts P n ∧
          (Evaluator.ofQueries d).accepts "self::node()[@k=105]" n
            = .ok (n.attribute? "k" == some "105") := by
  intro P P'
  have h : IsCompared "k" "list/item[not(p[@k != ".toList "105".toList "])][2]".toList := {
    before := ⟨[.name "list", .symbol .slash, .name "item", .symbol .leftBracket, .name "not",
      .symbol .leftParen, .name "p", .symbol .leftBracket], false, by cbv⟩
    nonempty := by decide
    digits := List.all_eq_true.1 (by cbv)
    after c hc := by cases (Option.some.inj hc : ']' = c); rfl
    accepted := ⟨_, by cbv⟩ }
  obtain ⟨accepted, same, -⟩ := compared_with_number h (q := '\'') rfl
  exact ⟨h, rfl, accepted, same⟩

/-- The literal with the zeros finds an attribute that the number does not find. -/
theorem compared_with_padded : ¬∀ (k : String) (a w b : List Char) (q : Char),
    IsCompared k a w b → isQuote q = true → ∀ (d : Document) (n : d.Node),
      (Evaluator.ofQueries d).select (.ofList (a ++ (q :: (w ++ q :: b)))) n
        = (Evaluator.ofQueries d).select (.ofList (a ++ (w ++ b))) n := by
  intro h
  let d := Document.empty.append Document.empty.root (.element "p" [("a", "007")])
  let n : d.Node := ⟨1, by decide⟩
  have compared : IsCompared "a" "self::p[@a=".toList "007".toList "]".toList := {
    before := ⟨[.name "self", .symbol .doubleColon, .name "p", .symbol .leftBracket], true, by cbv⟩
    nonempty := by decide
    digits := List.all_eq_true.1 (by cbv)
    after c hc := by cases (Option.some.inj hc : ']' = c); rfl
    accepted := ⟨_, by cbv⟩ }
  have same := h _ _ _ _ '\'' compared rfl d n
  have found : (Evaluator.ofQueries d).select "self::p[@a='007']" n = .ok [n] := by cbv
  have missed : (Evaluator.ofQueries d).select "self::p[@a=007]" n = .ok [] := by cbv
  cases found.symm.trans (same.trans missed)

end Pattern

end Stylesheet
