import Mathlib
import Stylesheet.Proofs.Query.Layout

/-! Texts put together. The lexer makes each token as long as it can, so that it misses the seam
between two texts only where the last token of the first one goes on in the second. -/

namespace Stylesheet.Query

open Text

/-- The text consists of the tokens, each of them ended by what comes after it. -/
inductive Munched : List Token → List Char → Prop
  | nil {b : List Char} (hb : Blank b) : Munched [] b
  | cons {b f s : List Char} {t : Token} {ts : List Token} (hb : Blank b) (hf : t.Raw f)
      (hs : t.Clear s) (h : Munched ts s) : Munched (t :: ts) (b ++ (f ++ s))

variable {c d : Char} {b s r : List Char} {t : Token} {ts us : List Token}

theorem dropWhile_stops {p : Char → Bool} (h : s.dropWhile p = d :: r) : p d = false := by
  have := List.head?_dropWhile_not p s
  simpa [h] using this

theorem Symbol.read?_stops {y : Symbol} (h : read? s = some (y, d :: r)) :
    (Token.symbol y).runsInto d = false := by
  obtain rfl := read?_append h
  rw [← Bool.not_eq_true]
  intro hd
  cases y with
  | slash =>
    cases beq_iff_eq.1 hd
    have twice : read? ('/' :: '/' :: r) = some (.doubleSlash, r) := rfl
    cases twice.symm.trans h
  | dot =>
    cases beq_iff_eq.1 hd
    have twice : read? ('.' :: '.' :: r) = some (.doubleDot, r) := rfl
    cases twice.symm.trans h
  | _ => cases hd

theorem splitName_stops (h : (splitName s).2 = d :: r) : isNameChar d = false := by
  rw [splitName] at h
  split at h
  next _ _ e =>
    split at h
    · exact dropWhile_stops h
    · cases h
      exact dropWhile_stops e
  next => exact dropWhile_stops h

theorem Token.read_stops {rest : List Char} (h : read c s = .ok (t, rest)) (e : rest = d :: r) :
    t.runsInto d = false := by
  rw [read] at h
  split at h
  next y u hy =>
    cases h
    subst e
    exact Symbol.read?_stops hy
  next =>
    split at h
    · cases h
      rfl
    · split at h
      · split at h
        next u hu =>
          cases h
          rw [ofDigits] at hu
          split at hu
          · cases hu
            exact dropWhile_stops e
          · cases hu
        next => cases h
      · split at h
        · cases h
          exact splitName_stops e
        · cases h

theorem Token.Raw.two_colons {f : List Char} (h : t.Raw f) (e : f ++ s = ':' :: r) :
    ∃ u, r = ':' :: u := by
  obtain ⟨d, f, rfl, hd⟩ := h.exists_starts
  obtain ⟨rfl, -⟩ := List.cons.inj e
  obtain ⟨y, rfl⟩ := hd.exists_symbol (.inr (.inr rfl))
  cases y <;> cases hd
  cases h
  cases e
  exact ⟨s, rfl⟩

theorem Munched.two_colons (h : Munched ts (':' :: s)) : ∃ r, s = ':' :: r := by
  generalize e : ':' :: s = u at h
  cases h with
  | nil hb => exact absurd (hb ':' (by simp [← e])) (by decide)
  | @cons b f s' t ts hb hf hs h =>
    cases b with
    | nil => exact hf.two_colons e.symm
    | cons c b =>
      obtain ⟨rfl, -⟩ := List.cons.inj e
      exact absurd (hb ':' List.mem_cons_self) (by decide)

theorem Token.list_iff : list s = .ok ts ↔ Munched ts s := by
  constructor
  · intro h
    induction hn : s.length using Nat.strongRecOn generalizing s ts with
    | ind n ih =>
      have hs := List.takeWhile_append_dropWhile (p := isBlank) (l := s)
      rw [← trimLeft] at hs
      cases e : trimLeft s with
      | nil =>
        rw [list_blank e] at h
        cases h
        rw [e, List.append_nil] at hs
        exact .nil (hs ▸ blank_takeWhile s)
      | cons c tail =>
        obtain ⟨t, rest, us, hr, hus, rfl⟩ := list_eq_ok e h
        obtain ⟨f, ef, hf⟩ := read_raw hr
        have hlt : rest.length < n := by
          have := read_length hr
          have := length_dropWhile_le isBlank s
          rw [← trimLeft, e, List.length_cons] at this
          omega
        have munched := ih _ hlt hus rfl
        have clear : t.Clear rest := by
          refine ⟨fun d r => read_stops hr, ?_⟩
          rintro d r rfl
          obtain ⟨u, hu⟩ := munched.two_colons
          exact (List.cons.inj hu).1
        rw [← hs, e, ef]
        exact .cons (blank_takeWhile s) hf clear munched
  · intro h
    induction h with
    | nil hb => exact list_blank (List.dropWhile_eq_nil_iff.2 hb)
    | cons hb hf hs h ih => exact list_cons hb hf hs ih

theorem Munched.of_nil (h : Munched ts []) : ts = [] := by
  generalize e : [] = u at h
  cases h with
  | nil hb => rfl
  | cons hb hf hs h =>
    obtain ⟨d, f, rfl, -⟩ := hf.exists_starts
    simp at e

theorem Token.Clear.append {u : List Char} (h : t.Clear s) (hs : Munched ts s)
    (hu : ts = [] → t.Clear u) : t.Clear (s ++ u) := by
  cases s with
  | nil => exact hu hs.of_nil
  | cons d s =>
    constructor
    · intro c r e
      obtain ⟨rfl, -⟩ := List.cons.inj e
      exact h.head d s rfl
    · intro c r e
      obtain ⟨rfl, e'⟩ := List.cons.inj e
      obtain ⟨v, rfl⟩ := hs.two_colons
      exact (List.cons.inj e').1.symm

theorem Munched.append {u : List Char} (hs : Munched ts s) (hu : Munched us u)
    (seam : ∀ t ∈ ts.getLast?, t.Clear u) : Munched (ts ++ us) (s ++ u) := by
  induction hs with
  | nil hb =>
    cases hu with
    | nil hu => exact .nil (hb.append hu)
    | cons hb' hf hs hu =>
      rw [← List.append_assoc]
      exact .cons (hb.append hb') hf hs hu
  | @cons b f s t ts hb hf hs h ih =>
    rw [List.append_assoc, List.append_assoc]
    refine .cons hb hf (hs.append h ?_) (ih fun t' ht => seam t' ?_)
    · rintro rfl
      exact seam t rfl
    · cases ts with
      | nil => cases ht
      | cons t'' ts => exact ht

theorem Token.Clear.of_append {u : List Char} (h : t.Clear (s ++ u)) : t.Clear s where
  head c r e := h.head c (r ++ u) (e ▸ rfl)
  colon c r e := h.colon c (r ++ u) (e ▸ rfl)

theorem Munched.cut (h : Munched (ts ++ us) s) :
    ∃ a b, s = a ++ b ∧ Munched ts a ∧ Munched us b := by
  induction ts generalizing s with
  | nil => exact ⟨[], s, rfl, .nil blank_nil, h⟩
  | cons t ts ih =>
    cases h with
    | @cons b f s t ts hb hf hs h =>
      obtain ⟨x, y, rfl, hx, hy⟩ := ih h
      refine ⟨b ++ (f ++ x), y, ?_, .cons hb hf hs.of_append hx, hy⟩
      rw [List.append_assoc, List.append_assoc]

/-- Two texts are read one after the other if the first one's last token ends there. -/
theorem Token.list_append {u : List Char} (hs : list s = .ok ts) (hu : list u = .ok us)
    (seam : ∀ t ∈ ts.getLast?, t.Clear u) : list (s ++ u) = .ok (ts ++ us) :=
  list_iff.2 ((list_iff.1 hs).append (list_iff.1 hu) seam)

theorem Token.list_append_blank (hb : Blank b) (s : List Char) : list (b ++ s) = list s := by
  have htrim := trimLeft_append hb s
  rw [list, list.eq_def s]
  generalize trimLeft (b ++ s) = x at htrim
  generalize trimLeft s = y at htrim
  subst htrim
  rfl

theorem Token.list_of_append {u : List Char} {vs : List Token} (hs : list s = .ok ts)
    (seam : ∀ t ∈ ts.getLast?, t.Clear u) (h : list (s ++ u) = .ok vs) :
    ∃ us, vs = ts ++ us ∧ list u = .ok us := by
  have munched := list_iff.1 hs
  clear hs
  induction munched generalizing vs with
  | nil hb => exact ⟨vs, rfl, (list_append_blank hb u).symm.trans h⟩
  | @cons b f s t ts hb hf hs munched ih =>
    have clear : t.Clear (s ++ u) := hs.append munched fun e => seam t (by simp [e])
    obtain ⟨c, r, rfl, hc⟩ := hf.exists_starts
    have htrim : trimLeft (b ++ (c :: r ++ s) ++ u) = c :: (r ++ (s ++ u)) := by
      rw [List.append_assoc, trimLeft_append hb, List.append_assoc]
      exact List.dropWhile_cons_of_neg (by simp [hc.not_blank])
    obtain ⟨t', rest, us, hr, hus, rfl⟩ := list_eq_ok htrim h
    cases (hf.read clear rfl).symm.trans hr
    obtain ⟨us, rfl, hu⟩ := ih (fun t' ht => seam t' (List.mem_getLast?_cons ht)) hus
    exact ⟨us, rfl, hu⟩

theorem Token.clear_leftBracket (t : Token) (h : list s = .ok (.symbol .leftBracket :: ts)) :
    t.Clear s := by
  cases list_iff.1 h with
  | @cons b f s t' ts hb hf hs h =>
    cases hf
    cases b with
    | nil =>
      refine ⟨?_, nofun⟩
      rintro d r ⟨⟩
      cases t with
      | symbol y => cases y <;> rfl
      | literal v => rfl
      | number n => rfl
      | name n => rfl
    | cons c b => exact clear_blank (hb c List.mem_cons_self) _

theorem Token.rightBracket_clear (h : list s = .ok ts) : (Token.symbol .rightBracket).Clear s where
  head _ _ _ := rfl
  colon c r e := by
    subst e
    obtain ⟨u, hu⟩ := (list_iff.1 h).two_colons
    exact (List.cons.inj hu).1

end Stylesheet.Query
