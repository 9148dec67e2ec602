import Mathlib.Data.List.TakeWhile
import Stylesheet.Text.Blank

namespace Stylesheet.Text

def blanks : List Char :=
  ['\t', '\n', '\x0b', '\x0c', '\r', ' ', '\u0085', '\u00a0', '\u1680', '\u2000', '\u2001',
    '\u2002', '\u2003', '\u2004', '\u2005', '\u2006', '\u2007', '\u2008', '\u2009', '\u200a',
    '\u2028', '\u2029', '\u202f', '\u205f', '\u3000']

theorem mem_of_range {low high c : Char} {s : List Char} (hl : low ≤ c) (hh : c ≤ high)
    (h : (List.range' low.toNat (high.toNat + 1 - low.toNat)).all (Char.ofNat · ∈ s) = true) :
    c ∈ s := by
  have hl : low.toNat ≤ c.toNat := hl
  have hh : c.toNat ≤ high.toNat := hh
  have := List.all_eq_true.1 h c.toNat (List.mem_range'_1.2 (by omega))
  simpa using this

theorem mem_blanks {c : Char} (h : isBlank c = true) : c ∈ blanks := by
  simp only [isBlank, Bool.or_eq_true, Bool.and_eq_true, beq_iff_eq, decide_eq_true_eq] at h
  rcases h with (((((((((rfl | ⟨hl, hh⟩) | rfl) | rfl) | rfl) | ⟨hl, hh⟩) | rfl) | rfl) | rfl)
    | rfl) | rfl
  case inl.inl.inl.inl.inl.inl.inl.inl.inl.inr => exact mem_of_range hl hh (by decide +kernel)
  case inl.inl.inl.inl.inl.inr => exact mem_of_range hl hh (by decide +kernel)
  all_goals decide

theorem isBlank_eq_false {p : Char → Bool} (h : blanks.all (fun c => !p c) = true) {c : Char}
    (hc : p c = true) : isBlank c = false := by
  rw [← Bool.not_eq_true]
  intro hb
  have := List.all_eq_true.1 h c (mem_blanks hb)
  simp [hc] at this

def Blank (s : List Char) : Prop := ∀ c ∈ s, isBlank c = true

variable {b s : List Char}

theorem blank_nil : Blank [] := by
  intro c hc
  cases hc

theorem Blank.append (hb : Blank b) (hs : Blank s) : Blank (b ++ s) := by
  intro c hc
  rcases List.mem_append.1 hc with hc | hc
  · exact hb c hc
  · exact hs c hc

theorem trimLeft_append (hb : Blank b) (s : List Char) : trimLeft (b ++ s) = trimLeft s :=
  List.dropWhile_append_of_pos hb

theorem Blank.reverse (hb : Blank b) : Blank b.reverse := by
  intro c hc
  exact hb c (List.mem_reverse.1 hc)

theorem trimRight_append (s : List Char) (hb : Blank b) : trimRight (s ++ b) = trimRight s := by
  rw [trimRight, List.reverse_append, List.dropWhile_append_of_pos hb.reverse]
  rfl

theorem trim_blank_append (hb : Blank b) (s : List Char) : trim (b ++ s) = trim s := by
  rw [trim, trimLeft_append hb]
  rfl

theorem trim_append_blank (s : List Char) (hb : Blank b) : trim (s ++ b) = trim s := by
  rw [trim, trimLeft, List.dropWhile_append]
  split
  next h =>
    rw [trim, trimLeft, List.isEmpty_iff.1 h]
    rw [← List.append_nil b, List.dropWhile_append_of_pos hb]
    rfl
  next => exact trimRight_append _ hb

theorem blank_takeWhile (s : List Char) : Blank (s.takeWhile isBlank) :=
  fun _ => List.mem_takeWhile_imp

theorem exists_trim (s : List Char) : ∃ b b', Blank b ∧ Blank b' ∧ s = b ++ (trim s ++ b') := by
  refine ⟨s.takeWhile isBlank, ((trimLeft s).reverse.takeWhile isBlank).reverse,
    blank_takeWhile s, (blank_takeWhile _).reverse, ?_⟩
  rw [trim, trimRight, ← List.reverse_append, List.takeWhile_append_dropWhile, List.reverse_reverse,
    trimLeft, List.takeWhile_append_dropWhile]

theorem blank_of_trim (h : trim s = []) : Blank s := by
  obtain ⟨b, b', hb, hb', e⟩ := exists_trim s
  rw [e, h]
  exact hb.append hb'

structure Tight (s : List Char) : Prop where
  head : ∃ c, s.head? = some c ∧ isBlank c = false
  last : ∃ c, s.getLast? = some c ∧ isBlank c = false

theorem tight_of_forall (hne : s ≠ []) (h : ∀ c ∈ s, isBlank c = false) : Tight s where
  head := ⟨s.head hne, List.head?_eq_some_head hne, h _ (List.head_mem hne)⟩
  last := ⟨s.getLast hne, List.getLast?_eq_some_getLast hne, h _ (List.getLast_mem hne)⟩

theorem Tight.append {t : List Char} (hs : Tight s) (m : List Char) (ht : Tight t) :
    Tight (s ++ (m ++ t)) where
  head := by
    obtain ⟨c, e, hc⟩ := hs.head
    exact ⟨c, by rw [List.head?_append, e]; rfl, hc⟩
  last := by
    obtain ⟨c, e, hc⟩ := ht.last
    exact ⟨c, by rw [List.getLast?_append, List.getLast?_append, e]; rfl, hc⟩

theorem Tight.trim_eq (h : Tight s) : trim s = s := by
  obtain ⟨b, b', hb, hb', e⟩ := exists_trim s
  obtain ⟨c, hc, hnc⟩ := h.head
  obtain ⟨d, hd, hnd⟩ := h.last
  have hb : b = [] := by
    cases b with
    | nil => rfl
    | cons x b =>
      rw [e] at hc
      cases hc
      simp [hb _ List.mem_cons_self] at hnc
  have hb' : b' = [] := by
    cases hl : b'.getLast? with
    | none => exact List.getLast?_eq_none_iff.1 hl
    | some x =>
      rw [e, List.getLast?_append, List.getLast?_append, hl] at hd
      cases hd
      simp [hb' _ (List.mem_of_getLast? hl)] at hnd
  rw [hb, hb', List.append_nil, List.nil_append] at e
  exact e.symm

theorem exists_trim_cons {c : Char} (hc : isBlank c = false) (s : List Char) :
    ∃ r, trim (c :: s) = c :: r := by
  obtain ⟨b, b', hb, hb', e⟩ := exists_trim (c :: s)
  have first {d : Char} {r : List Char} (h : c :: s = d :: r) (hd : isBlank d = true) : False := by
    cases h
    simp [hc] at hd
  cases b with
  | cons d b => exact (first e (hb d List.mem_cons_self)).elim
  | nil =>
    cases h : trim (c :: s) with
    | nil =>
      rw [h] at e
      cases b' with
      | nil => cases e
      | cons d b' => exact (first e (hb' d List.mem_cons_self)).elim
    | cons d r =>
      rw [h] at e
      cases e
      exact ⟨r, rfl⟩

end Stylesheet.Text
