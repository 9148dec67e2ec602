import Mathlib.Data.List.Basic
import Stylesheet.Key

/-! A key tells its route and its scope: different routes have different texts, whatever the
identifiers and the names of the modes are. -/

namespace Stylesheet

theorem toDigits_injective : Function.Injective (Nat.toDigits 10) := by
  intro m n h
  simpa using congrArg (Nat.ofDigitChars 10 · 0) h

theorem not_mem_toDigits {c : Char} (h : c.isDigit = false) (n : Nat) : c ∉ Nat.toDigits 10 n := by
  intro hc
  have := Nat.isDigit_of_mem_toDigits (by decide) (by decide) hc
  simp [h] at this

def isDivider (c : Char) : Bool := c == '/' || c == '[' || c == ']'

theorem not_mem_escapeMode {x : Char} (hx : isDivider x = true) (c : Char) : x ∉ escapeMode c := by
  simp only [isDivider, Bool.or_eq_true, beq_iff_eq] at hx
  unfold escapeMode
  split
  next => rcases hx with (rfl | rfl) | rfl <;> decide
  next => rcases hx with (rfl | rfl) | rfl <;> decide
  next => rcases hx with (rfl | rfl) | rfl <;> decide
  next => rcases hx with (rfl | rfl) | rfl <;> decide
  next h₁ h₂ h₃ h₄ =>
    simp only [List.mem_singleton]
    rintro rfl
    rcases hx with (rfl | rfl) | rfl
    · exact h₂ rfl
    · exact h₃ rfl
    · exact h₄ rfl

theorem escapeMode_append_inj {c d : Char} {s t : List Char}
    (h : escapeMode c ++ s = escapeMode d ++ t) : c = d ∧ s = t := by
  unfold escapeMode at h
  split at h <;> split at h <;> grind

theorem flatMap_escapeMode_injective :
    Function.Injective fun s : List Char => s.flatMap escapeMode := by
  have ne_nil (c : Char) : escapeMode c ≠ [] := by unfold escapeMode; split <;> simp
  intro s
  induction s with
  | nil =>
    intro t h
    cases t with
    | nil => rfl
    | cons d t => simp [ne_nil] at h
  | cons c s ih =>
    intro t h
    cases t with
    | nil => simp [ne_nil] at h
    | cons d t =>
      obtain ⟨rfl, hs⟩ := escapeMode_append_inj (by simpa using h)
      rw [ih hs]

namespace Hop

/-- What a hop adds to the path after the slash. -/
def segment (h : Hop) : List Char := h.text.tail

theorem text_eq (h : Hop) : h.text = '/' :: h.segment := by
  cases h <;> rfl

def modeMark (m : Mode) : List Char :=
  if m.isDefault then [] else '@' :: m.name.toList.flatMap escapeMode

theorem segment_visit (site position : Nat) (mode : Mode) :
    (visit site position mode).segment
      = Nat.toDigits 10 site ++ '.' :: (Nat.toDigits 10 position ++ modeMark mode) := by
  simp [segment, text, modeMark]

theorem not_mem_segment {x : Char} (hx : isDivider x = true) (h : Hop) : x ∉ h.segment := by
  have hd (n : Nat) : x ∉ Nat.toDigits 10 n := by
    apply not_mem_toDigits
    simp only [isDivider, Bool.or_eq_true, beq_iff_eq] at hx
    rcases hx with (rfl | rfl) | rfl <;> rfl
  have hn : x ≠ '.' ∧ x ≠ '@' := by
    constructor <;> rintro rfl <;> simp [isDivider] at hx
  cases h with
  | child index => exact hd index
  | visit site position mode =>
    rw [segment_visit]
    simp only [List.mem_append, List.mem_cons, not_or]
    refine ⟨hd site, hn.1, hd position, ?_⟩
    unfold modeMark
    split
    · simp
    · simp only [List.mem_cons, List.mem_flatMap, not_or, not_exists, not_and]
      exact ⟨hn.2, fun c _ => not_mem_escapeMode hx c⟩

theorem modeMark_injective : Function.Injective modeMark := by
  intro m n h
  unfold modeMark at h
  split at h
  next hm =>
    split at h
    next hn => rw [beq_iff_eq.1 hm, beq_iff_eq.1 hn]
    next => simp at h
  next =>
    split at h
    next => simp at h
    next =>
      have hn := String.toList_injective (flatMap_escapeMode_injective (List.cons.inj h).2)
      cases m; cases n
      simpa using hn

theorem digits_append_inj {m n : Nat} {s t : List Char}
    (hs : ∀ c ∈ s.head?, c.isDigit = false) (ht : ∀ c ∈ t.head?, c.isDigit = false)
    (h : Nat.toDigits 10 m ++ s = Nat.toDigits 10 n ++ t) : m = n ∧ s = t := by
  have digits (n : Nat) (s : List Char) (hs : ∀ c ∈ s.head?, c.isDigit = false) :
      (Nat.toDigits 10 n ++ s).takeWhile Char.isDigit = Nat.toDigits 10 n := by
    rw [List.takeWhile_append_of_pos]
    · cases s with
      | nil => simp
      | cons c s => simp [hs c rfl]
    · exact fun c hc => Nat.isDigit_of_mem_toDigits (by decide) (by decide) hc
  have hd := congrArg (List.takeWhile Char.isDigit) h
  rw [digits m s hs, digits n t ht] at hd
  rw [hd] at h
  exact ⟨toDigits_injective hd, List.append_cancel_left h⟩

theorem segment_injective : Function.Injective segment := by
  have point (s : List Char) : ∀ c ∈ ('.' :: s).head?, c.isDigit = false := by simp
  have mark (m : Mode) : ∀ c ∈ (modeMark m).head?, c.isDigit = false := by
    unfold modeMark
    split <;> simp
  intro g h e
  cases g with
  | child i =>
    cases h with
    | child j => rw [toDigits_injective e]
    | visit site position mode =>
      have e := (List.append_nil _).trans (e.trans (segment_visit ..))
      simpa using (digits_append_inj (by simp) (point _) e).2
  | visit site position mode =>
    cases h with
    | child j =>
      have e := (List.append_nil _).trans (e.symm.trans (segment_visit ..))
      simpa using (digits_append_inj (by simp) (point _) e).2
    | visit site' position' mode' =>
      rw [segment_visit, segment_visit] at e
      obtain ⟨rfl, hp⟩ := digits_append_inj (point _) (point _) e
      obtain ⟨rfl, hm⟩ := digits_append_inj (mark mode) (mark mode') (List.cons.inj hp).2
      rw [modeMark_injective hm]

end Hop

namespace Key

theorem not_mem_path {x : Char} (hx : x = '[' ∨ x = ']') (k : Key) : x ∉ k.path := by
  have hd : isDivider x = true := by rcases hx with rfl | rfl <;> rfl
  simp only [path, List.mem_cons, List.mem_flatMap, not_or, not_exists, not_and]
  refine ⟨by rcases hx with rfl | rfl <;> decide, fun h _ => ?_⟩
  rw [h.text_eq, List.mem_cons, not_or]
  exact ⟨by rcases hx with rfl | rfl <;> decide, h.not_mem_segment hd⟩

theorem flatMap_text_injective :
    Function.Injective fun hops : List Hop => hops.flatMap Hop.text := by
  have segment (h : Hop) (hops : List Hop) :
      (h.segment ++ hops.flatMap Hop.text).takeWhile (· != '/') = h.segment := by
    rw [List.takeWhile_append_of_pos]
    · cases hops <;> simp [Hop.text_eq]
    · intro c hc
      have := h.not_mem_segment (x := '/') rfl
      simp only [bne_iff_ne]
      rintro rfl
      exact this hc
  intro g
  induction g with
  | nil =>
    intro h e
    cases h with
    | nil => rfl
    | cons b h => simp [Hop.text_eq] at e
  | cons a g ih =>
    intro h e
    cases h with
    | nil => simp [Hop.text_eq] at e
    | cons b h =>
      simp only [List.flatMap_cons, Hop.text_eq, List.cons_append, List.cons.injEq, true_and] at e
      have hs := congrArg (List.takeWhile (· != '/')) e
      rw [segment, segment] at hs
      rw [hs] at e
      rw [Hop.segment_injective hs, ih (List.append_cancel_left e)]

theorem append_cons_inj_right {x : Char} {s t u v : List Char} (hu : x ∉ u) (hv : x ∉ v)
    (h : s ++ x :: u = t ++ x :: v) : s = t ∧ u = v := by
  rcases List.append_eq_append_iff.1 h with ⟨m, rfl, e⟩ | ⟨m, rfl, e⟩
  · cases m with
    | nil => simpa using e
    | cons y m =>
      obtain ⟨rfl, rfl⟩ := List.cons.inj e
      simp at hu
  · cases m with
    | nil => simpa using e.symm
    | cons y m =>
      obtain ⟨rfl, rfl⟩ := List.cons.inj e
      simp at hv

theorem chars_inj {k l : Key} (h : k.chars = l.chars) : k.path = l.path ∧ k.scope = l.scope := by
  have bracketed (k : Key) : '[' ∉ k.path ++ [']'] := by simp [k.not_mem_path (.inl rfl)]
  unfold chars at h
  cases hk : k.scope with
  | none =>
    cases hl : l.scope with
    | none => simpa [hk, hl] using h
    | some identifier =>
      have := k.not_mem_path (x := '[') (.inl rfl)
      simp only [hk, hl] at h
      simp [h] at this
  | some identifier =>
    cases hl : l.scope with
    | none =>
      have := l.not_mem_path (x := '[') (.inl rfl)
      simp only [hk, hl] at h
      simp [← h] at this
    | some identifier' =>
      simp only [hk, hl, List.append_assoc, List.cons_append] at h
      obtain ⟨hi, hp⟩ := append_cons_inj_right (bracketed k) (bracketed l) h
      rw [String.toList_injective hi]
      exact ⟨List.append_cancel_right hp, rfl⟩

/-- Equal texts mean the same route and the same scope. -/
theorem text_injective : Function.Injective text := by
  intro k l h
  obtain ⟨hp, hs⟩ := chars_inj (String.ofList_injective h)
  have := flatMap_text_injective (List.cons.inj hp).2
  cases k; cases l
  simp_all

end Key

end Stylesheet
