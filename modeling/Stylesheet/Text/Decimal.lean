/-! Numbers written in ASCII digits. -/

namespace Stylesheet.Text

/-- The number that the digits spell, if it is below the limit. -/
def decimal? (limit : Nat) (digits : List Char) : Option Nat :=
  go 0 digits
where
  go (n : Nat) : List Char → Option Nat
    | [] => some n
    | c :: rest =>
      let m := 10 * n + (c.toNat - '0'.toNat)
      if c.isDigit && m < limit then go m rest else none

theorem decimal?.go_eq_some {limit n m : Nat} {digits : List Char} (h : n < limit) :
    go limit n digits = some m ↔
      (∀ c ∈ digits, c.isDigit = true) ∧ Nat.ofDigitChars 10 digits n = m ∧ m < limit := by
  induction digits generalizing n with
  | nil =>
    simp only [go, Nat.ofDigitChars, List.foldl_nil, Option.some.injEq, List.not_mem_nil]
    constructor
    · rintro rfl
      exact ⟨by simp, rfl, h⟩
    · exact fun h => h.2.1
  | cons c rest ih =>
    have grows : ∀ k, k ≤ Nat.ofDigitChars 10 rest k := by
      clear ih
      induction rest with
      | nil => exact fun k => Nat.le_refl k
      | cons d rest ih =>
        intro k
        exact Nat.le_trans (by omega) (ih (10 * k + (d.toNat - '0'.toNat)))
    simp only [go, List.mem_cons, forall_eq_or_imp]
    split
    next hc =>
      simp only [Bool.and_eq_true, decide_eq_true_eq] at hc
      rw [ih hc.2]
      exact ⟨fun ⟨a, b⟩ => ⟨⟨hc.1, a⟩, b⟩, fun ⟨a, b⟩ => ⟨a.2, b⟩⟩
    next hc =>
      simp only [Bool.and_eq_true, decide_eq_true_eq, not_and, Nat.not_lt] at hc
      constructor
      · intro e
        cases e
      · rintro ⟨⟨hd, -⟩, rfl, hm⟩
        have := Nat.le_trans (hc hd) (grows _)
        exact absurd hm (Nat.not_lt.2 this)

/-- Exactly the digits of a number below the limit are read. -/
theorem decimal?_eq_some {limit m : Nat} {digits : List Char} (h : 0 < limit) :
    decimal? limit digits = some m ↔
      (∀ c ∈ digits, c.isDigit = true) ∧ Nat.ofDigitChars 10 digits 0 = m ∧ m < limit :=
  decimal?.go_eq_some h

end Stylesheet.Text
