import Stylesheet.Proofs.Pattern.Spelling

namespace Stylesheet

namespace Pattern

/-- The quotation mark of the literal that is open after the text, read from the left. -/
def openQuote : Option Char → List Char → Option Char
  | o, [] => o
  | none, c :: s => openQuote (if isQuote c then some c else none) s
  | some q, c :: s => openQuote (if c = q then none else some q) s

/-- Every quotation mark belongs to a closed literal. -/
def Closed (s : List Char) : Prop := openQuote none s = none

instance (s : List Char) : Decidable (Closed s) :=
  inferInstanceAs (Decidable (openQuote none s = none))

/-- The same text, but for what the literals hold and the kind of their quotation marks. -/
inductive Relit : List Char → List Char → Prop
  | nil : Relit [] []
  | cons {c : Char} {s t : List Char} (hc : isQuote c = false) (h : Relit s t) :
      Relit (c :: s) (c :: t)
  | literal {q r : Char} {u v s t : List Char} (hq : isQuote q = true) (hr : isQuote r = true)
      (hu : q ∉ u) (hv : r ∉ v) (h : Relit s t) : Relit (q :: (u ++ q :: s)) (r :: (v ++ r :: t))

theorem openQuote_append (o : Option Char) (s t : List Char) :
    openQuote o (s ++ t) = openQuote (openQuote o s) t := by
  induction s generalizing o with
  | nil => rfl
  | cons c s ih => cases o <;> exact ih _

theorem openQuote_literal {q : Char} (hq : isQuote q = true) {u : List Char} (hu : q ∉ u)
    (s : List Char) : openQuote none (q :: (u ++ q :: s)) = openQuote none s := by
  have inside : openQuote (some q) u = some q := by
    induction u with
    | nil => rfl
    | cons c u ih =>
      obtain ⟨hc, hu⟩ := not_or.1 (mt List.mem_cons.2 hu)
      rw [openQuote, if_neg (Ne.symm hc), ih hu]
  rw [openQuote, if_pos hq, openQuote_append, inside, openQuote, if_pos rfl]

theorem exists_of_openQuote_eq_none {q : Char} {s : List Char} (h : openQuote (some q) s = none) :
    ∃ u t, q ∉ u ∧ s = u ++ q :: t ∧ Closed t := by
  induction s with
  | nil => cases h
  | cons c s ih =>
    rw [openQuote] at h
    split at h
    next hc =>
      subst hc
      exact ⟨[], s, List.not_mem_nil, rfl, h⟩
    next hc =>
      obtain ⟨u, t, hu, rfl, ht⟩ := ih h
      exact ⟨c :: u, t, not_or.2 ⟨Ne.symm hc, hu⟩ |> mt List.mem_cons.1, rfl, ht⟩

theorem Closed.relit {s : List Char} (h : Closed s) : Relit s s := by
  induction hn : s.length using Nat.strong_induction_on generalizing s with
  | _ n ih =>
    subst hn
    cases s with
    | nil => exact .nil
    | cons c s =>
      rw [Closed, openQuote] at h
      split at h
      next hc =>
        obtain ⟨u, t, hu, rfl, ht⟩ := exists_of_openQuote_eq_none h
        exact .literal hc hc hu hu (ih _ (by simp; omega) ht rfl)
      next hc => exact .cons (eq_false_of_ne_true hc) (ih _ (Nat.lt_succ_self _) h rfl)

namespace Relit

theorem append {a b s t : List Char} (h : Relit a b) (h' : Relit s t) :
    Relit (a ++ s) (b ++ t) := by
  induction h with
  | nil => exact h'
  | cons hc _ ih => exact .cons hc ih
  | literal hq hr hu hv _ ih =>
    simp only [List.cons_append, List.append_assoc]
    exact .literal hq hr hu hv ih

theorem stripLiterals_eq {s t : List Char} (h : Relit s t) : stripLiterals s = stripLiterals t := by
  induction h with
  | nil => rfl
  | cons hc _ ih => rw [stripLiterals_cons hc, stripLiterals_cons hc, ih]
  | literal hq hr hu hv _ ih => rw [stripLiterals_literal hq hu, stripLiterals_literal hr hv, ih]

end Relit

theorem Relit.symm {s t : List Char} (h : Relit s t) : Relit t s := by
  induction h with
  | nil => exact .nil
  | cons hc _ ih => exact .cons hc ih
  | literal hq hr hu hv _ ih => exact .literal hr hq hv hu ih

theorem Relit.closed {s t : List Char} (h : Relit s t) : Closed s := by
  induction h with
  | nil => rfl
  | cons hc _ ih =>
    rw [Closed, openQuote, hc]
    exact ih
  | literal hq _ hu _ _ ih =>
    rw [Closed, openQuote_literal hq hu]
    exact ih

theorem Closed.relit_of_append {a b u v : List Char} {q r : Char}
    (closed : Closed (a ++ q :: (u ++ q :: b))) (ha : Closed a) (hq : isQuote q = true)
    (hr : isQuote r = true) (hu : q ∉ u) (hv : r ∉ v) :
    Relit (a ++ q :: (u ++ q :: b)) (a ++ r :: (v ++ r :: b)) := by
  have hb : Closed b := by
    rwa [Closed, openQuote_append, ha, openQuote_literal hq hu] at closed
  exact ha.relit.append (.literal hq hr hu hv hb.relit)

theorem Score.eq_of_relit {P P' : String} (h : Relit P.toList P'.toList) :
    Score.of P = Score.of P' := by
  rw [Score.of, Score.of, Score.ofChars, Score.ofChars, h.stripLiterals_eq]

end Pattern

open Pattern in
/-- Where every quotation mark belongs to a closed literal, the literals may hold anything: one in
the place of another, and any number of them, leaves the score and the features. -/
theorem Specificity.of_relit {P : String} (closed : Closed P.toList) :
    (∀ (a u b v : List Char) (q r : Char), P.toList = a ++ q :: (u ++ q :: b) → Closed a →
        isQuote q = true → isQuote r = true → q ∉ u → r ∉ v →
        Relit P.toList (a ++ r :: (v ++ r :: b))) ∧
      ∀ P' : String, Relit P.toList P'.toList → Closed P'.toList ∧
        Specificity.of P' = Specificity.of P ∧ Features.of P' = Features.of P := by
  constructor
  · intro a u b v q r hP ha hq hr hu hv
    rw [hP] at closed ⊢
    exact closed.relit_of_append ha hq hr hu hv
  · intro P' h
    have score := Score.eq_of_relit h
    exact ⟨h.symm.closed, (congrArg Score.specificity score).symm,
      (congrArg Score.features score).symm⟩

open Pattern in
/-- Brackets, bars, slashes, digits, an axis and the other mark move in and out of three literals,
one of them in a predicate of a predicate. -/
theorem Specificity.of_relit_nested :
    let P := "text('|a[')/p[@k = \"]'/\"][q['1'] and 2]"
    let P' := "text(\"\")/p[@k = 'x::\")@('][q[\"][2\"] and 2]"
    Closed P.toList ∧ P ≠ P' ∧ Specificity.of P' = Specificity.of P ∧
      Features.of P' = Features.of P ∧ Specificity.of P = ⟨2, 1, 3, 2⟩ := by
  intro P P'
  have closed : Closed P.toList := by decide
  have piece {f u v s t : List Char} {q r : Char} (hf : Closed f) (hq : isQuote q = true)
      (hr : isQuote r = true) (hu : q ∉ u) (hv : r ∉ v) (h : Relit s t) :
      Relit (f ++ q :: (u ++ q :: s)) (f ++ r :: (v ++ r :: t)) :=
    hf.relit.append (.literal hq hr hu hv h)
  have relit := piece (f := "text(".toList) (u := "|a[".toList) (v := []) (q := '\'') (r := '"')
      (by decide) rfl rfl (by decide) (by decide) <|
    piece (f := ")/p[@k = ".toList) (u := "]'/".toList) (v := "x::\")@(".toList) (q := '"')
      (r := '\'') (by decide) rfl rfl (by decide) (by decide) <|
    piece (f := "][q[".toList) (u := "1".toList) (v := "][2".toList) (q := '\'') (r := '"')
      (by decide) rfl rfl (by decide) (by decide) <|
    Closed.relit (s := "] and 2]".toList) (by decide)
  obtain ⟨-, score, features⟩ := (of_relit closed).2 P' (by simpa [P, P'] using relit)
  exact ⟨closed, by decide, score, features, by decide +kernel⟩

end Stylesheet
