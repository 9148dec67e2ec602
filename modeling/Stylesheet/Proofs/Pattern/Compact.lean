import Stylesheet.Proofs.Pattern.Test

namespace Stylesheet

namespace Query

open Text Pattern

/-- The tokens close all predicates that they open. -/
def Outside (ts : List Token) : Prop :=
  ts.count (.symbol .leftBracket) = ts.count (.symbol .rightBracket)

section Outside

variable {ts us : List Token}

theorem Outside.append (ht : Outside ts) (hu : Outside us) : Outside (ts ++ us) := by
  rw [Outside, List.count_append, List.count_append, ht, hu]

theorem Outside.cons {t : Token} (ht : t.isBracket = false) (hu : Outside us) :
    Outside (t :: us) := by
  simp only [Token.isBracket, Bool.or_eq_false_iff] at ht
  rw [Outside, List.count_cons, List.count_cons, ht.1, ht.2, hu]

end Outside

theorem outside_of_all {ts : List Token} (h : ts.all (fun t => !t.isBracket) = true) :
    Outside ts := by
  induction ts with
  | nil => rfl
  | cons t ts ih =>
    rw [List.all_cons, Bool.and_eq_true] at h
    exact .cons (by simpa using h.1) (ih h.2)

theorem outside_axis (axis : Option Axis) : Outside (axisTokens axis) := by
  cases axis <;> rfl

theorem TestPhrase.outside (t : TestPhrase) : Outside t.tokens := by
  apply outside_of_all
  cases t with
  | star => rfl
  | name n => rfl
  | bare k starred => cases starred <;> rfl
  | element a => cases a <;> rfl
  | instruction a => cases a <;> rfl

theorem Phrase.outside {k : Part} (e : Phrase k) : Outside e.tokens := by
  induction e with
  | alone p ih => exact ih
  | union p q ihp ihq => exact ihp.append (ihq.cons rfl)
  | root => rfl
  | absolute l ss ih => exact ih.cons (by cases l <;> rfl)
  | relative ss ih => exact ih
  | last s ih => exact ih
  | join s l ss ihs ihss => exact ihs.append (ihss.cons (by cases l <;> rfl))
  | dot => rfl
  | doubleDot => rfl
  | tested axis t ps ih => exact (outside_axis axis).append (t.outside.append ih)
  | none => rfl
  | more p ps ihp ihps =>
    have h := ihp.append ihps
    simp only [Outside, List.count_append] at h
    simp [Outside, tokens]
    omega
  | position n => rfl
  | attributed name c =>
    apply outside_of_all
    cases c with
    | none => rfl
    | some c =>
      obtain ⟨equal, v⟩ := c
      cases equal <;> cases v <;> rfl
  | not p ih => exact ((ih.append (outside_of_all rfl)).cons rfl).cons rfl
  | selects q ih => exact ih

/-- No blanks stand where they would change the class of a node test outside of all predicates. -/
def Sound (ps : List Spaced) : Prop :=
  ∀ before after, ps = before ++ after → Outside (before.map Spaced.token) → Snug after

/-- Outside of all predicates no blanks stand before a parenthesis, nor after an opening one. -/
def Compact (ps : List Spaced) : Prop :=
  ∀ before p after, ps = before ++ p :: after → Outside (before.map Spaced.token) →
    (p.token = .symbol .leftParen ∨ p.token = .symbol .rightParen ∨
      before.getLast?.map Spaced.token = some (.symbol .leftParen)) → p.gap = []

section Sound

variable {ps qs : List Spaced}

theorem Snug.left (h : Snug (ps ++ qs)) : Snug ps := by
  unfold Snug
  split
  · exact h
  · trivial

theorem Sound.left (h : Sound (ps ++ qs)) : Sound ps := by
  rintro before after rfl ho
  exact (h before (after ++ qs) (List.append_assoc ..) ho).left

theorem Sound.right (h : Sound (ps ++ qs)) (ho : Outside (ps.map Spaced.token)) : Sound qs := by
  rintro before after rfl hb
  refine h (ps ++ before) after (List.append_assoc ..).symm ?_
  rw [List.map_append]
  exact ho.append hb

theorem compact_iff : Compact ps ↔ ∀ i : Fin ps.length,
    Outside ((ps.take i).map Spaced.token) →
      (ps[i].token = .symbol .leftParen ∨ ps[i].token = .symbol .rightParen ∨
        (ps.take i).getLast?.map Spaced.token = some (.symbol .leftParen)) → ps[i].gap = [] := by
  constructor
  · intro h i
    exact h (ps.take i) ps[i] (ps.drop (i + 1)) (by simp)
  · rintro h before p after rfl
    have := h ⟨before.length, by simp⟩
    simpa using this

instance (ts : List Token) : Decidable (Outside ts) := inferInstanceAs (Decidable (_ = _))

instance (ps : List Spaced) : Decidable (Compact ps) := decidable_of_iff _ compact_iff.symm

theorem Compact.sound (h : Compact ps) : Sound ps := by
  rintro before after rfl ho
  unfold Snug
  split
  next b n g p rest =>
    have hg : g = [] := by
      refine h (before ++ [⟨b, .name n⟩]) ⟨g, .symbol .leftParen⟩ (p :: rest) (by simp) ?_
        (.inl rfl)
      rw [List.map_append]
      exact ho.append rfl
    have hp : p.gap = [] := by
      refine h (before ++ [⟨b, .name n⟩, ⟨g, .symbol .leftParen⟩]) p rest (by simp) ?_
        (.inr (.inr (by simp)))
      rw [List.map_append]
      exact ho.append rfl
    exact ⟨fun _ _ => ⟨hg, hp⟩, fun _ _ _ => hg⟩
  next => trivial

end Sound

def Written (ts : List Token) (s : List Char) : Prop :=
  ∃ ps, Layout ps s ∧ ps.map Spaced.token = ts ∧ Sound ps

section Written

variable {ts us : List Token} {s : List Char} {y : Symbol}

theorem Written.spelt (h : Written ts s) : Spelt ts (stripLiterals s) := by
  obtain ⟨ps, hl, rfl, -⟩ := h
  exact hl.spelt

theorem Written.strip_append (h : Written ts s) (u : List Char) :
    stripLiterals (s ++ u) = stripLiterals s ++ stripLiterals u := by
  obtain ⟨ps, hl, -, -⟩ := h
  exact hl.stripLiterals_append u

theorem Written.blank (h : Written [] s) : Blank s := by
  obtain ⟨ps, hl, e, -⟩ := h
  cases List.map_eq_nil_iff.1 e
  cases hl with
  | nil hb => exact hb

theorem Written.cut (h : Written (ts ++ us) s) (ho : Outside ts) :
    ∃ u v, s = u ++ v ∧ Written ts u ∧ Written us v := by
  obtain ⟨ps, hl, e, hs⟩ := h
  obtain ⟨ps, qs, rfl, rfl, rfl⟩ := List.map_eq_append_iff.1 e
  obtain ⟨u, v, rfl, hu, hv⟩ := hl.cut
  exact ⟨u, v, rfl, ⟨ps, hu, rfl, hs.left⟩, ⟨qs, hv, rfl, hs.right ho⟩⟩

theorem Written.cut_symbol (h : Written (ts ++ .symbol y :: us) s) (ho : Outside ts)
    (hy : (Token.symbol y).isBracket = false) :
    ∃ u v, stripLiterals s = stripLiterals u ++ (y.text ++ stripLiterals v) ∧
      Written ts u ∧ Written us v := by
  obtain ⟨ps, hl, e, hs⟩ := h
  obtain ⟨ps, qs, rfl, rfl, e₁⟩ := List.map_eq_append_iff.1 e
  obtain ⟨b, qs, rfl, rfl⟩ := exists_spaced e₁
  obtain ⟨u, v, rfl, hu, hv⟩ := hl.cut_symbol
  refine ⟨u, v, ?_, ⟨ps, hu, rfl, hs.left⟩, ⟨qs, hv, rfl, ?_⟩⟩
  · rw [hu.stripLiterals_append, stripLiterals_append (isQuote_text y)]
  · rw [← List.singleton_append, ← List.append_assoc] at hs
    refine hs.right ?_
    rw [List.map_append]
    exact ho.append (.cons hy rfl)

theorem Written.cut_cons (h : Written (.symbol y :: us) s)
    (hy : (Token.symbol y).isBracket = false) :
    ∃ b v, stripLiterals s = b ++ (y.text ++ stripLiterals v) ∧ Blank b ∧ Written us v := by
  have h : Written ([] ++ .symbol y :: us) s := h
  obtain ⟨b, v, e, hb, hv⟩ := h.cut_symbol rfl hy
  rw [stripLiterals_blank hb.blank] at e
  exact ⟨b, v, e, hb.blank, hv⟩

end Written

end Query

end Stylesheet
