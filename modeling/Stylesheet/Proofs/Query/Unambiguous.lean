import Stylesheet.Proofs.Query.Derivation
import Stylesheet.Query.Select

/-! No tokens have two derivations: a phrase ends where its reader stops, so that two phrases with
the same tokens are cut at the same places. The parser therefore gives the tree of the only
derivation, and blames the whole expression where there is none. -/

namespace Stylesheet.Query

theorem Takes.rest_unique {α : Type} {read : (ts : List Token) → Reading α ts}
    {ts us vs : List Token} {a b : α} (h : Takes read ts a us) (h' : Takes read ts b vs) :
    us = vs := by
  obtain ⟨hu, h⟩ := h
  obtain ⟨hv, h'⟩ := h'
  cases h.symm.trans h'
  rfl

theorem Part.Reads.rest_unique {k : Part} {ts us vs : List Token} {t t' : k.Tree}
    (h : k.Reads ts t us) (h' : k.Reads ts t' vs) : us = vs := by
  cases k with
  | predicates =>
    obtain ⟨hu, h⟩ := h (.symbol .dot :: ts) (Nat.lt_succ_self _)
    obtain ⟨hv, h'⟩ := h' (.symbol .dot :: ts) (Nat.lt_succ_self _)
    cases h.symm.trans h'
    rfl
  | query => exact Takes.rest_unique h h'
  | path => exact Takes.rest_unique h h'
  | steps => exact Takes.rest_unique h h'
  | step => exact Takes.rest_unique h h'
  | predicate => exact Takes.rest_unique h h'

namespace Phrase

/-- A phrase ends where its reader stops, so that no phrase goes on where another one ends. -/
theorem tokens_append_inj {k : Part} {e e' : Phrase k} {us vs : List Token} (hu : k.Ends us)
    (hv : k.Ends vs) (h : e.tokens ++ us = e'.tokens ++ vs) : e.tokens = e'.tokens ∧ us = vs := by
  have huv : us = vs := (h ▸ e.reads us hu).rest_unique (e'.reads vs hv)
  subst huv
  exact ⟨List.append_cancel_right h, rfl⟩

end Phrase

theorem Axis.name_injective {a b : Axis} (h : a.name = b.name) : a = b := by
  cases a <;> cases b <;> first | rfl | exact absurd h (by decide)

theorem Slash.symbol_injective {l m : Slash} (h : l.symbol = m.symbol) : l = m := by
  cases l <;> cases m <;> first | rfl | cases h

theorem Slash.follows (l : Slash) : l.symbol ∈ Part.followers .step := by
  cases l <;> decide

theorem Operand.token_injective {v w : Operand} (h : v.token = w.token) : v = w := by
  cases v <;> cases w <;> cases h <;> rfl

theorem comparisonTokens_injective {c c' : Option (Bool × Operand)}
    (h : comparisonTokens c = comparisonTokens c') : c = c' := by
  rcases c with _ | ⟨equal, v⟩ <;> rcases c' with _ | ⟨equal', v'⟩
  · rfl
  · cases h
  · cases h
  · simp only [comparisonTokens, List.cons.injEq, and_true, Token.symbol.injEq] at h
    obtain ⟨hs, hv⟩ := h
    rw [Operand.token_injective hv]
    cases equal <;> cases equal' <;> first | rfl | cases hs

theorem Argument.tokens_append_inj {a b : Argument} {us vs : List Token}
    (h : a.tokens ++ .symbol .rightParen :: us = b.tokens ++ .symbol .rightParen :: vs) :
    a = b ∧ us = vs := by
  cases a <;> cases b <;> simp_all [tokens]

theorem BareKind.name_injective {k l : BareKind} (h : k.name = l.name) : k = l := by
  cases k <;> cases l <;> first | rfl | exact absurd h (by decide)

theorem BareKind.name_ne (k : BareKind) :
    k.name ≠ "element" ∧ k.name ≠ "processing-instruction" := by
  cases k <;> decide

namespace TestPhrase

variable {us vs : List Token}

theorem call_append_inj {kind kind' : String} {a b : Argument}
    (h : call kind a ++ us = call kind' b ++ vs) : kind = kind' ∧ a = b ∧ us = vs := by
  simp only [call, List.cons_append, List.append_assoc, List.cons.injEq, Token.name.injEq,
    true_and, List.nil_append] at h
  exact ⟨h.1, Argument.tokens_append_inj h.2⟩

theorem tokens_append_inj {t u : TestPhrase} (hu : AfterTest us) (hv : AfterTest vs)
    (h : t.tokens ++ us = u.tokens ++ vs) : t = u ∧ us = vs := by
  have call_ne {n kind : String} {a : Argument} {xs ys : List Token} (hx : AfterTest xs) :
      .name n :: xs ≠ call kind a ++ ys := by
    intro e
    cases e
    exact (hx _).1 rfl
  cases t with
  | star => cases u <;> cases h; exact ⟨rfl, rfl⟩
  | name n =>
    cases u with
    | star => cases h
    | name m => cases h; exact ⟨rfl, rfl⟩
    | bare k starred => exact absurd h (call_ne hu)
    | element a => exact absurd h (call_ne hu)
    | instruction a => exact absurd h (call_ne hu)
  | bare k starred =>
    cases u with
    | star => cases h
    | name m => exact absurd h.symm (call_ne hv)
    | bare l starred' =>
      obtain ⟨hk, ha, rfl⟩ := call_append_inj h
      cases BareKind.name_injective hk
      cases starred <;> cases starred' <;> first | exact ⟨rfl, rfl⟩ | cases ha
    | element a => exact absurd (call_append_inj h).1 k.name_ne.1
    | instruction a => exact absurd (call_append_inj h).1 k.name_ne.2
  | element a =>
    cases u with
    | star => cases h
    | name m => exact absurd h.symm (call_ne hv)
    | bare k starred => exact absurd (call_append_inj h).1.symm k.name_ne.1
    | element b =>
      obtain ⟨-, rfl, rfl⟩ := call_append_inj h
      exact ⟨rfl, rfl⟩
    | instruction b => exact absurd (call_append_inj h).1 (by decide)
  | instruction a =>
    cases u with
    | star => cases h
    | name m => exact absurd h.symm (call_ne hv)
    | bare k starred => exact absurd (call_append_inj h).1.symm k.name_ne.2
    | element b => exact absurd (call_append_inj h).1 (by decide)
    | instruction b =>
      obtain ⟨-, rfl, rfl⟩ := call_append_inj h
      exact ⟨rfl, rfl⟩

end TestPhrase

theorem TestPhrase.ne_axis {t : TestPhrase} {us vs : List Token} {n : String} (h : AfterTest us) :
    t.tokens ++ us ≠ .name n :: .symbol .doubleColon :: vs := by
  intro e
  cases t with
  | star => cases e
  | name m => cases e; exact (h _).2 rfl
  | bare k starred => cases e
  | element a => cases e
  | instruction a => cases e

theorem axisTokens_append_inj {a b : Option Axis} {t u : TestPhrase} {us vs : List Token}
    (hu : AfterTest us) (hv : AfterTest vs)
    (h : axisTokens a ++ (t.tokens ++ us) = axisTokens b ++ (u.tokens ++ vs)) :
    a = b ∧ t.tokens ++ us = u.tokens ++ vs := by
  cases a with
  | none =>
    cases b with
    | none => exact ⟨rfl, h⟩
    | some b => exact absurd h (TestPhrase.ne_axis hu)
  | some a =>
    cases b with
    | none => exact absurd h.symm (TestPhrase.ne_axis hv)
    | some b =>
      simp only [axisTokens, List.cons_append, List.nil_append, List.cons.injEq, Token.name.injEq,
        true_and] at h
      exact ⟨congrArg some (Axis.name_injective h.1), h.2⟩

namespace Phrase

theorem tokens_append_cons_inj {k : Part} (e e' : Phrase k) {y z : Symbol} {us vs : List Token}
    (hy : y ∈ k.followers) (hz : z ∈ k.followers)
    (h : e.tokens ++ .symbol y :: us = e'.tokens ++ .symbol z :: vs) :
    e.tokens = e'.tokens ∧ y = z ∧ us = vs := by
  obtain ⟨he, hr⟩ := tokens_append_inj (Part.ends_cons hy us) (Part.ends_cons hz vs) h
  cases hr
  exact ⟨he, rfl, rfl⟩

theorem tokens_ne_append_cons {k : Part} (e e' : Phrase k) {y : Symbol} {us : List Token}
    (hy : y ∈ k.followers) : e.tokens ≠ e'.tokens ++ .symbol y :: us := by
  intro h
  rw [← List.append_nil e.tokens] at h
  cases (tokens_append_inj (Part.ends_nil k) (Part.ends_cons hy us) h).2

theorem steps_tokens_ne {ss : Phrase .steps} {ts : List Token} (h : opensStep ts = false) :
    ss.tokens ≠ ts := by
  rintro rfl
  have := opensStep_steps ss []
  rw [List.append_nil, h] at this
  cases this

theorem query_tokens_ne {q : Phrase .query} {ts : List Token} (h : opensOther ts = true) :
    q.tokens ≠ ts := by
  rintro rfl
  have hnil : AfterTest [] := fun us => ⟨nofun, nofun⟩
  have := opensOther_query q hnil
  rw [List.append_nil, h] at this
  cases this

theorem tested_tokens_ne {axis : Option Axis} {t : TestPhrase} {ps : Phrase .predicates}
    {y : Symbol} (h : y ≠ .star) : (tested axis t ps).tokens ≠ [.symbol y] := by
  intro e
  cases axis with
  | some a => cases e
  | none =>
    cases t with
    | star =>
      cases (List.cons.inj e).1
      exact h rfl
    | _ => cases e

theorem afterTest (ps : Phrase .predicates) : AfterTest ps.tokens := by
  rw [← List.append_nil ps.tokens]
  exact afterTest_predicates ps fun us => ⟨nofun, nofun⟩

theorem tokens_injective {k : Part} {e e' : Phrase k} (h : e.tokens = e'.tokens) : e = e' := by
  induction e with
  | alone p ih =>
    cases e' with
    | alone p' => rw [ih h]
    | union p' q' => exact absurd h (tokens_ne_append_cons p p' (by decide))
  | union p q ihp ihq =>
    cases e' with
    | alone p' => exact absurd h.symm (tokens_ne_append_cons p' p (by decide))
    | union p' q' =>
      obtain ⟨hp, -, hq⟩ := tokens_append_cons_inj p p' (by decide) (by decide) h
      rw [ihp hp, ihq hq]
  | root =>
    cases e' with
    | root => rfl
    | absolute l ss => exact absurd (List.cons.inj h).2.symm (steps_tokens_ne rfl)
    | relative ss => exact absurd h.symm (steps_tokens_ne rfl)
  | absolute l ss ih =>
    cases e' with
    | root => exact absurd (List.cons.inj h).2 (steps_tokens_ne rfl)
    | absolute l' ss' =>
      obtain ⟨hl, hss⟩ := List.cons.inj h
      rw [Slash.symbol_injective (Token.symbol.inj hl), ih hss]
    | relative ss' => exact absurd h.symm (steps_tokens_ne (by cases l <;> rfl))
  | relative ss ih =>
    cases e' with
    | root => exact absurd h (steps_tokens_ne rfl)
    | absolute l' ss' => exact absurd h (steps_tokens_ne (by cases l' <;> rfl))
    | relative ss' => rw [ih h]
  | last s ih =>
    cases e' with
    | last s' => rw [ih h]
    | join s' l ss => exact absurd h (tokens_ne_append_cons s s' l.follows)
  | join s l ss ihs ihss =>
    cases e' with
    | last s' => exact absurd h.symm (tokens_ne_append_cons s' s l.follows)
    | join s' l' ss' =>
      obtain ⟨hs, hl, hss⟩ := tokens_append_cons_inj s s' l.follows l'.follows h
      rw [ihs hs, Slash.symbol_injective hl, ihss hss]
  | dot =>
    cases e' with
    | dot => rfl
    | doubleDot => cases h
    | tested axis t ps => exact absurd h.symm (tested_tokens_ne (by decide))
  | doubleDot =>
    cases e' with
    | dot => cases h
    | doubleDot => rfl
    | tested axis t ps => exact absurd h.symm (tested_tokens_ne (by decide))
  | tested axis t ps ih =>
    cases e' with
    | dot => exact absurd h (tested_tokens_ne (by decide))
    | doubleDot => exact absurd h (tested_tokens_ne (by decide))
    | tested axis' t' ps' =>
      obtain ⟨rfl, ht⟩ := axisTokens_append_inj ps.afterTest ps'.afterTest h
      obtain ⟨rfl, hps⟩ := TestPhrase.tokens_append_inj ps.afterTest ps'.afterTest ht
      rw [ih hps]
  | none =>
    cases e' with
    | none => rfl
    | more p ps => cases h
  | more p ps ihp ihps =>
    cases e' with
    | none => cases h
    | more p' ps' =>
      obtain ⟨hp, -, hps⟩ := tokens_append_cons_inj p p' (by decide) (by decide)
        (List.cons.inj h).2
      rw [ihp hp, ihps hps]
  | position n =>
    cases e' with
    | position m => cases h; rfl
    | attributed name c => cases h
    | not p => cases h
    | selects q => exact absurd h.symm (query_tokens_ne rfl)
  | attributed name c =>
    cases e' with
    | position m => cases h
    | attributed name' c' =>
      obtain ⟨hn, hc⟩ := List.cons.inj (List.cons.inj h).2
      rw [Token.name.inj hn, comparisonTokens_injective hc]
    | not p => cases h
    | selects q => exact absurd h.symm (query_tokens_ne rfl)
  | not p ih =>
    cases e' with
    | position m => cases h
    | attributed name c => cases h
    | not p' =>
      have hp := (List.cons.inj (List.cons.inj h).2).2
      rw [ih (List.append_cancel_right hp)]
    | selects q => exact absurd h.symm (query_tokens_ne rfl)
  | selects q ih =>
    cases e' with
    | position m => exact absurd h (query_tokens_ne rfl)
    | attributed name c => exact absurd h (query_tokens_ne rfl)
    | not p => exact absurd h (query_tokens_ne rfl)
    | selects q' => rw [ih h]

end Phrase

section Evaluation

variable {d : Document} {s : String}

theorem answers_of_parse_ok {q : Query} (h : parse s = .ok q) (n : d.Node) :
    (Evaluator.ofQueries d).select s n = .ok (Query.select q n) ∧
      (Evaluator.ofQueries d).accepts s n = .ok (!(Query.select q n).isEmpty) := by
  simp only [Evaluator.ofQueries, Evaluator.ofQueries.parse, h]
  exact ⟨rfl, rfl⟩

theorem answers_of_parse_error {fault : Fault} (h : parse s = .error fault) (n : d.Node) :
    (Evaluator.ofQueries d).select s n = .error ⟨s, fault.message⟩ ∧
      (Evaluator.ofQueries d).accepts s n = .error ⟨s, fault.message⟩ := by
  simp only [Evaluator.ofQueries, Evaluator.ofQueries.parse, h]
  exact ⟨rfl, rfl⟩

end Evaluation

/-- Tokens are read as a query exactly if the grammar derives them, which it does in one way, and
then as the tree of the derivation. Of a text, the evaluator uses this tree, or else the fault of
the lexer or parser becomes an error of the whole text. -/
theorem accepted_iff_derived (d : Document) :
    (∀ ts q, ofTokens ts = .ok q ↔ ∃ e : Phrase .query, ts = e.tokens ∧ q = e.tree) ∧
      (Function.Injective fun e : Phrase .query => e.tokens) ∧
      ∀ (s : String) (n : d.Node),
        (∃ e : Phrase .query, Token.list s.toList = .ok e.tokens ∧
          (Evaluator.ofQueries d).select s n = .ok (Query.select e.tree n) ∧
          (Evaluator.ofQueries d).accepts s n = .ok (!(Query.select e.tree n).isEmpty)) ∨
        ∃ fault, (Token.list s.toList = .error fault ∨
            ∃ ts, Token.list s.toList = .ok ts ∧ ofTokens ts = .error fault) ∧
          (Evaluator.ofQueries d).select s n = .error ⟨s, fault.message⟩ ∧
          (Evaluator.ofQueries d).accepts s n = .error ⟨s, fault.message⟩ := by
  refine ⟨fun ts q => ofTokens_eq_ok, fun e e' => Phrase.tokens_injective, fun s n => ?_⟩
  cases hl : Token.list s.toList with
  | error fault =>
    have hp : parse s = .error fault := by rw [parse, hl]; rfl
    exact .inr ⟨fault, .inl rfl, answers_of_parse_error hp n⟩
  | ok ts =>
    have hp : parse s = ofTokens ts := by rw [parse, hl]; rfl
    cases hq : ofTokens ts with
    | error fault =>
      exact .inr ⟨fault, .inr ⟨ts, rfl, hq⟩, answers_of_parse_error (hp.trans hq) n⟩
    | ok q =>
      obtain ⟨e, rfl, rfl⟩ := ofTokens_eq_ok.1 hq
      exact .inl ⟨e, rfl, answers_of_parse_ok (hp.trans hq) n⟩

end Stylesheet.Query
