import Stylesheet.Proofs.Query.Parser

/-! What a reader takes off the front is a phrase, and what it gives is the tree of the phrase: the
queries that are accepted are those that the grammar derives. -/

namespace Stylesheet.Query

theorem bind_eq_ok {ε α β : Type} {x : Except ε α} {f : α → Except ε β} {b : β}
    (h : (x >>= f) = .ok b) : ∃ a, x = .ok a ∧ f a = .ok b := by
  cases x with
  | error e => cases h
  | ok a => exact ⟨a, rfl, h⟩

section Readers

variable {ts rest : List Token}

theorem of_takes_query {q : Query} (h : Takes readQuery ts q rest) :
    ∃ p us, Takes readPath ts p us ∧
      ((us = rest ∧ q = [p]) ∨
        ∃ vs ps, us = .symbol .pipe :: vs ∧ Takes readQuery vs ps rest ∧ q = p :: ps) := by
  obtain ⟨hr, h⟩ := h
  rw [readQuery] at h
  obtain ⟨⟨p, us, hu⟩, hp, h⟩ := bind_eq_ok h
  refine ⟨p, us, ⟨hu, hp⟩, ?_⟩
  split at h
  next e =>
    cases e
    obtain ⟨⟨ps, s⟩, hq, h⟩ := bind_eq_ok h
    cases h
    exact .inr ⟨_, ps, rfl, ⟨s.length_lt, hq⟩, rfl⟩
  next e =>
    cases e
    cases h
    exact .inl ⟨rfl, rfl⟩

theorem of_takes_path {p : Path} (h : Takes readPath ts p rest) :
    (ts = .symbol .slash :: rest ∧ p = .mk true []) ∨
      (∃ l us ss, ts = .symbol (Slash.symbol l) :: us ∧ Takes readSteps us ss rest ∧
        p = .mk true (l.before ss)) ∨
      ∃ ss, Takes readSteps ts ss rest ∧ p = .mk false ss := by
  obtain ⟨hr, h⟩ := h
  unfold readPath at h
  split at h
  next us =>
    split at h
    · obtain ⟨⟨ss, s⟩, hs, h⟩ := bind_eq_ok h
      cases h
      exact .inr (.inl ⟨.single, us, ss, rfl, ⟨s.length_lt, hs⟩, rfl⟩)
    · cases h
      exact .inl ⟨rfl, rfl⟩
  next us =>
    obtain ⟨⟨ss, s⟩, hs, h⟩ := bind_eq_ok h
    cases h
    exact .inr (.inl ⟨.double, us, ss, rfl, ⟨s.length_lt, hs⟩, rfl⟩)
  next =>
    obtain ⟨⟨ss, s⟩, hs, h⟩ := bind_eq_ok h
    cases h
    exact .inr (.inr ⟨ss, ⟨hr, hs⟩, rfl⟩)

theorem of_takes_steps {ss : List Step} (h : Takes readSteps ts ss rest) :
    ∃ s us, Takes readStep ts s us ∧
      ((us = rest ∧ ss = [s]) ∨
        ∃ l vs ss', us = .symbol (Slash.symbol l) :: vs ∧ Takes readSteps vs ss' rest ∧
          ss = s :: l.before ss') := by
  obtain ⟨hr, h⟩ := h
  rw [readSteps] at h
  obtain ⟨⟨s, us, hu⟩, hs, h⟩ := bind_eq_ok h
  refine ⟨s, us, ⟨hu, hs⟩, ?_⟩
  split at h
  next e =>
    cases e
    obtain ⟨⟨ss, s⟩, hss, h⟩ := bind_eq_ok h
    cases h
    exact .inr ⟨.single, _, ss, rfl, ⟨s.length_lt, hss⟩, rfl⟩
  next e =>
    cases e
    obtain ⟨⟨ss, s⟩, hss, h⟩ := bind_eq_ok h
    cases h
    exact .inr ⟨.double, _, ss, rfl, ⟨s.length_lt, hss⟩, rfl⟩
  next e =>
    cases e
    cases h
    exact .inl ⟨rfl, rfl⟩

theorem of_takes_step {s : Step} (h : Takes readStep ts s rest) :
    (ts = .symbol .dot :: rest ∧ s = .mk .self .any []) ∨
      (ts = .symbol .doubleDot :: rest ∧ s = .mk .parent .any []) ∨
      ∃ axis us, ts = axisTokens axis ++ us ∧ Takes (readTested (axis.getD .child)) us s rest := by
  obtain ⟨hr, h⟩ := h
  unfold readStep at h
  split at h
  next =>
    cases h
    exact .inl ⟨rfl, rfl⟩
  next =>
    cases h
    exact .inr (.inl ⟨rfl, rfl⟩)
  next => cases h
  next name us =>
    split at h
    next axis ha =>
      obtain ⟨⟨s, r⟩, hs, h⟩ := bind_eq_ok h
      cases h
      have hn : axis.name = name := by
        rw [Axis.ofName?] at ha
        simpa using List.find?_some ha
      exact .inr (.inr ⟨some axis, us, by rw [← hn]; rfl, r.length_lt, hs⟩)
    next => cases h
  next => exact .inr (.inr ⟨none, ts, rfl, hr, h⟩)

theorem of_takes_tested {axis : Axis} {s : Step} (h : Takes (readTested axis) ts s rest) :
    ∃ t us ps, Takes readTest ts t us ∧ s = .mk axis t ps ∧
      ∃ (hu : us.length < ts.length) (hr : rest.length < ts.length),
        readPredicates (⟨us, hu⟩ : Shorter ts) = .ok (ps, ⟨rest, hr⟩) := by
  obtain ⟨hr, h⟩ := h
  rw [readTested] at h
  obtain ⟨⟨t, us, hu⟩, ht, h⟩ := bind_eq_ok h
  obtain ⟨⟨ps, s⟩, hps, h⟩ := bind_eq_ok h
  cases h
  exact ⟨t, us, ps, ⟨hu, ht⟩, rfl, hu, hr, hps⟩

theorem of_takes_argument {a : Option String} (h : Takes readArgument ts a rest) :
    ∃ b : Argument, ts = b.tokens ++ .symbol .rightParen :: rest ∧ a = b.value := by
  obtain ⟨hr, h⟩ := h
  unfold readArgument at h
  split at h
  next =>
    cases h
    exact ⟨.name _, rfl, rfl⟩
  next =>
    cases h
    exact ⟨.literal _, rfl, rfl⟩
  next =>
    cases h
    exact ⟨.star, rfl, rfl⟩
  next =>
    cases h
    exact ⟨.nothing, rfl, rfl⟩
  next => cases h

theorem exists_call {kind : String} {a : Argument} {t : NodeTest}
    (h : NodeTest.ofKind? kind a.value = some t) :
    ∃ u : TestPhrase, u.tokens = TestPhrase.call kind a ∧ u.test = t := by
  have bare (k : BareKind) (ha : a.value = none) :
      ∃ u : TestPhrase, u.tokens = TestPhrase.call k.name a ∧ u.test = k.test := by
    cases a with
    | nothing => exact ⟨.bare k false, rfl, rfl⟩
    | star => exact ⟨.bare k true, rfl, rfl⟩
    | name a => cases ha
    | literal a => cases ha
  unfold NodeTest.ofKind? at h
  split at h
  next ha =>
    cases h
    exact bare .node ha
  next ha =>
    cases h
    exact bare .text ha
  next ha =>
    cases h
    exact bare .comment ha
  next =>
    cases h
    exact ⟨.instruction a, rfl, rfl⟩
  next =>
    cases h
    exact ⟨.element a, rfl, rfl⟩
  next ha =>
    cases h
    exact bare .document ha
  next => cases h

theorem of_takes_test {t : NodeTest} (h : Takes readTest ts t rest) :
    ∃ u : TestPhrase, ts = u.tokens ++ rest ∧ t = u.test := by
  obtain ⟨hr, h⟩ := h
  unfold readTest at h
  split at h
  next =>
    cases h
    exact ⟨.star, rfl, rfl⟩
  next kind us =>
    obtain ⟨⟨a, vs, hv⟩, ha, h⟩ := bind_eq_ok h
    obtain ⟨b, rfl, rfl⟩ := of_takes_argument ⟨hv, ha⟩
    dsimp only at h
    split at h
    next ht =>
      cases h
      obtain ⟨u, hu, rfl⟩ := exists_call ht
      exact ⟨u, by simp [hu, TestPhrase.call, Shorter.cons], rfl⟩
    next => cases h
  next n us _ =>
    cases h
    exact ⟨.name n, rfl, rfl⟩
  next => cases h
  next => cases h

theorem of_takes_value {v : String} (h : Takes readValue ts v rest) :
    ∃ w : Operand, ts = w.token :: rest ∧ v = w.value := by
  obtain ⟨hr, h⟩ := h
  unfold readValue at h
  split at h
  next =>
    cases h
    exact ⟨.literal _, rfl, rfl⟩
  next =>
    cases h
    exact ⟨.number _, rfl, rfl⟩
  next => cases h

theorem of_takes_attribute {p : Predicate} (h : Takes readAttribute ts p rest) :
    ∃ name c, ts = .name name :: (comparisonTokens c ++ rest) ∧
      p = .attribute name (c.map fun c => ⟨c.1, c.2.value⟩) := by
  obtain ⟨hr, h⟩ := h
  unfold readAttribute at h
  split at h
  next name us =>
    obtain ⟨⟨v, vs, hs⟩, hv, h⟩ := bind_eq_ok h
    cases h
    obtain ⟨v, rfl, rfl⟩ := of_takes_value ⟨hs, hv⟩
    exact ⟨name, some (true, v), rfl, rfl⟩
  next name us =>
    obtain ⟨⟨v, vs, hs⟩, hv, h⟩ := bind_eq_ok h
    cases h
    obtain ⟨v, rfl, rfl⟩ := of_takes_value ⟨hs, hv⟩
    exact ⟨name, some (false, v), rfl, rfl⟩
  next name us _ _ =>
    cases h
    exact ⟨name, none, rfl, rfl⟩
  next => cases h

theorem of_takes_predicate {p : Predicate} (h : Takes readPredicate ts p rest) :
    (∃ n, ts = .number n :: rest ∧ p = .position n) ∨
      (∃ us, ts = .symbol .atSign :: us ∧ Takes readAttribute us p rest) ∨
      (∃ us p', ts = .name "not" :: .symbol .leftParen :: us ∧
        Takes readPredicate us p' (.symbol .rightParen :: rest) ∧ p = .not p') ∨
      ∃ q, Takes readQuery ts q rest ∧ p = .selects q := by
  obtain ⟨hr, h⟩ := h
  unfold readPredicate at h
  split at h
  next n us =>
    cases h
    exact .inl ⟨n, rfl, rfl⟩
  next us =>
    obtain ⟨⟨p, s⟩, hp, h⟩ := bind_eq_ok h
    cases h
    exact .inr (.inl ⟨us, rfl, s.length_lt, hp⟩)
  next us =>
    obtain ⟨⟨p, vs, hv⟩, hp, h⟩ := bind_eq_ok h
    split at h
    next e =>
      cases e
      cases h
      exact .inr (.inr (.inl ⟨us, p, rfl, ⟨hv, hp⟩, rfl⟩))
    next => cases h
  next =>
    obtain ⟨⟨q, s⟩, hq, h⟩ := bind_eq_ok h
    cases h
    exact .inr (.inr (.inr ⟨q, ⟨hr, hq⟩, rfl⟩))

theorem of_takes_predicates {us : List Token} {hu : us.length < ts.length} {ps : List Predicate}
    {hr : rest.length < ts.length}
    (h : readPredicates (⟨us, hu⟩ : Shorter ts) = .ok (ps, ⟨rest, hr⟩)) :
    (us = rest ∧ ps = []) ∨
      ∃ vs ws p ps', us = .symbol .leftBracket :: vs ∧
        Takes readPredicate vs p (.symbol .rightBracket :: ws) ∧ ps = p :: ps' ∧
          ∃ hw : ws.length < ts.length,
            readPredicates (⟨ws, hw⟩ : Shorter ts) = .ok (ps', ⟨rest, hr⟩) := by
  unfold readPredicates at h
  split at h
  next vs h' e =>
    cases e
    obtain ⟨⟨p, ws, hw⟩, hp, h⟩ := bind_eq_ok h
    split at h
    next e =>
      cases e
      obtain ⟨⟨ps, s⟩, hps, h⟩ := bind_eq_ok h
      cases h
      exact .inr ⟨vs, _, p, ps, rfl, ⟨hw, hp⟩, rfl, _, hps⟩
    next => cases h
  next =>
    cases h
    exact .inl ⟨rfl, rfl⟩

end Readers

/-- The tokens are those of a phrase with this tree, and the rest. -/
def Part.Begins (k : Part) (ts : List Token) (t : k.Tree) (rest : List Token) : Prop :=
  ∃ e : Phrase k, ts = e.tokens ++ rest ∧ t = e.tree

mutual

theorem begins_query {ts rest : List Token} {q : Query} (h : Takes readQuery ts q rest) :
    Part.query.Begins ts q rest := by
  obtain ⟨p, us, hp, ⟨rfl, rfl⟩ | ⟨vs, ps, rfl, hq, rfl⟩⟩ := of_takes_query h
  · obtain ⟨e, rfl, rfl⟩ := begins_path hp
    exact ⟨.alone e, rfl, rfl⟩
  · have := hp.length_lt
    obtain ⟨e, rfl, rfl⟩ := begins_path hp
    obtain ⟨f, rfl, rfl⟩ := begins_query hq
    exact ⟨.union e f, by simp [Phrase.tokens], rfl⟩
termination_by 6 * ts.length + 4
decreasing_by all_goals grind

theorem begins_path {ts rest : List Token} {p : Path} (h : Takes readPath ts p rest) :
    Part.path.Begins ts p rest := by
  obtain ⟨rfl, rfl⟩ | ⟨l, us, ss, rfl, hs, rfl⟩ | ⟨ss, hs, rfl⟩ := of_takes_path h
  · exact ⟨.root, rfl, rfl⟩
  · obtain ⟨e, rfl, rfl⟩ := begins_steps hs
    exact ⟨.absolute l e, rfl, rfl⟩
  · obtain ⟨e, rfl, rfl⟩ := begins_steps hs
    exact ⟨.relative e, rfl, rfl⟩
termination_by 6 * ts.length + 3
decreasing_by all_goals grind

theorem begins_steps {ts rest : List Token} {ss : List Step} (h : Takes readSteps ts ss rest) :
    Part.steps.Begins ts ss rest := by
  obtain ⟨s, us, hs, ⟨rfl, rfl⟩ | ⟨l, vs, ss, rfl, hss, rfl⟩⟩ := of_takes_steps h
  · obtain ⟨e, rfl, rfl⟩ := begins_step hs
    exact ⟨.last e, rfl, rfl⟩
  · have := hs.length_lt
    obtain ⟨e, rfl, rfl⟩ := begins_step hs
    obtain ⟨f, rfl, rfl⟩ := begins_steps hss
    exact ⟨.join e l f, by simp [Phrase.tokens], rfl⟩
termination_by 6 * ts.length + 2
decreasing_by all_goals grind

theorem begins_step {ts rest : List Token} {s : Step} (h : Takes readStep ts s rest) :
    Part.step.Begins ts s rest := by
  obtain ⟨rfl, rfl⟩ | ⟨rfl, rfl⟩ | ⟨axis, us, rfl, hs⟩ := of_takes_step h
  · exact ⟨.dot, rfl, rfl⟩
  · exact ⟨.doubleDot, rfl, rfl⟩
  · obtain ⟨t, vs, ps, ht, rfl, hv, hr, hps⟩ := of_takes_tested hs
    obtain ⟨u, rfl, rfl⟩ := of_takes_test ht
    obtain ⟨e, rfl, rfl⟩ := begins_predicates hps
    exact ⟨.tested axis u e, by simp [Phrase.tokens], rfl⟩
termination_by 6 * ts.length + 1
decreasing_by all_goals grind

theorem begins_predicates {ts us rest : List Token} {hu : us.length < ts.length}
    {ps : List Predicate} {hr : rest.length < ts.length}
    (h : readPredicates (⟨us, hu⟩ : Shorter ts) = .ok (ps, ⟨rest, hr⟩)) :
    Part.predicates.Begins us ps rest := by
  obtain ⟨rfl, rfl⟩ | ⟨vs, ws, p, ps, rfl, hp, rfl, hw, hps⟩ := of_takes_predicates h
  · exact ⟨.none, rfl, rfl⟩
  · have := hp.length_lt
    obtain ⟨e, rfl, rfl⟩ := begins_predicate hp
    obtain ⟨f, rfl, rfl⟩ := begins_predicates hps
    exact ⟨.more e f, by simp [Phrase.tokens], rfl⟩
termination_by 6 * us.length
decreasing_by all_goals grind

theorem begins_predicate {ts rest : List Token} {p : Predicate}
    (h : Takes readPredicate ts p rest) : Part.predicate.Begins ts p rest := by
  obtain ⟨n, rfl, rfl⟩ | ⟨us, rfl, ha⟩ | ⟨us, p, rfl, hp, rfl⟩ | ⟨q, hq, rfl⟩ :=
    of_takes_predicate h
  · exact ⟨.position n, rfl, rfl⟩
  · obtain ⟨name, c, rfl, rfl⟩ := of_takes_attribute ha
    exact ⟨.attributed name c, rfl, rfl⟩
  · obtain ⟨e, rfl, rfl⟩ := begins_predicate hp
    exact ⟨.not e, by simp [Phrase.tokens], rfl⟩
  · obtain ⟨e, rfl, rfl⟩ := begins_query hq
    exact ⟨.selects e, rfl, rfl⟩
termination_by 6 * ts.length + 5
decreasing_by all_goals grind

end

/-- A list of tokens is read as a query exactly if it is that of a derivation, and then as its
tree. -/
theorem ofTokens_eq_ok {ts : List Token} {q : Query} :
    ofTokens ts = .ok q ↔ ∃ e : Phrase .query, ts = e.tokens ∧ q = e.tree := by
  constructor
  · intro h
    rw [ofTokens] at h
    split at h
    · cases h
    · obtain ⟨⟨q, us, hu⟩, hq, h⟩ := bind_eq_ok h
      split at h
      next e =>
        cases e
        cases h
        obtain ⟨e, he, rfl⟩ := begins_query ⟨hu, hq⟩
        exact ⟨e, by rw [he, List.append_nil], rfl⟩
      next => cases h
  · rintro ⟨e, rfl, rfl⟩
    exact ofTokens_tokens e

theorem parse_eq_ok {s : String} {q : Query} :
    parse s = .ok q ↔ ∃ e : Phrase .query, Token.list s.toList = .ok e.tokens ∧ q = e.tree := by
  constructor
  · intro h
    obtain ⟨ts, hts, h⟩ := bind_eq_ok h
    obtain ⟨e, rfl, rfl⟩ := ofTokens_eq_ok.1 h
    exact ⟨e, hts, rfl⟩
  · rintro ⟨e, h, rfl⟩
    rw [parse, h]
    exact ofTokens_tokens e

end Stylesheet.Query
