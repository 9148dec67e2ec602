import Stylesheet.Proofs.Query.Grammar

/-! The readers take the tokens of a phrase off the front, and give back its tree, if what comes
after the phrase cannot be a part of it. -/

namespace Stylesheet.Query

/-- The reader gives `a` and leaves `rest`. -/
def Takes {α : Type} (read : (ts : List Token) → Reading α ts) (ts : List Token) (a : α)
    (rest : List Token) : Prop :=
  ∃ h, read ts = .ok (a, ⟨rest, h⟩)

theorem Takes.length_lt {α : Type} {read : (ts : List Token) → Reading α ts}
    {ts rest : List Token} {a : α} (h : Takes read ts a rest) : rest.length < ts.length :=
  h.1

/-- What may stand after a node test, of which it cannot be a part. -/
def AfterTest (rest : List Token) : Prop :=
  ∀ us, rest ≠ .symbol .leftParen :: us ∧ rest ≠ .symbol .doubleColon :: us

section Productions

variable {ts us rest : List Token}

theorem takes_argument (a : Argument) (rest : List Token) :
    Takes readArgument (a.tokens ++ .symbol .rightParen :: rest) a.value rest := by
  cases a <;> exact ⟨_, rfl⟩

theorem takes_call {kind : String} {argument : Option String} {t : NodeTest}
    (h : Takes readArgument us argument rest) (ht : NodeTest.ofKind? kind argument = some t) :
    Takes readTest (.name kind :: .symbol .leftParen :: us) t rest := by
  obtain ⟨hr, h⟩ := h
  refine ⟨Nat.lt_succ_of_lt (Nat.lt_succ_of_lt hr), ?_⟩
  simp only [readTest, h, bind, Except.bind, ht]
  rfl

theorem takes_nameTest (n : String) (h : AfterTest rest) :
    Takes readTest (.name n :: rest) (.element (some n)) rest := by
  refine ⟨Nat.lt_succ_self _, ?_⟩
  rw [readTest]
  · rfl
  · exact fun us => (h us).1

theorem takes_tested {axis : Axis} {t : NodeTest} {ps : List Predicate}
    (ht : Takes readTest ts t us)
    (hps : ∀ h, ∃ h', readPredicates (⟨us, h⟩ : Shorter ts) = .ok (ps, ⟨rest, h'⟩)) :
    Takes (readTested axis) ts (.mk axis t ps) rest := by
  obtain ⟨hu, ht⟩ := ht
  obtain ⟨hr, hps⟩ := hps hu
  refine ⟨hr, ?_⟩
  simp only [readTested, ht, hps, bind, Except.bind]
  rfl

theorem takes_dot (rest : List Token) :
    Takes readStep (.symbol .dot :: rest) (.mk .self .any []) rest := by
  refine ⟨Nat.lt_succ_self _, ?_⟩
  rw [readStep]
  rfl

theorem takes_doubleDot (rest : List Token) :
    Takes readStep (.symbol .doubleDot :: rest) (.mk .parent .any []) rest := by
  refine ⟨Nat.lt_succ_self _, ?_⟩
  rw [readStep]
  rfl

theorem takes_axis {a : Axis} {s : Step} (h : Takes (readTested a) us s rest) :
    Takes readStep (.name a.name :: .symbol .doubleColon :: us) s rest := by
  obtain ⟨hr, h⟩ := h
  have ha : Axis.ofName? a.name = some a := by cases a <;> decide
  refine ⟨Nat.lt_succ_of_lt (Nat.lt_succ_of_lt hr), ?_⟩
  simp only [readStep, ha, h, bind, Except.bind]
  rfl

theorem takes_child_star {s : Step} (h : Takes (readTested .child) (.symbol .star :: us) s rest) :
    Takes readStep (.symbol .star :: us) s rest := by
  obtain ⟨hr, h⟩ := h
  exact ⟨hr, by rw [readStep, h] <;> simp⟩

theorem takes_child_name {n : String} {s : Step} (hu : ∀ vs, us ≠ .symbol .doubleColon :: vs)
    (h : Takes (readTested .child) (.name n :: us) s rest) :
    Takes readStep (.name n :: us) s rest := by
  obtain ⟨hr, h⟩ := h
  refine ⟨hr, ?_⟩
  rw [readStep, h]
  all_goals simp_all

theorem takes_join {s : Step} {l : Slash} {ss : List Step}
    (hs : Takes readStep ts s (.symbol l.symbol :: us)) (hss : Takes readSteps us ss rest) :
    Takes readSteps ts (s :: (l.before ss)) rest := by
  obtain ⟨hu, hs⟩ := hs
  obtain ⟨hr, hss⟩ := hss
  refine ⟨Nat.lt_trans hr (Nat.lt_trans (Nat.lt_succ_self _) hu), ?_⟩
  cases l <;> rw [readSteps, hs] <;> simp only [Slash.symbol, hss, bind, Except.bind] <;> rfl

theorem takes_last {s : Step} (hs : Takes readStep ts s rest)
    (hr : ∀ vs, rest ≠ .symbol .slash :: vs ∧ rest ≠ .symbol .doubleSlash :: vs) :
    Takes readSteps ts [s] rest := by
  obtain ⟨hu, hs⟩ := hs
  refine ⟨hu, ?_⟩
  rw [readSteps, hs]
  simp only [bind, Except.bind]
  split
  all_goals simp_all
  rfl

theorem takes_root (h : opensStep rest = false) :
    Takes readPath (.symbol .slash :: rest) (.mk true []) rest := by
  refine ⟨Nat.lt_succ_self _, ?_⟩
  rw [readPath, if_neg (by simp [h])]
  rfl

theorem takes_absolute {l : Slash} {ss : List Step} (h : opensStep us = true)
    (hss : Takes readSteps us ss rest) :
    Takes readPath (.symbol l.symbol :: us) (.mk true (l.before ss)) rest := by
  obtain ⟨hr, hss⟩ := hss
  refine ⟨Nat.lt_succ_of_lt hr, ?_⟩
  cases l with
  | single =>
    rw [Slash.symbol, readPath, if_pos h, hss]
    rfl
  | double =>
    rw [Slash.symbol, readPath, hss]
    rfl

theorem takes_relative {ss : List Step} (h : opensStep ts = true)
    (hss : Takes readSteps ts ss rest) : Takes readPath ts (.mk false ss) rest := by
  obtain ⟨hr, hss⟩ := hss
  refine ⟨hr, ?_⟩
  rw [readPath, hss]
  · rfl
  · rintro us rfl
    cases h
  · rintro us rfl
    cases h

theorem takes_union {p : Path} {ps : Query} (hp : Takes readPath ts p (.symbol .pipe :: us))
    (hq : Takes readQuery us ps rest) : Takes readQuery ts (p :: ps) rest := by
  obtain ⟨hu, hp⟩ := hp
  obtain ⟨hr, hq⟩ := hq
  refine ⟨Nat.lt_trans hr (Nat.lt_trans (Nat.lt_succ_self _) hu), ?_⟩
  simp only [readQuery, hp, hq, bind, Except.bind]
  rfl

theorem takes_alone {p : Path} (hp : Takes readPath ts p rest)
    (hr : ∀ vs, rest ≠ .symbol .pipe :: vs) : Takes readQuery ts [p] rest := by
  obtain ⟨hu, hp⟩ := hp
  refine ⟨hu, ?_⟩
  rw [readQuery, hp]
  simp only [bind, Except.bind]
  split
  all_goals simp_all
  rfl

theorem takes_none (hr : ∀ vs, rest ≠ .symbol .leftBracket :: vs) (h : rest.length < ts.length) :
    ∃ h', readPredicates (⟨rest, h⟩ : Shorter ts) = .ok ([], ⟨rest, h'⟩) := by
  refine ⟨h, ?_⟩
  rw [readPredicates]
  rintro us h' h
  cases h
  exact hr us rfl

theorem takes_more {p : Predicate} {ps : List Predicate} {vs : List Token}
    (hp : Takes readPredicate us p (.symbol .rightBracket :: vs))
    (hps : ∀ h, ∃ h', readPredicates (⟨vs, h⟩ : Shorter ts) = .ok (ps, ⟨rest, h'⟩))
    (h : (Token.symbol .leftBracket :: us).length < ts.length) :
    ∃ h', readPredicates (⟨.symbol .leftBracket :: us, h⟩ : Shorter ts)
      = .ok (p :: ps, ⟨rest, h'⟩) := by
  obtain ⟨hu, hp⟩ := hp
  obtain ⟨hr, hps⟩ := hps (by simp at hu h; omega)
  refine ⟨hr, ?_⟩
  rw [readPredicates, hp]
  simp only [hps, bind, Except.bind]
  rfl

theorem takes_position (n : Nat) (rest : List Token) :
    Takes readPredicate (.number n :: rest) (.position n) rest := by
  refine ⟨Nat.lt_succ_self _, ?_⟩
  rw [readPredicate]
  rfl

theorem takes_attribute {p : Predicate} (h : Takes readAttribute us p rest) :
    Takes readPredicate (.symbol .atSign :: us) p rest := by
  obtain ⟨hr, h⟩ := h
  refine ⟨Nat.lt_succ_of_lt hr, ?_⟩
  rw [readPredicate, h]
  rfl

theorem takes_not {p : Predicate} (h : Takes readPredicate us p (.symbol .rightParen :: rest)) :
    Takes readPredicate (.name "not" :: .symbol .leftParen :: us) (.not p) rest := by
  obtain ⟨hr, h⟩ := h
  refine ⟨Nat.lt_succ_of_lt (Nat.lt_succ_of_lt (Nat.lt_trans (Nat.lt_succ_self _) hr)), ?_⟩
  rw [readPredicate, h]
  rfl

def opensOther : List Token → Bool
  | .number _ :: _ | .symbol .atSign :: _ | .name "not" :: .symbol .leftParen :: _ => true
  | _ => false

theorem takes_selects {q : Query} (h : opensOther ts = false) (hq : Takes readQuery ts q rest) :
    Takes readPredicate ts (.selects q) rest := by
  obtain ⟨hr, hq⟩ := hq
  refine ⟨hr, ?_⟩
  rw [readPredicate, hq]
  · rfl
  · rintro n us rfl
    cases h
  · rintro us rfl
    cases h
  · rintro us rfl
    cases h

theorem takes_comparison {name : String} {c : Option (Bool × Operand)}
    (h : ∀ vs, rest ≠ .symbol .equal :: vs ∧ rest ≠ .symbol .notEqual :: vs) :
    Takes readAttribute (.name name :: (comparisonTokens c ++ rest))
      (.attribute name (c.map fun c => ⟨c.1, c.2.value⟩)) rest := by
  cases c with
  | none =>
    show Takes readAttribute (.name name :: rest) (.attribute name none) rest
    refine ⟨Nat.lt_succ_self _, ?_⟩
    rw [readAttribute]
    · rfl
    · exact fun us => (h us).1
    · exact fun us => (h us).2
  | some c =>
    obtain ⟨equal, v⟩ := c
    cases equal <;> cases v <;> exact ⟨_, rfl⟩

end Productions

namespace Part

def followers : Part → List Symbol
  | .query | .predicate => [.rightBracket, .rightParen]
  | .path | .steps => [.pipe, .rightBracket, .rightParen]
  | .step | .predicates => [.slash, .doubleSlash, .pipe, .rightBracket, .rightParen]

/-- The tokens may stand after a phrase of this kind. -/
def Ends (k : Part) (rest : List Token) : Prop :=
  ∀ t us, rest = t :: us → ∃ y ∈ k.followers, t = .symbol y

theorem ends_nil (k : Part) : k.Ends [] := by
  rintro t us h
  cases h

theorem ends_cons {k : Part} {y : Symbol} (h : y ∈ k.followers) (us : List Token) :
    k.Ends (.symbol y :: us) := by
  rintro t vs h'
  cases h'
  exact ⟨y, h, rfl⟩

theorem Ends.ne {k : Part} {rest : List Token} (h : k.Ends rest) {y : Symbol}
    (hy : y ∉ k.followers) (us : List Token) : rest ≠ .symbol y :: us := by
  intro e
  obtain ⟨z, hz, e⟩ := h _ _ e
  cases e
  exact hy hz

theorem Ends.mono {k l : Part} {rest : List Token} (h : k.Ends rest)
    (hl : ∀ y ∈ k.followers, y ∈ l.followers) : l.Ends rest := by
  intro t us e
  obtain ⟨y, hy, e⟩ := h t us e
  exact ⟨y, hl y hy, e⟩

end Part

namespace Phrase

theorem afterTest_of_ends {rest : List Token} (h : Part.Ends .step rest) : AfterTest rest := by
  intro us
  exact ⟨h.ne (by decide) us, h.ne (by decide) us⟩

theorem afterTest_predicates (ps : Phrase .predicates) {rest : List Token} (h : AfterTest rest) :
    AfterTest (ps.tokens ++ rest) := by
  cases ps with
  | none => exact h
  | more p ps =>
    intro us
    constructor <;> rintro ⟨⟩

theorem opensStep_step (s : Phrase .step) (us : List Token) :
    opensStep (s.tokens ++ us) = true := by
  cases s with
  | dot => rfl
  | doubleDot => rfl
  | tested axis t ps =>
    cases axis with
    | none => cases t <;> rfl
    | some a => rfl

theorem opensStep_steps (ss : Phrase .steps) (us : List Token) :
    opensStep (ss.tokens ++ us) = true := by
  cases ss with
  | last s => exact opensStep_step s us
  | join s l ss =>
    rw [tokens, List.append_assoc]
    exact opensStep_step s _

theorem opensOther_name {n : String} {us : List Token} (h : ∀ vs, us ≠ .symbol .leftParen :: vs) :
    opensOther (.name n :: us) = false := by
  rw [opensOther]
  · rintro m vs h'
    cases h'
  · rintro vs h'
    cases h'
  · rintro vs h'
    cases h'
    exact h vs rfl

theorem opensOther_step (s : Phrase .step) {us : List Token} (h : AfterTest us) :
    opensOther (s.tokens ++ us) = false := by
  cases s with
  | dot => rfl
  | doubleDot => rfl
  | tested axis t ps =>
    cases axis with
    | some a => exact opensOther_name (by simp)
    | none =>
      have hps := afterTest_predicates ps h
      cases t with
      | star => rfl
      | name n =>
        rw [tokens, List.append_assoc, List.append_assoc]
        exact opensOther_name fun vs => (hps vs).1
      | bare k starred => cases k <;> rfl
      | element a => rfl
      | instruction a => rfl

theorem opensOther_steps (ss : Phrase .steps) {us : List Token} (h : AfterTest us) :
    opensOther (ss.tokens ++ us) = false := by
  cases ss with
  | last s => exact opensOther_step s h
  | join s l ss =>
    rw [tokens, List.append_assoc]
    exact opensOther_step s fun us => by cases l <;> simp [Slash.symbol]

theorem opensOther_path (p : Phrase .path) {us : List Token} (h : AfterTest us) :
    opensOther (p.tokens ++ us) = false := by
  cases p with
  | root => rfl
  | absolute l ss => cases l <;> rfl
  | relative ss => exact opensOther_steps ss h

theorem opensOther_query (q : Phrase .query) {us : List Token} (h : AfterTest us) :
    opensOther (q.tokens ++ us) = false := by
  cases q with
  | alone p => exact opensOther_path p h
  | union p q =>
    rw [tokens, List.append_assoc]
    exact opensOther_path p fun us => by simp

end Phrase

def Part.Reads : (k : Part) → List Token → k.Tree → List Token → Prop
  | .query => Takes readQuery
  | .path => Takes readPath
  | .steps => Takes readSteps
  | .step => Takes readStep
  | .predicates => fun us t rest => ∀ (ts : List Token) (h : us.length < ts.length),
    ∃ h', readPredicates (⟨us, h⟩ : Shorter ts) = .ok (t, ⟨rest, h'⟩)
  | .predicate => Takes readPredicate

theorem TestPhrase.takes (t : TestPhrase) {rest : List Token} (h : AfterTest rest) :
    Takes readTest (t.tokens ++ rest) t.test rest := by
  have call (kind : String) (a : Argument) {test : NodeTest}
      (ht : NodeTest.ofKind? kind a.value = some test) :
      Takes readTest (TestPhrase.call kind a ++ rest) test rest := by
    rw [TestPhrase.call, List.cons_append, List.cons_append, List.append_assoc]
    exact takes_call (takes_argument a rest) ht
  cases t with
  | star => exact ⟨_, rfl⟩
  | name n => exact takes_nameTest n h
  | bare k starred => cases k <;> cases starred <;> exact call _ _ rfl
  | element a => exact call _ a rfl
  | instruction a => exact call _ a rfl

theorem TestPhrase.takes_child (t : TestPhrase) {us rest : List Token} {s : Step}
    (hu : AfterTest us) (h : Takes (readTested .child) (t.tokens ++ us) s rest) :
    Takes readStep (t.tokens ++ us) s rest := by
  cases t with
  | star => exact takes_child_star h
  | name n => exact takes_child_name (fun vs => (hu vs).2) h
  | bare k starred => exact takes_child_name (fun vs => by rintro ⟨⟩) h
  | element a => exact takes_child_name (fun vs => by rintro ⟨⟩) h
  | instruction a => exact takes_child_name (fun vs => by rintro ⟨⟩) h

/-- Any phrase can be read off the front of tokens that go on with something else. -/
theorem Phrase.reads {k : Part} (e : Phrase k) :
    ∀ rest, k.Ends rest → k.Reads (e.tokens ++ rest) e.tree rest := by
  induction e with
  | alone p ih =>
    intro rest h
    exact takes_alone (ih rest (h.mono (by decide))) (h.ne (by decide))
  | union p q ihp ihq =>
    intro rest h
    rw [tokens, List.append_assoc]
    exact takes_union (ihp _ (Part.ends_cons (by decide) _)) (ihq rest h)
  | root =>
    intro rest h
    apply takes_root
    cases rest with
    | nil => rfl
    | cons t us =>
      obtain ⟨y, hy, rfl⟩ := h t us rfl
      cases y <;> first | rfl | exact absurd hy (by decide)
  | absolute l ss ih =>
    intro rest h
    exact takes_absolute (opensStep_steps ss rest) (ih rest h)
  | relative ss ih =>
    intro rest h
    exact takes_relative (opensStep_steps ss rest) (ih rest h)
  | last s ih =>
    intro rest h
    exact takes_last (ih rest (h.mono (by decide))) fun vs =>
      ⟨h.ne (by decide) vs, h.ne (by decide) vs⟩
  | join s l ss ihs ihss =>
    intro rest h
    have hl : l.symbol ∈ Part.followers .step := by cases l <;> decide
    rw [tokens, List.append_assoc]
    exact takes_join (ihs _ (Part.ends_cons hl _)) (ihss rest h)
  | dot => exact fun rest _ => takes_dot rest
  | doubleDot => exact fun rest _ => takes_doubleDot rest
  | tested axis t ps ih =>
    intro rest h
    have hps := afterTest_predicates ps (afterTest_of_ends h)
    have ht : Takes (readTested (axis.getD .child)) _ _ _ :=
      takes_tested (t.takes hps) (ih rest h _)
    rw [tokens, List.append_assoc, List.append_assoc]
    cases axis with
    | none => exact t.takes_child hps ht
    | some a => exact takes_axis ht
  | none =>
    intro rest h
    exact fun ts h' => takes_none (h.ne (by decide)) h'
  | more p ps ihp ihps =>
    intro rest h ts h'
    have hp := ihp (.symbol .rightBracket :: (ps.tokens ++ rest)) (Part.ends_cons (by decide) _)
    have e : (more p ps).tokens ++ rest
        = .symbol .leftBracket :: (p.tokens ++ .symbol .rightBracket :: (ps.tokens ++ rest)) := by
      simp [tokens]
    rw [e] at h'
    simp only [e]
    exact takes_more hp (ihps rest h ts) h'
  | position n => exact fun rest _ => takes_position n rest
  | attributed name c =>
    intro rest h
    exact takes_attribute (takes_comparison fun vs => ⟨h.ne (by decide) vs, h.ne (by decide) vs⟩)
  | not p ih =>
    intro rest h
    rw [tokens, List.cons_append, List.cons_append, List.append_assoc]
    exact takes_not (ih _ (Part.ends_cons (by decide) _))
  | selects q ih =>
    intro rest h
    exact takes_selects (opensOther_query q fun us => ⟨h.ne (by decide) us, h.ne (by decide) us⟩)
      (ih rest h)

theorem ofTokens_tokens (q : Phrase .query) : ofTokens q.tokens = .ok q.tree := by
  have hq := q.reads [] (Part.ends_nil _)
  rw [List.append_nil] at hq
  obtain ⟨h, hq⟩ := hq
  have hne : q.tokens.isEmpty = false := by
    rw [List.isEmpty_eq_false_iff]
    exact List.ne_nil_of_length_pos h
  rw [ofTokens, hne, hq]
  rfl

end Stylesheet.Query
