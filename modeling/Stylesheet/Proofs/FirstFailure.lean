import Mathlib.Tactic.TFAE
import Stylesheet.Document.Node
import Stylesheet.Proofs.Lifting

/-! The first failure of a run. A run fails where the evaluator does not answer, where a body fails
by itself, and where an unmatched node is an error. If the bodies pass errors on, then no step
follows. -/

namespace Stylesheet

variable {ν α β : Type}

theorem Run.ofReply_eq_failure {c : Call ν} {reply : Except EvaluationError α} {f : Failure} :
    (ofReply c reply).result = .error (.failure f)
      ↔ ∃ e, reply = .error e ∧ f = .evaluation e := by
  cases reply <;> simp [ofReply, Except.mapError, eq_comm]

variable [TreeNode ν]

/-- The body comes to a failure of its own, after these steps. -/
inductive Body.Fails (enter : Visit ν → Run ν (Option String)) (ev : Evaluator ν) (v : Visit ν) :
    Body → Sites → List (Step ν) → String → Prop
  | fail {message : String} {s : Sites} : Fails enter ev v (.fail message) s [] message
  | within {depth : Nat} {b : Body} {s : Sites} {log : List (Step ν)} {message : String}
      (above : v.depth < depth) (h : Fails enter ev v b s log message) :
      Fails enter ev v (.within depth b) s log message
  | first {a b : Body} {s : Sites} {log : List (Step ν)} {message : String}
      (h : Fails enter ev v a s log message) : Fails enter ev v (.seq a b) s log message
  | second {a b : Body} {s : Sites} {x : String} {log : List (Step ν)} {message : String}
      (through : (a.perform enter ev v s).1.result = .ok x)
      (h : Fails enter ev v b (a.perform enter ev v s).2 log message) :
      Fails enter ev v (.seq a b) s ((a.perform enter ev v s).1.log ++ log) message

theorem Body.Fails.perform_eq {enter : Visit ν → Run ν (Option String)} {ev : Evaluator ν}
    {v : Visit ν} {b : Body} {s : Sites} {log : List (Step ν)} {message : String}
    (h : b.Fails enter ev v s log message) :
    (b.perform enter ev v s).1 = ⟨log, .error (.failure (.rule message))⟩ := by
  induction h with
  | fail => rfl
  | within above h ih => rw [perform, if_pos above, ih]
  | first h ih => simp only [perform, ih]
  | second through h ih =>
    simp only [perform, through, ih]
    rfl

/-- What ends a run: a call without an answer, an unmatched node that is an error, or a rule at work
whose body fails by itself after the steps that it takes. The depth of a visit takes away from the
levels. -/
inductive Registry.Fatal (g : Registry Body) (ev : Evaluator ν) (policy : UnmatchedPolicy)
    (levels : Nat) : Step ν → List (Step ν) → Failure → Prop
  | accepts {pattern : String} {node : ν} {e : EvaluationError}
      (h : ev.accepts pattern node = .error e) :
      Fatal g ev policy levels (.call (.accepts pattern node)) [] (.evaluation e)
  | select {path : String} {context : ν} {e : EvaluationError}
      (h : ev.select path context = .error e) :
      Fatal g ev policy levels (.call (.select path context)) [] (.evaluation e)
  | unmatched {v : Visit ν} (h : policy = .error) :
      Fatal g ev policy levels (.unmatched v) []
        (.unmatched v.key.text v.mode (TreeNode.kind v.node))
  | body {limit : Nat} {v : Visit ν} {rule : Rule Body} {fallback : Bool} {rest : List (Step ν)}
      {message : String} (level : limit + (v.depth + 1) = levels)
      (found : (ev.winner g v.node v.mode).result = .ok (some (rule, fallback)))
      (h : rule.body.Fails (g.visit ev policy limit) ev v .fresh rest message) :
      Fatal g ev policy levels (.invoke v rule.head fallback) rest (.rule message)

theorem Registry.Fatal.body_of_invoke {g : Registry Body} {ev : Evaluator ν}
    {policy : UnmatchedPolicy} {levels : Nat} {v : Visit ν} {head : RuleHead} {fallback : Bool}
    {rest : List (Step ν)} {f : Failure}
    (h : g.Fatal ev policy levels (.invoke v head fallback) rest f) : ∃ limit rule message,
      limit + (v.depth + 1) = levels ∧
      (ev.winner g v.node v.mode).result = .ok (some (rule, fallback)) ∧
      rule.body.Fails (g.visit ev policy limit) ev v .fresh rest message ∧ f = .rule message := by
  cases h with
  | body level found h => exact ⟨_, _, _, level, found, h, rfl⟩

namespace Run

/-- The run goes no further than a step that ends it, and ends with that failure. -/
def Stops (g : Registry Body) (ev : Evaluator ν) (policy : UnmatchedPolicy) (levels : Nat)
    (r : Run ν α) : Prop :=
  ∀ before s after rest f, r.log = before ++ s :: after → g.Fatal ev policy levels s rest f →
    after = rest ∧ r.result = .error (.failure f)

def Blames (g : Registry Body) (ev : Evaluator ν) (policy : UnmatchedPolicy) (levels : Nat)
    (r : Run ν α) : Prop :=
  ∀ f, r.result = .error (.failure f) → ∃ s ∈ r.log, ∃ rest, g.Fatal ev policy levels s rest f

variable {g : Registry Body} {ev : Evaluator ν} {policy : UnmatchedPolicy} {levels : Nat}

namespace Stops

theorem nil (result : Except Halt α) : Stops g ev policy levels (⟨[], result⟩ : Run ν α) := by
  intro before s after rest f hl
  simp at hl

theorem single {s : Step ν} {result : Except Halt α}
    (h : ∀ rest f, g.Fatal ev policy levels s rest f → rest = [] ∧ result = .error (.failure f)) :
    Stops g ev policy levels (⟨[s], result⟩ : Run ν α) := by
  intro before s' after rest f hl fatal
  obtain ⟨rfl, rfl, rfl⟩ : before = [] ∧ s = s' ∧ after = [] := by
    cases before <;> simp_all
  obtain ⟨rfl, hr⟩ := h rest f fatal
  exact ⟨rfl, hr⟩

theorem bind {r : Run ν α} {f : α → Run ν β} (h : r.Stops g ev policy levels)
    (hf : ∀ x, r.result = .ok x → (f x).Stops g ev policy levels) :
    (r >>= f).Stops g ev policy levels := by
  cases hr : r.result with
  | error e =>
    rw [bind_error hr]
    intro before s after rest failure hl fatal
    obtain ⟨rfl, he⟩ := h before s after rest failure hl fatal
    cases hr.symm.trans he
    exact ⟨rfl, rfl⟩
  | ok x =>
    rw [bind_ok hr]
    intro before s after rest failure hl fatal
    -- A fatal step of the first run is ruled out, because that run comes to a result.
    rcases List.append_eq_append_iff.1 hl with ⟨l, -, hx⟩ | ⟨l, hrl, hs⟩
    · exact hf x hr l s after rest failure hx fatal
    · cases l with
      | nil => exact hf x hr [] s after rest failure hs.symm fatal
      | cons s' l =>
        obtain ⟨rfl, rfl⟩ := List.cons.inj hs
        obtain ⟨-, he⟩ := h before s l rest failure hrl fatal
        cases hr.symm.trans he

theorem lifts : Lifts ev (fun _ r (_ : Run ν _) => r.Stops g ev policy levels) where
  pure _ := nil _
  bind := bind
  ask pattern node := single fun rest f fatal => by
    cases fatal with
    | accepts h => exact ⟨rfl, (ofReply_eq_failure (c := .accepts pattern node)).2 ⟨_, h, rfl⟩⟩
  query path node := single fun rest f fatal => by
    cases fatal with
    | select h => exact ⟨rfl, (ofReply_eq_failure (c := .select path node)).2 ⟨_, h, rfl⟩⟩
  fallBack _ := single nofun

end Stops

theorem Blames.lifts : Lifts ev (fun _ r (_ : Run ν _) => r.Blames g ev policy levels) where
  pure _ _ h := by cases h
  bind {α β r r' f f'} h hf failure he := by
    cases hr : r.result with
    | error e =>
      rw [bind_error hr] at he ⊢
      cases he
      exact h failure hr
    | ok x =>
      rw [bind_ok hr] at he ⊢
      obtain ⟨s, hs, fatal⟩ := hf x hr failure he
      exact ⟨s, List.mem_append_right _ hs, fatal⟩
  ask _ _ _ he :=
    let ⟨_, h, hf⟩ := ofReply_eq_failure.1 he
    ⟨_, List.mem_singleton_self _, [], hf ▸ .accepts h⟩
  query _ _ _ he :=
    let ⟨_, h, hf⟩ := ofReply_eq_failure.1 he
    ⟨_, List.mem_singleton_self _, [], hf ▸ .select h⟩
  fallBack _ _ h := by cases h

end Run

variable {g : Registry Body} {ev : Evaluator ν} {policy : UnmatchedPolicy} {levels : Nat}

theorem Body.blame {enter : Visit ν → Run ν (Option String)} {v : Visit ν}
    (entered : ∀ hop mode node, (enter (v.descend hop mode node)).Blames g ev policy levels)
    {b : Body} {s : Sites} {f : Failure}
    (h : (b.perform enter ev v s).1.result = .error (.failure f)) :
    (∃ message, f = .rule message ∧ b.Fails enter ev v s (b.perform enter ev v s).1.log message) ∨
      ∃ t ∈ (b.perform enter ev v s).1.log, ∃ rest, g.Fatal ev policy levels t rest f := by
  induction b generalizing s with
  | skip => cases h
  | lit text => cases h
  | field f => cases h
  | attr name => cases h
  | fail message =>
    cases h
    exact .inl ⟨message, rfl, .fail⟩
  | traverse query next gather =>
    have lifts : Run.Lifts ev (fun _ r (_ : Run ν _) => r.Blames g ev policy levels) :=
      Run.Blames.lifts
    simp only [perform, Run.map_eq] at h ⊢
    exact .inr (lifts.traverse enter enter entered query next s f (Except.map_eq_error.1 h))
  | attempt b ih =>
    simp only [perform] at h
    split at h
    · cases h
    next succeeds => exact absurd h (succeeds f)
  | within depth b ih =>
    simp only [perform] at h ⊢
    split at h
    next above =>
      rw [if_pos above]
      rcases ih h with ⟨message, hf, fails⟩ | fatal
      · exact .inl ⟨message, hf, .within above fails⟩
      · exact .inr fatal
    next => cases h
  | seq a b iha ihb =>
    cases ha : (a.perform enter ev v s).1.result with
    | error e =>
      simp only [perform, ha] at h ⊢
      cases h
      rcases iha ha with ⟨message, hf, fails⟩ | fatal
      · exact .inl ⟨message, hf, .first fails⟩
      · exact .inr fatal
    | ok x =>
      simp only [perform, ha] at h ⊢
      rcases ihb (Except.map_eq_error.1 h) with ⟨message, hf, fails⟩ | ⟨t, ht, fatal⟩
      · exact .inl ⟨message, hf, .second ha fails⟩
      · exact .inr ⟨t, List.mem_append_right _ ht, fatal⟩

namespace Registry

theorem blames_visit (g : Registry Body) (ev : Evaluator ν) (policy : UnmatchedPolicy)
    (limit : Nat) (v : Visit ν) :
    (g.visit ev policy limit v).Blames g ev policy (limit + v.depth) := by
  have lifts : Run.Lifts ev
      (fun _ r (_ : Run ν _) => r.Blames g ev policy (limit + v.depth)) := Run.Blames.lifts
  refine lifts.visit (p := policy) (q := policy) nofun
    (fun {limit v found} level hf entered => ?_) rfl
  intro f he
  cases found with
  | none =>
    refine ⟨.unmatched v, by simp [Visit.log_answer_none], [], ?_⟩
    rw [Visit.answer] at he
    split at he
    next strict =>
      cases he
      exact .unmatched strict
    next => cases he
  | some found =>
    obtain ⟨rule, fallback⟩ := found
    rw [Visit.log_answer_some]
    rw [Visit.answer, Run.map_eq] at he
    have hb := Except.map_eq_error.1 he
    rcases Body.blame entered hb with ⟨message, rfl, fails⟩ | ⟨s, hs, fatal⟩
    · exact ⟨_, List.mem_cons_self, _, .body level hf fails⟩
    · exact ⟨s, List.mem_cons_of_mem _ hs, fatal⟩

theorem stops_visit {history : List (Registration Body)}
    (passesOn : ∀ r ∈ history, r.body.passesOn = true) (ev : Evaluator ν)
    (policy : UnmatchedPolicy) (limit : Nat) (v : Visit ν) :
    ((ofList history).visit ev policy limit v).Stops (ofList history) ev policy
      (limit + v.depth) := by
  have lifts : Run.Lifts ev (fun _ r (_ : Run ν _) =>
    r.Stops (ofList history) ev policy (limit + v.depth)) := Run.Stops.lifts
  refine lifts.visit (p := policy) (q := policy) (.nil _)
    (fun {limit v found} level hf entered => ?_) rfl
  cases found with
  | none =>
    rw [Visit.answer]
    split
    next strict =>
      apply Run.Stops.single
      intro rest f fatal
      cases fatal with
      | unmatched strict => exact ⟨rfl, rfl⟩
    next tolerant =>
      apply Run.Stops.single
      intro rest f fatal
      cases fatal with
      | unmatched strict => exact absurd strict tolerant
  | some found =>
    obtain ⟨rule, fallback⟩ := found
    have body := lifts.perform _ ((ofList history).visit ev policy limit) entered
      (fun _ => .nil _) (passesOn_of_winner passesOn hf) .fresh
    intro before s after rest f hl fatal
    rw [Visit.log_answer_some] at hl
    rw [Visit.answer, Run.map_eq]
    -- The fatal step is the invocation itself, or a step of the body.
    cases before with
    | nil =>
      obtain ⟨rfl, rfl⟩ := List.cons.inj hl
      obtain ⟨limit', rule', message, level', found, fails, rfl⟩ := fatal.body_of_invoke
      obtain rfl : limit' = limit := by omega
      cases hf.symm.trans found
      rw [fails.perform_eq]
      exact ⟨rfl, rfl⟩
    | cons s' before =>
      obtain ⟨rfl, he⟩ := body before s after rest f (List.cons.inj hl).2 fatal
      rw [he]
      exact ⟨rfl, rfl⟩

/-- A run fails just if one of its steps is fatal, and such a step is where the run stops, with the
failure as it arises there. -/
theorem first_failure {history : List (Registration Body)}
    (passesOn : ∀ r ∈ history, r.body.passesOn = true) (ev : Evaluator ν) (root : ν)
    (options : Options) (limit : Nat) :
    let g := ofList history
    let run := g.run ev root options limit
    (∀ f, List.TFAE [
      renderUsing g ev root options limit = .error (.failure f),
      renderDetailed g ev root options limit = .error (.failure f),
      ∃ s ∈ run.log, ∃ rest, g.Fatal ev options.unmatched limit s rest f]) ∧
    render g ev root limit = renderUsing g ev root {} limit ∧
    ∀ before s after rest f, run.log = before ++ s :: after →
      g.Fatal ev options.unmatched limit s rest f →
        run = ⟨before ++ s :: rest, .error (.failure f)⟩ := by
  intro g run
  have stops : run.Stops g ev options.unmatched limit :=
    stops_visit passesOn ev options.unmatched limit (.root root options.mode)
  have blames : run.Blames g ev options.unmatched limit :=
    blames_visit g ev options.unmatched limit (.root root options.mode)
  refine ⟨fun f => ?_, rfl, fun before s after rest f hl fatal => ?_⟩
  · tfae_have 1 ↔ 2 := Except.map_eq_error.symm
    tfae_have 1 → 3 := blames f
    tfae_have 3 → 1 := by
      rintro ⟨s, hs, rest, fatal⟩
      obtain ⟨before, after, hl⟩ := List.append_of_mem hs
      exact (stops before s after rest f hl fatal).2
    tfae_finish
  · obtain ⟨rfl, he⟩ := stops before s after rest f hl fatal
    exact Run.ext hl he

/-- A query that fails below the root: the body of the list does not go on to its own failure, and
the text after the list has no turn. -/
theorem first_failure_query :
    let d := Document.empty.append Document.empty.root (.element "list" [])
    let d := d.append d.root (.text "x")
    let list : d.Node := ⟨1, by decide⟩
    let start : Registration Body := ⟨.default, "/", .traverse none .keep .count⟩
    let item : Registration Body :=
      ⟨.default, "list", .seq (.traverse (some "..[") .keep .count) (.fail "late")⟩
    let g := ofList [start, item]
    let ev : Evaluator d.Node :=
      .ofTables [("/", .nodes [d.root]), ("list", .nodes [list])] [("..[", .fail "no step")]
    renderUsing g ev d.root {} 4 = .error (.failure (.evaluation ⟨"..[", "no step"⟩)) ∧
      ∃ before, g.run ev d.root {} 4 = ⟨before ++ [.call (.select "..[" list)],
        .error (.failure (.evaluation ⟨"..[", "no step"⟩))⟩ := by
  intro d₁ d list start item g ev
  have passesOn : ∀ r ∈ [start, item], r.body.passesOn = true := by decide
  have asked : .call (.select "..[" list) ∈ (g.run ev d.root {} 4).log := by decide +kernel
  have fatal : g.Fatal ev .ignore 4 (.call (.select "..[" list)) []
      (.evaluation ⟨"..[", "no step"⟩) := .select rfl
  obtain ⟨before, after, hl⟩ := List.append_of_mem asked
  have stopped := (first_failure passesOn ev d.root {} 4).2.2 before _ after [] _ hl fatal
  exact ⟨congrArg Run.result stopped, before, stopped⟩

end Registry

end Stylesheet
