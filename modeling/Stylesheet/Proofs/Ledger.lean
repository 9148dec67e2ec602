import Mathlib.Data.List.Induction
import Stylesheet.Document.Node
import Stylesheet.Proofs.Unfolding

/-! Runs that keep their books. All visits of a run write into one ledger, which holds the counters,
the trace, the events and the calls, and a body counts its traverse calls in place. What a visit
comes to and what it adds to the ledger do not depend on what the ledger holds. -/

namespace Stylesheet

variable {ν α β : Type}

/-- A computation that may end early, and that leaves its marks on a state either way. -/
abbrev Live (σ α : Type) := ExceptT Halt (StateM σ) α

namespace Live

variable {σ : Type} {x : Live σ α} {s t : σ}

/-- A body has the sites of its calls beside the state. -/
def inBody (x : Live σ α) : Live (Sites × σ) α :=
  fun (sites, s) => let (a, s) := x s; (a, (sites, s))

def ofBody (x : Live (Sites × σ) α) : Live σ α :=
  fun s => let (a, (_, s)) := x (.fresh, s); (a, s)

theorem bind_ok {a : α} (h : x s = (.ok a, t)) (f : α → Live σ β) : (x >>= f) s = f a t := by
  show ExceptT.bindCont f (x s).1 (x s).2 = _
  rw [h]
  rfl

theorem bind_error {e : Halt} (h : x s = (.error e, t)) (f : α → Live σ β) :
    (x >>= f) s = (.error e, t) := by
  show ExceptT.bindCont f (x s).1 (x s).2 = _
  rw [h]
  rfl

theorem tryCatch_ok {a : α} (h : x s = (.ok a, t)) (f : Halt → Live σ α) :
    tryCatch x f s = (.ok a, t) := by
  simp only [tryCatch, tryCatchThe, MonadExceptOf.tryCatch, ExceptT.tryCatch, ExceptT.mk, bind,
    StateT.bind, h]
  rfl

theorem tryCatch_error {e : Halt} (h : x s = (.error e, t)) (f : Halt → Live σ α) :
    tryCatch x f s = f e t := by
  simp only [tryCatch, tryCatchThe, MonadExceptOf.tryCatch, ExceptT.tryCatch, ExceptT.mk, bind,
    StateT.bind, h]

theorem inBody_bind (x : Live σ α) (f : α → Live σ β) :
    inBody (x >>= f) = inBody x >>= fun a => inBody (f a) := by
  funext ⟨sites, s⟩
  cases h : x s with
  | mk result t =>
    have hx : inBody x (sites, s) = (result, (sites, t)) := by rw [inBody, h]
    cases result with
    | ok a => rw [bind_ok hx, inBody, bind_ok h, inBody]
    | error e => rw [bind_error hx, inBody, bind_error h]

end Live

variable [TreeNode ν]

namespace Summary

def empty : Summary := ⟨0, 0, 0, 0, []⟩

def note (trace : Bool) (s : Summary) (step : Step ν) : Summary :=
  match step with
  | .invoke v _ fallback =>
    { s with
      invocations := s.invocations + 1
      maxDepth := max s.maxDepth v.depth
      fallbacks := if fallback then s.fallbacks + 1 else s.fallbacks
      trace := if trace then s.trace ++ step.traceEntry?.toList else s.trace }
  | .unmatched _ => { s with unmatched := s.unmatched + 1 }
  | _ => s

def add (s t : Summary) : Summary where
  invocations := s.invocations + t.invocations
  unmatched := s.unmatched + t.unmatched
  fallbacks := s.fallbacks + t.fallbacks
  maxDepth := max s.maxDepth t.maxDepth
  trace := s.trace ++ t.trace

def counters (s : Summary) : Summary := { s with trace := [] }

end Summary

/-- What a run has told of itself so far. -/
structure Ledger (ν : Type) where
  summary : Summary
  events : List Event
  calls : List (Call ν)

namespace Ledger

def empty : Ledger ν := ⟨.empty, [], []⟩

def note (o : Options) (l : Ledger ν) (s : Step ν) : Ledger ν where
  summary := l.summary.note o.trace s
  events := l.events ++ (Event.ofStep? o.unmatched s).toList
  calls := l.calls ++ s.call?.toList

def add (l m : Ledger ν) : Ledger ν :=
  ⟨l.summary.add m.summary, l.events ++ m.events, l.calls ++ m.calls⟩

end Ledger

namespace Live

/-- Takes the steps of a run, and notes each of them. -/
def follow (o : Options) (r : Run ν α) : Live (Ledger ν) α :=
  fun l => (r.result, r.log.foldl (Ledger.note o) l)

section

variable (o : Options) (enter : Visit ν → Live (Ledger ν) (Option String)) (ev : Evaluator ν)
  (v : Visit ν)

def enterAll (hop : Nat → Hop) (mode : Mode) (position : Nat) :
    List ν → Live (Ledger ν) (List String)
  | [] => return []
  | n :: ns => do
    let output ← enter (v.descend (hop position) mode n)
    let outputs ← enterAll hop mode (position + 1) ns
    return output.toList ++ outputs

def traverse (query : Option String) (next : NextMode) :
    Live (Sites × Ledger ν) (List String) := do
  let (sites, _) ← get
  modify fun (s, l) => ({ s with calls := s.calls + 1 }, l)
  let mode := next.after v.mode
  let nodes ← match query with
    | some path => inBody (follow o (ev.query path v.node))
    | none => pure (TreeNode.children v.node)
  if query.isNone && mode.isDefault && !sites.childTaken then
    modify fun (s, l) => ({ s with childTaken := true }, l)
    inBody (enterAll enter v .child mode 0 nodes)
  else
    inBody (enterAll enter v (.visit sites.calls · mode) mode 0 nodes)

def perform : Body → Live (Sites × Ledger ν) String
  | .skip => return ""
  | .lit text => return text
  | .field f => return v.field f
  | .attr name => return (TreeNode.attr v.node name).getD "-"
  | .traverse query next gather => return gather.text (← traverse o enter ev v query next)
  | .attempt b => tryCatch (perform b) fun
    | .failure f => return "!" ++ f.text ++ "!"
    | .exhausted => throw .exhausted
  | .fail message => throw (.failure (.rule message))
  | .within depth b => if v.depth < depth then perform b else return ""
  | .seq a b => return (← perform a) ++ (← perform b)

end

def visit (g : Registry Body) (o : Options) (ev : Evaluator ν) :
    Nat → Visit ν → Live (Ledger ν) (Option String)
  | 0, _ => throw .exhausted
  | limit + 1, v => do
    match ← follow o (ev.winner g v.node v.mode) with
    | some (rule, fallback) =>
      follow o (.note (.invoke v rule.head fallback))
      some <$> ofBody (perform o (visit g o ev limit) ev v rule.body)
    | none =>
      follow o (.note (.unmatched v))
      match o.unmatched with
      | .error => throw (.failure (.unmatched v.key.text v.mode (TreeNode.kind v.node)))
      | _ => return none

def render (g : Registry Body) (ev : Evaluator ν) (root : ν) (o : Options) (limit : Nat) :
    Except Halt (Option String) × Ledger ν :=
  visit g o ev limit (.root root o.mode) .empty

variable {o : Options}

theorem follow_bind (r : Run ν α) (f : α → Run ν β) :
    follow o (r >>= f) = follow o r >>= fun x => follow o (f x) := by
  funext l
  obtain ⟨log, result⟩ := r
  cases result with
  | error e => rfl
  | ok x =>
    rw [Run.bind_ok (x := x) rfl, follow, List.foldl_append]
    rfl

theorem follow_map (f : α → β) (r : Run ν α) : follow o (f <$> r) = f <$> follow o r := by
  rw [← bind_pure_comp, ← bind_pure_comp, follow_bind]
  rfl

section

variable {enter : Visit ν → Run ν (Option String)} {ev : Evaluator ν} {v : Visit ν}

theorem enterAll_follow (hop : Nat → Hop) (mode : Mode) (position : Nat) (ns : List ν) :
    enterAll (fun w => follow o (enter w)) v hop mode position ns
      = follow o (v.enterAll enter hop mode position ns) := by
  induction ns generalizing position with
  | nil => rfl
  | cons n ns ih =>
    rw [Visit.enterAll, follow_bind, enterAll]
    apply bind_congr
    intro output
    rw [follow_bind, ih]
    rfl

theorem traverse_follow (query : Option String) (next : NextMode) (s : Sites) (l : Ledger ν) :
    traverse o (fun w => follow o (enter w)) ev v query next (s, l)
      = ((v.traverse enter ev query next s).1.result, ((v.traverse enter ev query next s).2,
          (v.traverse enter ev query next s).1.log.foldl (Ledger.note o) l)) := by
  cases query with
  | none =>
    show (if (true && (next.after v.mode).isDefault) && !s.childTaken then _ else _ :
      Live (Sites × Ledger ν) (List String)) (⟨s.calls + 1, s.childTaken⟩, l) = _
    simp only [Visit.traverse, Bool.true_and]
    split
    next =>
      rw [enterAll_follow]
      rfl
    next =>
      rw [enterAll_follow]
      rfl
  | some path =>
    show (inBody (follow o (ev.query path v.node)) >>= fun nodes =>
      inBody (enterAll (fun w => follow o (enter w)) v (.visit s.calls · (next.after v.mode))
        (next.after v.mode) 0 nodes)) (⟨s.calls + 1, s.childTaken⟩, l) = _
    simp only [enterAll_follow, ← inBody_bind, ← follow_bind]
    rfl

theorem perform_follow (b : Body) (s : Sites) (l : Ledger ν) :
    perform o (fun w => follow o (enter w)) ev v b (s, l)
      = ((b.perform enter ev v s).1.result, ((b.perform enter ev v s).2,
          (b.perform enter ev v s).1.log.foldl (Ledger.note o) l)) := by
  induction b generalizing s l with
  | skip => rfl
  | lit text => rfl
  | field f => rfl
  | attr name => rfl
  | fail message => rfl
  | traverse query next gather =>
    have h : traverse o (fun w => follow o (enter w)) ev v query next (s, l) = _ :=
      traverse_follow query next s l
    simp only [perform, Body.perform, Run.map_eq]
    cases hr : (v.traverse enter ev query next s).1.result with
    | error e =>
      rw [hr] at h
      exact bind_error h _
    | ok outputs =>
      rw [hr] at h
      exact bind_ok h _
  | attempt b ih =>
    have h := ih s l
    simp only [perform, Body.perform]
    generalize b.perform enter ev v s = r at h ⊢
    obtain ⟨⟨log, result⟩, t⟩ := r
    cases result with
    | ok x => exact tryCatch_ok h _
    | error e =>
      rw [tryCatch_error h]
      cases e <;> rfl
  | within depth b ih =>
    simp only [perform, Body.perform]
    split
    · exact ih s l
    · rfl
  | seq a b iha ihb =>
    have ha := iha s l
    simp only [perform, Body.perform]
    generalize a.perform enter ev v s = r at ha ⊢
    obtain ⟨⟨log, result⟩, t⟩ := r
    cases result with
    | error e => exact bind_error ha _
    | ok x =>
      have hb := ihb t (log.foldl (Ledger.note o) l)
      rw [bind_ok ha, List.foldl_append]
      generalize b.perform enter ev v t = r at hb ⊢
      obtain ⟨⟨log', result'⟩, t'⟩ := r
      cases result' with
      | error e => exact bind_error hb _
      | ok y => exact bind_ok hb _

end

/-- A visit that keeps the books takes the steps of the visit that only lists them. -/
theorem visit_follow (g : Registry Body) (ev : Evaluator ν) (limit : Nat) :
    visit g o ev limit = fun v => follow o (g.visit ev o.unmatched limit v) := by
  induction limit with
  | zero => rfl
  | succ limit ih =>
    funext v
    rw [Registry.visit_succ, follow_bind, visit]
    apply bind_congr
    intro found
    cases found with
    | none =>
      rw [Visit.answer, follow_bind]
      cases o.unmatched <;> rfl
    | some found =>
      obtain ⟨rule, fallback⟩ := found
      rw [Visit.answer, follow_bind, follow_map]
      apply bind_congr
      intro _
      apply congrArg
      funext l
      rw [ih, ofBody, perform_follow]
      rfl

end Live

def Run.ledger (o : Options) (r : Run ν α) : Ledger ν :=
  ⟨r.summary o.trace, r.events o.unmatched, r.calls⟩

theorem Summary.note_add (s t : Summary) (trace : Bool) (step : Step ν) :
    (s.add t).note trace step = s.add (t.note trace step) := by
  cases step with
  | call c => rfl
  | fallBack mode => rfl
  | unmatched v => rfl
  | invoke v rule fallback =>
    have depth : max (max s.maxDepth t.maxDepth) v.depth
        = max s.maxDepth (max t.maxDepth v.depth) := Nat.max_assoc ..
    cases trace <;> cases fallback <;> simp [note, add, depth, Nat.add_assoc]

/-- The summary of a run, drawn from its log at the end, is the one kept step by step. -/
theorem Run.summary_concat (log : List (Step ν)) (step : Step ν) (result : Except Halt α)
    (trace : Bool) : Run.summary ⟨log ++ [step], result⟩ trace
      = (Run.summary (⟨log, result⟩ : Run ν α) trace).note trace step := by
  have counts (p : Step ν → Bool) : (log ++ [step]).countP p = log.countP p + (p step).toNat := by
    rw [List.countP_append]
    cases h : p step <;> simp [h]
  have depth : ((log ++ [step]).map Step.depth).foldl max 0
      = max ((log.map Step.depth).foldl max 0) step.depth := by
    rw [List.map_append, List.foldl_append]
    rfl
  have entries : (log ++ [step]).filterMap Step.traceEntry?
      = log.filterMap Step.traceEntry? ++ step.traceEntry?.toList := by
    rw [List.filterMap_append]
    cases step <;> rfl
  simp only [summary, counts, depth, entries]
  cases step with
  | invoke v rule fallback => cases trace <;> cases fallback <;> rfl
  | _ =>
    simp [Summary.note, Step.isInvoke, Step.isUnmatched, Step.isFallback, Step.depth,
      Step.traceEntry?]

namespace Ledger

variable {o : Options}

theorem note_add (l m : Ledger ν) (step : Step ν) :
    (l.add m).note o step = l.add (m.note o step) := by
  simp only [note, add, Summary.note_add, List.append_assoc]

omit [TreeNode ν] in
theorem add_empty (l : Ledger ν) : l.add empty = l := by
  simp [add, empty, Summary.add, Summary.empty]

omit [TreeNode ν] in
theorem empty_add (l : Ledger ν) : empty.add l = l := by
  simp [add, empty, Summary.add, Summary.empty]

theorem ledger_concat (log : List (Step ν)) (step : Step ν) (result : Except Halt α) :
    Run.ledger o ⟨log ++ [step], result⟩
      = (Run.ledger o (⟨log, result⟩ : Run ν α)).note o step := by
  have toList {γ : Type} (f : Step ν → Option γ) :
      (log ++ [step]).filterMap f = log.filterMap f ++ (f step).toList := by
    rw [List.filterMap_append]
    cases h : f step <;> simp [h]
  simp only [Run.ledger, note, Run.summary_concat, Run.events, Run.calls, toList]

theorem foldl_note (l : Ledger ν) (r : Run ν α) : r.log.foldl (note o) l = l.add (r.ledger o) := by
  obtain ⟨log, result⟩ := r
  induction log using List.reverseRecOn with
  | nil =>
    have empty : Run.ledger o (⟨[], result⟩ : Run ν α) = empty := by
      simp [Run.ledger, Run.summary, Run.events, Run.calls, Ledger.empty, Summary.empty]
    rw [empty, add_empty]
    rfl
  | append_singleton log step ih =>
    rw [ledger_concat, ← note_add, ← ih, List.foldl_append]
    rfl

end Ledger

theorem Live.visit_eq (g : Registry Body) (o : Options) (ev : Evaluator ν) (limit : Nat)
    (v : Visit ν) (l : Ledger ν) : visit g o ev limit v l
      = ((g.visit ev o.unmatched limit v).result,
          l.add ((g.visit ev o.unmatched limit v).ledger o)) := by
  rw [visit_follow, ← Ledger.foldl_note]
  rfl

theorem Registry.visit_congr (g : Registry Body) (ev : Evaluator ν) {p q : UnmatchedPolicy}
    (h : p = .error ↔ q = .error) (limit : Nat) : g.visit ev p limit = g.visit ev q limit := by
  induction limit with
  | zero => rfl
  | succ limit ih =>
    funext v
    rw [visit_succ, visit_succ, ih]
    apply bind_congr
    intro found
    cases found with
    | some found => rfl
    | none => simp only [Visit.answer, h]

namespace Event

def muted : Event → Event
  | omitting _ key mode kind => omitting false key mode kind
  | e => e

theorem muted_ofStep {p q : UnmatchedPolicy} (h : p = .error ↔ q = .error) (s : Step ν) :
    (ofStep? p s).map muted = (ofStep? q s).map muted := by
  cases s with
  | unmatched v => cases p <;> cases q <;> simp_all [ofStep?, muted]
  | _ => rfl

end Event

theorem Run.events_muted {p q : UnmatchedPolicy} (h : p = .error ↔ q = .error) (r : Run ν α) :
    (r.events p).map Event.muted = (r.events q).map Event.muted := by
  simp only [events, List.map_filterMap, Event.muted_ofStep h]

/-- Neither the trace nor a warning changes what a run does. -/
theorem Registry.run_unobserved (g : Registry Body) (ev : Evaluator ν) (root : ν) {o o' : Options}
    (mode : o'.mode = o.mode) (policy : o'.unmatched = .error ↔ o.unmatched = .error)
    (limit : Nat) :
    let (result, ledger) := Live.render g ev root o limit
    let (result', ledger') := Live.render g ev root o' limit
    (result' = result ∧ ledger'.summary.counters = ledger.summary.counters ∧
      ledger'.calls = ledger.calls ∧
      ledger'.events.map Event.muted = ledger.events.map Event.muted) ∧
    (∃ complete, complete.length = ledger.summary.invocations ∧
      ledger.summary.trace = (if o.trace then complete else []) ∧
      ledger'.summary.trace = if o'.trace then complete else []) ∧
    (renderUsing g ev root o limit = result ∧
      renderDetailed g ev root o limit = result.map (fun output => (output, ledger.summary)) ∧
      (renderDetailed g ev root o limit).map Prod.fst = renderUsing g ev root o limit ∧
      render g ev root limit = renderUsing g ev root {} limit) ∧
    ∀ below v l, Live.visit g o ev below v l
      = ((g.visit ev o.unmatched below v).result,
          l.add ((g.visit ev o.unmatched below v).ledger o)) := by
  have rendered (o : Options) : Live.render g ev root o limit
      = ((g.run ev root o limit).result, (g.run ev root o limit).ledger o) := by
    rw [Live.render, Live.visit_eq, Ledger.empty_add]
    rfl
  have same : g.run ev root o' limit = g.run ev root o limit := by
    rw [run, run, mode, visit_congr g ev policy]
  rw [rendered, rendered, same]
  refine ⟨⟨rfl, rfl, rfl, ?_⟩, ?_, ⟨rfl, rfl, ?_, rfl⟩, fun below v l => Live.visit_eq ..⟩
  · exact Run.events_muted policy _
  · refine ⟨(g.run ev root o limit).log.filterMap Step.traceEntry?, ?_, rfl, rfl⟩
    rw [List.length_filterMap_eq_countP]
    exact List.countP_congr fun s _ => by cases s <;> rfl
  · show ((g.run ev root o limit).result.map _).map _ = (g.run ev root o limit).result
    cases (g.run ev root o limit).result <;> rfl

/-- A text that no rule matches, in a body that is recovered from: with warnings and a trace the run
comes to the same. -/
theorem Registry.run_unobserved_text :
    let d := Document.empty.append Document.empty.root (.text "x")
    let late : Body := .seq (.traverse none .keep .count) (.fail "late")
    let g := ofList [⟨.default, "/", .attempt late⟩]
    let ev : Evaluator d.Node := .ofTables [("/", .nodes [d.root])] []
    let o' : Options := { unmatched := .warn, trace := true }
    let (result, ledger) := Live.render g ev d.root {} 3
    let (result', ledger') := Live.render g ev d.root o' 3
    result = .ok (some "!rule failed: late!") ∧
      ledger.summary = ⟨1, 1, 0, 0, []⟩ ∧
      ledger.events.map (·.level) = [.debug, .trace] ∧
      ledger'.events.map (·.level) = [.debug, .warn] ∧
      ledger'.summary.trace.map (·.key) = ["#"] ∧
      result' = result ∧ ledger'.summary.counters = ledger.summary.counters := by
  intro d late g ev o'
  have mode : o'.mode = ({} : Options).mode := rfl
  have policy : o'.unmatched = .error ↔ ({} : Options).unmatched = .error := by decide
  have same := (run_unobserved g ev d.root mode policy 3).1
  exact ⟨by decide +kernel, by decide +kernel, by decide +kernel, by decide +kernel,
    by decide +kernel, same.1, same.2.1⟩

end Stylesheet
