import Stylesheet.Document.Node
import Stylesheet.Proofs.Unfolding
import Stylesheet.Proofs.Winner

/-! The summary of a run, its trace and its events are one account of it. They are drawn from the
same log, where every invocation is of a rule that the search could find in the mode of the visit,
and every search in a named mode that finds no rule there tells so before it goes on. -/

namespace Stylesheet

variable {ν β : Type}

def Call.Fails (ev : Evaluator ν) : Call ν → Prop
  | accepts pattern node => ∃ e, ev.accepts pattern node = .error e
  | select path context => ∃ e, ev.select path context = .error e

namespace Step

def fallsBack : Step ν → Bool
  | fallBack _ => true
  | _ => false

def isUnmatchedInNamed : Step ν → Bool
  | unmatched v => !v.mode.isDefault
  | _ => false

/-- A rule at work has the score of its pattern. It is of the mode of the visit, or of the default
mode if the visit has another mode and the search fell back. -/
def Sound : Step ν → Prop
  | invoke v rule fallback => rule.score = .of rule.pattern ∧
      if fallback then v.mode ≠ .default ∧ rule.mode = .default else rule.mode = v.mode
  | _ => True

theorem Sound.fallback_eq {v : Visit ν} {rule : RuleHead} {fallback : Bool}
    (h : (invoke v rule fallback).Sound) : fallback = decide (v.mode ≠ rule.mode) := by
  obtain ⟨-, h⟩ := h
  cases fallback with
  | true =>
    obtain ⟨named, default⟩ := h
    rw [default, decide_eq_true named]
  | false =>
    have same : rule.mode = v.mode := h
    simp [same]

theorem sound_of_visits {log : List (Step ν)} (h : log.filterMap visit? = []) :
    ∀ s ∈ log, s.Sound := by
  intro s hs
  have := List.filterMap_eq_nil_iff.1 h s hs
  cases s with
  | invoke v rule fallback => cases this
  | _ => trivial

end Step

/-- If all calls were answered, then a search fell back for each rule of the default mode that is at
work in another mode, and for each unmatched visit in such a mode. -/
def Balances (ev : Evaluator ν) (log : List (Step ν)) : Prop :=
  (∀ c ∈ log.filterMap Step.call?, ¬c.Fails ev) →
    log.countP Step.fallsBack = log.countP Step.isFallback + log.countP Step.isUnmatchedInNamed

namespace Balances

variable {ev : Evaluator ν}

theorem nil : Balances ev [] := fun _ => rfl

theorem append {l m : List (Step ν)} (hl : Balances ev l) (hm : Balances ev m) :
    Balances ev (l ++ m) := by
  intro h
  rw [List.filterMap_append, List.forall_mem_append] at h
  have := hl h.1
  have := hm h.2
  simp only [List.countP_append]
  omega

theorem of_fails {log : List (Step ν)} (h : ∃ c ∈ log.filterMap Step.call?, c.Fails ev) :
    Balances ev log :=
  let ⟨c, hc, hf⟩ := h
  fun answered => absurd hf (answered c hc)

end Balances

namespace Evaluator

variable {ev : Evaluator ν} {node : ν}

theorem countP_questions (rules : List (Rule β)) :
    (questions node rules).countP Step.fallsBack = 0 := by
  rw [questions, List.countP_map, List.countP_eq_zero]
  exact fun _ _ => Bool.false_ne_true

theorem Asked.countP_fallsBack {rules : List (Rule β)} {run : Run ν (Option (Rule β))}
    (h : ev.Asked node rules run) : run.log.countP Step.fallsBack = 0 := by
  cases h with
  | found answered best => exact countP_questions _
  | nothing refused => exact countP_questions _
  | fails answered error => exact countP_questions _

theorem Asked.fails_of_error {rules : List (Rule β)} {run : Run ν (Option (Rule β))}
    (h : ev.Asked node rules run) {e : Halt} (hr : run.result = .error e) :
    ∃ c ∈ run.log.filterMap Step.call?, c.Fails ev := by
  cases h with
  | found answered best => cases hr
  | nothing refused => cases hr
  | @fails before after r e answered error =>
    refine ⟨.accepts r.head.pattern node, ?_, e, error⟩
    exact List.mem_filterMap.2 ⟨.call (.accepts r.head.pattern node), by simp [questions], rfl⟩

variable {m : Mode} {own fallback : List (Rule β)} {run : Run ν (Option (Rule β × Bool))}
  (h : ev.Searched node m own fallback run)

include h

theorem Searched.fails_of_error {e : Halt} (hr : run.result = .error e) :
    ∃ c ∈ run.log.filterMap Step.call?, c.Fails ev := by
  cases h with
  | own h => cases hr
  | fails h => exact h.fails_of_error rfl
  | nothing default h => cases hr
  | @fallback log log' result named h h' =>
    cases result with
    | ok found => cases hr
    | error e =>
      obtain ⟨c, hc, hf⟩ := h'.fails_of_error rfl
      refine ⟨c, ?_, hf⟩
      rw [List.filterMap_append]
      exact List.mem_append_right _ hc

theorem Searched.named {r : Rule β} (hr : run.result = .ok (some (r, true))) : m ≠ .default := by
  cases h with
  | own h => cases hr
  | fails h => cases hr
  | nothing default h => cases hr
  | fallback named h h' => exact named

theorem Searched.countP_fallsBack {found : Option (Rule β × Bool)} (hr : run.result = .ok found) :
    run.log.countP Step.fallsBack = (found.elim (!m.isDefault) Prod.snd).toNat := by
  cases h with
  | own h =>
    cases hr
    exact h.countP_fallsBack
  | fails h => cases hr
  | nothing default h =>
    cases hr
    rw [default]
    exact h.countP_fallsBack
  | @fallback log log' result named h h' =>
    cases result with
    | error e => cases hr
    | ok result =>
      cases hr
      have named : m.isDefault = false := beq_false_of_ne named
      have once : (log ++ .fallBack m :: log').countP Step.fallsBack = 1 := by
        have before : log.countP Step.fallsBack = 0 := h.countP_fallsBack
        have after : log'.countP Step.fallsBack = 0 := h'.countP_fallsBack
        rw [List.countP_append, List.countP_cons, before, after]
        rfl
      rw [once]
      cases result with
      | none => simp [named]
      | some r => rfl

end Evaluator

namespace Registry

variable {history : List (Registration Body)} {ev : Evaluator ν} {v : Visit ν}
  {log : List (Step ν)}

theorem sound_invoke {rule : Rule Body} {fallback : Bool}
    (h : ev.winner (ofList history) v.node v.mode = ⟨log, .ok (some (rule, fallback))⟩) :
    (Step.invoke v rule.head fallback).Sound := by
  have hr := congrArg Run.result h
  obtain ⟨n, x, -, hm, rfl⟩ := mem_rulesIn.1 (mem_rulesIn_of_winner hr)
  refine ⟨rfl, ?_⟩
  cases fallback with
  | true => exact ⟨(searched_ofList history ev v.node v.mode).named hr, hm⟩
  | false => exact hm

theorem balances_search {found : Option (Rule Body × Bool)}
    (h : ev.winner (ofList history) v.node v.mode = ⟨log, .ok found⟩) {s : Step ν}
    (hs : s.isFallback.toNat + s.isUnmatchedInNamed.toNat
      = (found.elim (!v.mode.isDefault) Prod.snd).toNat) (hf : s.fallsBack = false) :
    Balances ev (log ++ [s]) := by
  intro _
  have fellBack : log.countP Step.fallsBack = (found.elim (!v.mode.isDefault) Prod.snd).toNat := by
    have := (searched_ofList history ev v.node v.mode).countP_fallsBack (congrArg Run.result h)
    rwa [h] at this
  have none {p : Step ν → Bool} (hp : ∀ s, s.visit? = none → p s = false) : log.countP p = 0 := by
    rw [List.countP_eq_zero]
    intro s hs
    rw [hp s (List.filterMap_eq_nil_iff.1 (visits_of_winner h) s hs)]
    exact Bool.false_ne_true
  have fallback : log.countP Step.isFallback = 0 := none fun s h => by
    cases s with
    | invoke v rule fallback => cases h
    | _ => rfl
  have unmatched : log.countP Step.isUnmatchedInNamed = 0 := none fun s h => by
    cases s with
    | unmatched v => cases h
    | _ => rfl
  have last (p : Step ν → Bool) : [s].countP p = (p s).toNat := by
    cases hp : p s <;> simp [hp]
  simp only [List.countP_append, last, hf, fellBack, fallback, unmatched, Nat.zero_add]
  exact hs.symm

variable [TreeNode ν]

theorem sound_visit (policy : UnmatchedPolicy) (limit : Nat) (v : Visit ν) :
    ∀ s ∈ ((ofList history).visit ev policy limit v).log, s.Sound := by
  refine log_induction (R := fun log => ∀ s ∈ log, s.Sound)
    ?nil ?append ?query ?failed ?unmatched ?invoked policy limit v
  case nil => exact List.forall_mem_nil _
  case append => exact fun hl hm => List.forall_mem_append.2 ⟨hl, hm⟩
  case query => exact fun _ _ => List.forall_mem_singleton.2 trivial
  case failed => exact fun h => Step.sound_of_visits (visits_of_winner h)
  case unmatched =>
    intro v log h
    have before := Step.sound_of_visits (visits_of_winner h)
    exact List.forall_mem_append.2 ⟨before, List.forall_mem_singleton.2 trivial⟩
  case invoked =>
    intro v log rule fallback h
    have before := Step.sound_of_visits (visits_of_winner h)
    exact List.forall_mem_append.2 ⟨before, List.forall_mem_singleton.2 (sound_invoke h)⟩

theorem balances_visit (policy : UnmatchedPolicy) (limit : Nat) (v : Visit ν) :
    Balances ev ((ofList history).visit ev policy limit v).log := by
  refine log_induction .nil .append (fun _ _ _ => rfl) ?failed ?unmatched ?invoked policy limit v
  case failed =>
    intro v log e h
    have := (searched_ofList history ev v.node v.mode).fails_of_error (congrArg Run.result h)
    rw [h] at this
    exact .of_fails this
  case unmatched => exact fun h => balances_search h (Nat.zero_add _) rfl
  case invoked => exact fun h => balances_search h rfl rfl

end Registry

def TraceEntry.event (e : TraceEntry) : Event :=
  .invoking e.key e.pattern e.mode e.specificity (decide (e.mode ≠ e.ruleMode))

variable [TreeNode ν]

namespace Step.Sound

variable {s : Step ν}

theorem entry (h : s.Sound) {e : TraceEntry} (he : s.traceEntry? = some e) :
    (e.specificity = .of e.pattern ∧ e.features = .of e.pattern) ∧
      (e.mode ≠ e.ruleMode → e.mode ≠ .default ∧ e.ruleMode = .default) := by
  cases s with
  | invoke v rule fallback =>
    cases he
    obtain ⟨score, modes⟩ := h
    refine ⟨⟨congrArg Pattern.Score.specificity score, congrArg Pattern.Score.features score⟩, ?_⟩
    intro other
    cases fallback with
    | true => exact modes
    | false => exact absurd modes other.symm
  | _ => cases he

theorem isFallback_eq (h : s.Sound) :
    s.isFallback = (s.traceEntry?.map fun e => decide (e.mode ≠ e.ruleMode)).getD false := by
  cases s with
  | invoke v rule fallback => exact h.fallback_eq
  | _ => rfl

theorem event_eq (h : s.Sound) (policy : UnmatchedPolicy) :
    (Event.ofStep? policy s).filter (·.message = "invoking rule")
      = s.traceEntry?.map TraceEntry.event := by
  cases s with
  | call c => rfl
  | fallBack mode => rfl
  | invoke v rule fallback =>
    rw [h.fallback_eq]
    rfl
  | unmatched v => cases policy <;> rfl

end Step.Sound

theorem foldl_max_depth (log : List (Step ν)) (n : Nat) :
    (log.map Step.depth).foldl max n
      = ((log.filterMap Step.traceEntry?).map (·.depth)).foldl max n := by
  induction log generalizing n with
  | nil => rfl
  | cons s log ih =>
    rw [List.map_cons, List.foldl_cons, ih]
    cases s with
    | invoke v rule fallback => rfl
    | _ => exact congrArg (List.foldl max · _) (Nat.max_zero n)

theorem countP_events (log : List (Step ν)) (policy : UnmatchedPolicy) {p : Event → Bool}
    {q : Step ν → Bool} (h : ∀ s, ((Event.ofStep? policy s).map p).getD false = q s) :
    (log.filterMap (Event.ofStep? policy)).countP p = log.countP q := by
  rw [List.countP_filterMap]
  exact List.countP_congr fun s _ => by rw [h]

/-- The counters, the trace and the events of a run agree. -/
structure Run.Account {α : Type} (ev : Evaluator ν) (policy : UnmatchedPolicy) (r : Run ν α)
    (s : Summary) : Prop where
  invocations : s.invocations = s.trace.length
  maxDepth : s.maxDepth = (s.trace.map (·.depth)).max?.getD 0
  fallbacks : s.fallbacks = s.trace.countP fun e => e.mode ≠ e.ruleMode
  modes : ∀ e ∈ s.trace, e.mode ≠ e.ruleMode → e.mode ≠ .default ∧ e.ruleMode = .default
  scores : ∀ e ∈ s.trace, e.specificity = .of e.pattern ∧ e.features = .of e.pattern
  invoking : (r.events policy).filter (·.message = "invoking rule") = s.trace.map TraceEntry.event
  omitting : policy ≠ .error →
    (r.events policy).countP (·.message = "no rule matches, omitting node") = s.unmatched
  fallingBack : (∀ c ∈ r.calls, ¬c.Fails ev) →
    (r.events policy).countP (·.message = "no rule in mode, falling back to default mode")
      = s.fallbacks + r.log.countP Step.isUnmatchedInNamed

theorem Run.account {α : Type} {ev : Evaluator ν} {r : Run ν α} (sound : ∀ s ∈ r.log, s.Sound)
    (balances : Balances ev r.log) (policy : UnmatchedPolicy) :
    r.Account ev policy (r.summary true) where
  invocations := by
    show r.log.countP Step.isInvoke = (r.log.filterMap Step.traceEntry?).length
    rw [List.length_filterMap_eq_countP]
    exact List.countP_congr fun s _ => by cases s <;> rfl
  maxDepth := by
    show (r.log.map Step.depth).foldl max 0 = ((r.log.filterMap Step.traceEntry?).map _).max?.getD 0
    rw [foldl_max_depth]
    cases (r.log.filterMap Step.traceEntry?).map (·.depth) with
    | nil => rfl
    | cons n ns => rw [List.max?_cons', List.foldl_cons, Nat.zero_max, Option.getD_some]
  fallbacks := by
    show r.log.countP Step.isFallback = (r.log.filterMap Step.traceEntry?).countP _
    rw [List.countP_filterMap]
    exact List.countP_congr fun s hs => by rw [(sound s hs).isFallback_eq]
  modes e he :=
    let ⟨s, hs, h⟩ := List.mem_filterMap.1 he
    ((sound s hs).entry h).2
  scores e he :=
    let ⟨s, hs, h⟩ := List.mem_filterMap.1 he
    ((sound s hs).entry h).1
  invoking := by
    show (r.log.filterMap (Event.ofStep? policy)).filter _ =
      (r.log.filterMap Step.traceEntry?).map _
    rw [List.filter_filterMap, List.map_filterMap]
    exact List.filterMap_congr fun s hs => (sound s hs).event_eq policy
  omitting h := countP_events r.log policy fun s => by
    cases s with
    | unmatched v =>
      cases policy with
      | ignore => rfl
      | warn => rfl
      | error => exact absurd rfl h
    | _ => rfl
  fallingBack answered := by
    refine (countP_events r.log policy fun s => ?_).trans (balances answered)
    cases s with
    | unmatched v => cases policy <;> rfl
    | _ => rfl

/-- The summary of a run that is traced tells what its trace and its events tell. -/
theorem Registry.account_of_renderDetailed {history : List (Registration Body)} {ev : Evaluator ν}
    {root : ν} {options : Options} {limit : Nat} {output : Option String} {s : Summary}
    (traced : options.trace = true)
    (h : renderDetailed (ofList history) ev root options limit = .ok (output, s)) :
    ((ofList history).run ev root options limit).Account ev options.unmatched s := by
  cases hr : ((ofList history).run ev root options limit).result with
  | error e =>
    rw [renderDetailed, hr] at h
    cases h
  | ok found =>
    rw [renderDetailed, hr, traced] at h
    cases h
    exact Run.account (sound_visit _ _ _) (balances_visit _ _ _) _

/-- A traversal in a mode without rules, which fails late and is recovered from, then one in the
mode of the rules: of the four visits that go down, the list falls back once and the text is
unmatched twice. -/
theorem Registry.account_of_recovered :
    let d := Document.empty.append Document.empty.root (.element "list" [])
    let d := d.append d.root (.text "x")
    let late : Body := .seq (.traverse none (.enter ⟨"m"⟩) (.join ",")) (.fail "late")
    let start : Registration Body :=
      ⟨.default, "/", .seq (.attempt late) (.traverse none .keep (.join ","))⟩
    let list : Registration Body := ⟨.default, "list", .field .name⟩
    let ev : Evaluator d.Node :=
      .ofTables [("/", .nodes [d.root]), ("list", .nodes [⟨1, by decide⟩])] []
    let run := (ofList [start, list]).run ev d.root { trace := true } 3
    let s := run.summary true
    renderDetailed (ofList [start, list]) ev d.root { trace := true } 3
        = .ok (some "!rule failed: late!list", s) ∧
      (s.invocations, s.unmatched, s.fallbacks, s.maxDepth) = (3, 2, 1, 1) ∧
      run.Account ev .ignore s := by
  intro d d late start list ev run s
  have result : run.result = .ok (some "!rule failed: late!list") := by decide +kernel
  have h : renderDetailed (ofList [start, list]) ev d.root { trace := true } 3
      = .ok (some "!rule failed: late!list", s) := by
    show run.result.map _ = _
    rw [result]
    rfl
  exact ⟨h, by decide +kernel, account_of_renderDetailed rfl h⟩

end Stylesheet
