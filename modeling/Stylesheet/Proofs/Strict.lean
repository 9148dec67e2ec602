import Stylesheet.Document.Node
import Stylesheet.Proofs.Lifting

namespace Stylesheet

variable {ν α β : Type}

theorem Event.ofStep?_of_matched [TreeNode ν] {log : List (Step ν)}
    (matched : ∀ s ∈ log, s.isUnmatched = false) (p q : UnmatchedPolicy) :
    log.filterMap (ofStep? p) = log.filterMap (ofStep? q) := by
  apply List.filterMap_congr
  intro s hs
  cases s with
  | unmatched v => cases matched _ hs
  | _ => rfl

namespace Run

variable [TreeNode ν]

/-- The second run is the first one, or what it does up to its first unmatched node, which is the
error that the second run ends with. -/
inductive Cut : Run ν α → Run ν α → Prop
  | whole {r : Run ν α} (matched : ∀ s ∈ r.log, s.isUnmatched = false) : Cut r r
  | first {before after : List (Step ν)} {u : Visit ν} {result : Except Halt α}
      (matched : ∀ s ∈ before, s.isUnmatched = false) :
      Cut ⟨before ++ .unmatched u :: after, result⟩
        ⟨before ++ [.unmatched u],
          .error (.failure (.unmatched u.key.text u.mode (TreeNode.kind u.node)))⟩

namespace Cut

theorem single {s : Step ν} (matched : s.isUnmatched = false) (result : Except Halt α) :
    Cut ⟨[s], result⟩ ⟨[s], result⟩ :=
  .whole (List.forall_mem_singleton.2 matched)

theorem halt (h : Halt) : Cut (Run.halt h : Run ν α) (Run.halt h) :=
  .whole (List.forall_mem_nil _)

theorem bind {r r' : Run ν α} {f f' : α → Run ν β} (h : Cut r r')
    (hf : ∀ x, r.result = .ok x → Cut (f x) (f' x)) : Cut (r >>= f) (r' >>= f') := by
  cases h with
  | whole matched =>
    cases hr : r.result with
    | error e =>
      rw [bind_error hr, bind_error hr]
      exact .whole matched
    | ok x =>
      rw [bind_ok hr, bind_ok hr]
      have hx := hf x hr
      generalize f x = s at hx
      generalize f' x = s' at hx
      cases hx with
      | whole matched' => exact .whole (List.forall_mem_append.2 ⟨matched, matched'⟩)
      | first matched' =>
        dsimp only
        rw [← List.append_assoc, ← List.append_assoc]
        exact .first (List.forall_mem_append.2 ⟨matched, matched'⟩)
  | @first before after u result matched =>
    cases result with
    | error e => exact .first matched
    | ok x =>
      show Cut ⟨(before ++ .unmatched u :: after) ++ (f x).log, (f x).result⟩ _
      rw [List.append_assoc]
      exact .first matched

theorem lifts (ev : Evaluator ν) : Lifts ev (fun _ => Cut) where
  pure _ := .whole (List.forall_mem_nil _)
  bind := bind
  ask _ _ := single rfl _
  query _ _ := single rfl _
  fallBack _ := single rfl _

end Cut

end Run

namespace Registry

variable {history : List (Registration Body)} [TreeNode ν]

theorem cut_visit (passesOn : ∀ r ∈ history, r.body.passesOn = true) (ev : Evaluator ν)
    (limit : Nat) (v : Visit ν) :
    ((ofList history).visit ev .ignore limit v).Cut ((ofList history).visit ev .error limit v) := by
  have lifts := Run.Cut.lifts ev
  refine lifts.visit (.halt _) (fun {limit v found} _ hf entered => ?_) rfl
  cases found with
  | none => exact .first (List.forall_mem_nil _)
  | some found =>
    obtain ⟨rule, fallback⟩ := found
    have hb := passesOn_of_winner passesOn hf
    have body := lifts.perform _ _ entered (fun message => .halt _) hb .fresh
    exact lifts.bind (.single rfl _) fun _ _ => lifts.map some body

/-- A run that ignores no node is the same if unmatched nodes are errors. Any other run then ends at
the first node that it ignores, whatever becomes of it later. -/
theorem run_strict (passesOn : ∀ r ∈ history, r.body.passesOn = true) (ev : Evaluator ν) (root : ν)
    (options : Options) (limit : Nat) :
    let tolerant : Options := { options with unmatched := .ignore }
    let strict : Options := { options with unmatched := .error }
    let r := (ofList history).run ev root tolerant limit
    let r' := (ofList history).run ev root strict limit
    ((r.summary options.trace).unmatched = 0 →
      r' = r ∧ r'.events .error = r.events .ignore ∧
      renderDetailed (ofList history) ev root strict limit
        = renderDetailed (ofList history) ev root tolerant limit) ∧
    (0 < (r.summary options.trace).unmatched → ∃ before u after,
      r.log = before ++ .unmatched u :: after ∧ (∀ s ∈ before, s.isUnmatched = false) ∧
      r'.log = before ++ [.unmatched u] ∧
      renderUsing (ofList history) ev root strict limit
        = .error (.failure (.unmatched u.key.text u.mode (TreeNode.kind u.node))) ∧
      r'.calls = before.filterMap Step.call? ∧
      r.events .ignore = r'.events .error
        ++ .omitting false u.key.text u.mode (TreeNode.kind u.node)
          :: after.filterMap (Event.ofStep? .ignore)) := by
  intro tolerant strict r r'
  have cut : r.Cut r' := cut_visit passesOn ev limit (.root root options.mode)
  show (_ → _ ∧ _ ∧ r'.result.map (fun output => (output, r'.summary options.trace))
    = r.result.map (fun output => (output, r.summary options.trace))) ∧
      (_ → ∃ before u after, _ ∧ _ ∧ _ ∧ r'.result = _ ∧ _)
  clear_value r r'
  cases cut with
  | whole matched =>
    have none : r.log.countP Step.isUnmatched = 0 :=
      List.countP_eq_zero.2 fun s hs => by simp [matched s hs]
    refine ⟨fun _ => ⟨rfl, Event.ofStep?_of_matched matched .., rfl⟩, fun some => ?_⟩
    exact absurd none (Nat.ne_of_gt some)
  | @first before after u result matched =>
    constructor
    · intro none
      have := List.countP_eq_zero.1 none (.unmatched u) (by simp)
      exact absurd rfl this
    · intro _
      refine ⟨before, u, after, rfl, matched, rfl, rfl, ?_, ?_⟩
      · rw [Run.calls, List.filterMap_append]
        exact List.append_nil _
      · simp only [Run.events, List.filterMap_append,
          Event.ofStep?_of_matched matched .error .ignore, List.append_assoc]
        rfl

/-- A text that no rule matches, below a list whose body fails late: strictly the run fails with the
text and not with the list. -/
theorem run_strict_late :
    let d := Document.empty.append Document.empty.root (.element "list" [("id", "x")])
    let d := d.append ⟨1, by decide⟩ (.text "y")
    let start : Registration Body := ⟨.default, "/", .traverse none .keep .count⟩
    let list : Registration Body :=
      ⟨.default, "list", .seq (.traverse none .keep .count) (.fail "late")⟩
    let ev : Evaluator d.Node :=
      .ofTables [("/", .nodes [d.root]), ("list", .nodes [⟨1, by decide⟩])] []
    let g := ofList [start, list]
    renderUsing g ev d.root {} 4 = .error (.failure (.rule "late")) ∧
      renderUsing g ev d.root { unmatched := .error } 4
        = .error (.failure (.unmatched "x[#/0/0]" .default .text)) ∧
      ∃ before u after, (g.run ev d.root {} 4).log = before ++ .unmatched u :: after ∧
        u.key.text = "x[#/0/0]" ∧
        (g.run ev d.root { unmatched := .error } 4).calls = before.filterMap Step.call? := by
  intro d₁ d start list ev g
  have passesOn : ∀ r ∈ [start, list], r.body.passesOn = true := by decide
  have late : renderUsing g ev d.root {} 4 = .error (.failure (.rule "late")) := by
    decide +kernel
  have omitted : renderUsing g ev d.root { unmatched := .error } 4
      = .error (.failure (.unmatched "x[#/0/0]" .default .text)) := by decide +kernel
  obtain ⟨before, u, after, log, -, -, strict, calls, -⟩ :=
    (run_strict passesOn ev d.root {} 4).2 (by decide +kernel)
  obtain ⟨key, -, -⟩ := Failure.unmatched.inj (Halt.failure.inj (Except.error.inj
    (strict.symm.trans omitted)))
  exact ⟨late, omitted, before, u, after, log, key, calls⟩

end Registry

end Stylesheet
