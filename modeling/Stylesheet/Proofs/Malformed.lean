import Mathlib
import Stylesheet.Proofs.Errors
import Stylesheet.Proofs.Query.Unambiguous
import Stylesheet.Summary

namespace Stylesheet

variable {ν β : Type}

def Query.Malformed (s : String) : Prop := ∃ fault, Query.parse s = .error fault

theorem Query.exists_of_not_malformed {s : String} (h : ¬Query.Malformed s) :
    ∃ q, Query.parse s = .ok q := by
  cases hp : Query.parse s with
  | ok q => exact ⟨q, rfl⟩
  | error fault => exact absurd ⟨fault, hp⟩ h

namespace Evaluator

section

variable {ev : Evaluator ν} {node : ν}

theorem Asked.fails_of_mem {rules : List (Rule β)} {run : Run ν (Option (Rule β))}
    (h : ev.Asked node rules run) (decreasing : rules.Pairwise Rule.Exceeds) {s : Rule β}
    (hs : s ∈ rules) {e : EvaluationError} (he : ev.answer node s = .error e) :
    ∃ before r f, IsBest (fun r => ∃ e, ev.answer node r = .error e) rules r ∧
      ev.answer node r = .error f ∧
      run = ⟨questions node (before ++ [r]), .error (.failure (.evaluation f))⟩ := by
  cases h with
  | found answered best =>
    obtain ⟨b, hb⟩ := answered s hs
    cases he.symm.trans hb
  | nothing refused => cases he.symm.trans (refused s hs)
  | @fails before after r f answered error =>
    refine ⟨before, r, f, ⟨by simp, ⟨f, error⟩, fun t ht fails => ?_⟩, error, rfl⟩
    rcases List.mem_append.1 ht with ht | ht
    · obtain ⟨e', he'⟩ := fails
      obtain ⟨b, hb⟩ := answered t ht
      cases he'.symm.trans hb
    · have below := (List.pairwise_append.1 decreasing).2.1
      exact (List.mem_cons.1 ht).imp id ((List.pairwise_cons.1 below).1 t)

theorem Asked.ok {rules : List (Rule β)} {run : Run ν (Option (Rule β))}
    (h : ev.Asked node rules run) (answered : ∀ s ∈ rules, ∃ b, ev.answer node s = .ok b) :
    ∃ found, run.result = .ok found := by
  cases h with
  | found _ best => exact ⟨_, rfl⟩
  | nothing refused => exact ⟨_, rfl⟩
  | @fails before after r f _ error =>
    obtain ⟨b, hb⟩ := answered r (by simp)
    cases error.symm.trans hb

theorem Searched.ok {m : Mode} {own fallback : List (Rule β)}
    {run : Run ν (Option (Rule β × Bool))} (h : ev.Searched node m own fallback run)
    (ho : ∀ s ∈ own, ∃ b, ev.answer node s = .ok b)
    (hf : ∀ s ∈ fallback, ∃ b, ev.answer node s = .ok b) : ∃ found, run.result = .ok found := by
  cases h with
  | own h => exact ⟨_, rfl⟩
  | fails h =>
    obtain ⟨found, hr⟩ := h.ok ho
    cases hr
  | nothing default h => exact ⟨_, rfl⟩
  | fallback named h h' =>
    obtain ⟨found, rfl⟩ := h'.ok hf
    exact ⟨_, rfl⟩

theorem winner_of_error {g : Registry β} {m : Mode} {log : List (Step ν)} {e : Halt}
    (h : ev.firstMatch node (g.ranked m) = ⟨log, .error e⟩) :
    ev.winner g node m = ⟨log, .error e⟩ := by
  rw [winner, h, Run.bind_error rfl]

end

end Evaluator

variable {d : Document}

theorem answer_of_parse_error {r : Rule β} {fault : Query.Fault} (node : d.Node)
    (h : Query.parse r.head.pattern = .error fault) :
    (Evaluator.ofQueries d).answer node r = .error ⟨r.head.pattern, fault.message⟩ :=
  (Query.answers_of_parse_error h node).2

theorem answer_of_not_malformed {r : Rule β} (node : d.Node)
    (h : ¬Query.Malformed r.head.pattern) :
    ∃ b, (Evaluator.ofQueries d).answer node r = .ok b := by
  obtain ⟨q, hq⟩ := Query.exists_of_not_malformed h
  exact ⟨_, (Query.answers_of_parse_ok hq node).2⟩

theorem malformed_iff {r : Rule β} (node : d.Node) : Query.Malformed r.head.pattern
    ↔ ∃ e, (Evaluator.ofQueries d).answer node r = .error e := by
  constructor
  · rintro ⟨fault, h⟩
    exact ⟨_, answer_of_parse_error node h⟩
  · rintro ⟨e, he⟩
    by_contra h
    obtain ⟨b, hb⟩ := answer_of_not_malformed node h
    cases he.symm.trans hb

theorem IsBest.perm {P : Rule β → Prop} {rules rules' : List (Rule β)} {r : Rule β}
    (h : IsBest P rules r) (perm : rules.Perm rules') : IsBest P rules' r :=
  ⟨perm.mem_iff.1 h.mem, h.holds, fun s hs => h.greatest s (perm.mem_iff.2 hs)⟩

namespace Registry

variable {history : List (Registration Body)}

theorem run_of_malformed (h : ∃ x ∈ history, x.mode = .default ∧ Query.Malformed x.pattern)
    (root : d.Node) {options : Options} (mode : options.mode = .default) (limit : Nat) :
    ∃ before r fault,
      IsBest (fun r => Query.Malformed r.head.pattern) (rulesIn history .default) r ∧
      Query.parse r.head.pattern = .error fault ∧
      (ofList history).run (.ofQueries d) root options (limit + 1)
        = ⟨Evaluator.questions root (before ++ [r]),
            .error (.failure (.evaluation ⟨r.head.pattern, fault.message⟩))⟩ := by
  obtain ⟨x, hx, hm, fault, hp⟩ := h
  obtain ⟨n, hn⟩ := List.mem_iff_getElem?.1 hx
  have records := records_ofList history
  have ranked : x.rule n ∈ (ofList history).ranked .default :=
    (records.perm .default).mem_iff.2 (mem_rulesIn.2 ⟨n, x, hn, hm, rfl⟩)
  have decreasing := records.decreasing .default
  obtain ⟨before, r, f, best, error, asked⟩ :=
    (Evaluator.asked_firstMatch decreasing).fails_of_mem decreasing ranked
      (answer_of_parse_error root hp)
  simp only [← malformed_iff] at best
  obtain ⟨fault', hp'⟩ := best.holds
  refine ⟨before, r, fault', best.perm (records.perm .default), hp', ?_⟩
  cases error.symm.trans (answer_of_parse_error root hp')
  have search : (Evaluator.ofQueries d).winner (ofList history) root options.mode = _ :=
    Evaluator.winner_of_error (mode ▸ asked)
  rw [run, visit_succ]
  show (Evaluator.winner _ _ root options.mode >>= _) = _
  rw [search, Run.bind_error rfl]

/-- If all patterns and queries can be parsed, then the evaluator always answers. -/
theorem visit_ne_evaluation
    (sound : ∀ x ∈ history, ∀ text ∈ x.pattern :: x.body.queries, ¬Query.Malformed text)
    (policy : UnmatchedPolicy) (limit : Nat) (v : Visit d.Node) (e : EvaluationError) :
    ((ofList history).visit (.ofQueries d) policy limit v).result
      ≠ .error (.failure (.evaluation e)) := by
  have answered (node : d.Node) (m : Mode) : ∀ r ∈ (ofList history).ranked m,
      ∃ b, (Evaluator.ofQueries d).answer node r = .ok b := by
    intro r hr
    obtain ⟨n, x, hx, -, rfl⟩ := mem_rulesIn.1 (((records_ofList history).perm m).mem_iff.1 hr)
    exact answer_of_not_malformed node
      (sound x (List.mem_of_getElem? hx) _ List.mem_cons_self)
  induction limit generalizing v with
  | zero => nofun
  | succ limit ih =>
    intro h
    rcases error_visit h with h | h | h
    · have searched := searched_ofList history (.ofQueries d) v.node v.mode
      obtain ⟨found, hf⟩ := searched.ok (answered _ _) (answered _ _)
      cases h.symm.trans hf
    · cases h
    · cases h with
      | entered hu h => exact ih _ h
      | @query c _ hc h =>
        rw [Request.select] at h
        split at h
        next path hp =>
          have mem := Body.queries_of_requests c hc path hp
          rcases bodyAt_ofList (Evaluator.ofQueries d) v with ⟨x, hx, body⟩ | body
          · rw [body] at mem
            obtain ⟨q, hq⟩ := Query.exists_of_not_malformed
              (sound x hx path (List.mem_cons_of_mem _ mem))
            rw [Evaluator.query, Run.ofReply, (Query.answers_of_parse_ok hq v.node).1] at h
            cases h
          · rw [body] at mem
            cases mem
        next => cases h

end Registry

/-- With queries as patterns, a malformed pattern of the default mode is the end of every run in
this mode: the error is about the best of the malformed patterns, and nothing was done but asking.
If instead no pattern and no query is malformed, then no run comes to an error of the evaluator. -/
theorem malformed_surfaces (history : List (Registration Body)) :
    ((∃ x ∈ history, x.mode = .default ∧ Query.Malformed x.pattern) →
      ∀ (d : Document) (root : d.Node) (options : Options) (limit : Nat), options.mode = .default →
        ∃ before r fault,
          IsBest (fun r => Query.Malformed r.head.pattern) (rulesIn history .default) r ∧
          Query.parse r.head.pattern = .error fault ∧
          let error := Halt.failure (.evaluation ⟨r.head.pattern, fault.message⟩)
          (Registry.ofList history).run (.ofQueries d) root options (limit + 1)
              = ⟨Evaluator.questions root (before ++ [r]), .error error⟩ ∧
            renderDetailed (.ofList history) (.ofQueries d) root options (limit + 1)
              = .error error) ∧
    ((∀ x ∈ history, ∀ text ∈ x.pattern :: x.body.queries, ¬Query.Malformed text) →
      ∀ (d : Document) (root : d.Node) (options : Options) (limit : Nat) (e : EvaluationError),
        renderDetailed (.ofList history) (.ofQueries d) root options limit
          ≠ .error (.failure (.evaluation e))) := by
  refine ⟨fun h d root options limit mode => ?_, fun sound d root options limit e h => ?_⟩
  · obtain ⟨before, r, fault, best, hp, run⟩ := Registry.run_of_malformed h root mode limit
    refine ⟨before, r, fault, best, hp, run, ?_⟩
    rw [renderDetailed, run]
    rfl
  · exact Registry.visit_ne_evaluation sound options.unmatched limit _ e
      (Except.map_eq_error.1 h)

/-- The list matches the root and ranks before the pattern that has no end. -/
theorem malformed_surfaces_unended :
    let d := Document.empty.append Document.empty.root (.element "list" [])
    let list : Registration Body := ⟨.default, "list", .traverse (some "list") .keep .count⟩
    let bad : Registration Body := ⟨.default, "*/", .skip⟩
    let texts := "list" :: list.body.queries
    (Evaluator.ofQueries d).accepts "list" d.root = .ok true ∧
      Specificity.of "*/" < Specificity.of "list" ∧
      Query.Malformed "*/" ∧ (∀ text ∈ texts, ¬Query.Malformed text) ∧
      (∃ log message, (Registry.ofList [list, bad]).run (.ofQueries d) d.root {} 3
        = ⟨log, .error (.failure (.evaluation ⟨"*/", message⟩))⟩) ∧
      ∀ e, renderDetailed (.ofList [list]) (.ofQueries d) d.root {} 3
        ≠ .error (.failure (.evaluation e)) := by
  intro d list bad texts
  have parsed : Query.parse "list" = .ok [.mk false [.mk .child (.element (some "list")) []]] := by
    cbv
  have malformed : Query.Malformed "*/" := ⟨.expectedTest none, by cbv⟩
  have sound : ∀ text ∈ texts, ¬Query.Malformed text := by
    rintro text ht ⟨fault, hp⟩
    obtain rfl : text = "list" := by simpa [texts, list, Body.queries] using ht
    cases parsed.symm.trans hp
  refine ⟨?_, by decide +kernel, malformed, sound, ?_, ?_⟩
  · rw [(Query.answers_of_parse_ok parsed d.root).2]
    decide +kernel
  · obtain ⟨before, r, fault, best, hp, run, -⟩ := (malformed_surfaces [list, bad]).1
      ⟨bad, by simp, rfl, malformed⟩ d d.root {} 2 rfl
    have mem : r ∈ [list.rule 0, bad.rule 1] := best.mem
    rcases List.mem_pair.1 mem with rfl | rfl
    · exact absurd best.holds (sound "list" List.mem_cons_self)
    · exact ⟨_, _, run⟩
  · exact (malformed_surfaces [list]).2 (List.forall_mem_singleton.2 sound) d d.root {} 3

end Stylesheet
