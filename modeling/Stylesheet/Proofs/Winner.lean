import Stylesheet.Proofs.Registry
import Stylesheet.Winner

/-! The rule for a node is the best of the rules that match it. All rules of the mode are asked in
the order of their ranks, and those of the default mode after them if the mode has a name and none
of its rules matches; the first failure on the way is the failure of the search. -/

namespace Stylesheet

variable {ν β : Type}

structure IsRanking (rules ranked : List (Rule β)) : Prop where
  perm : ranked.Perm rules
  decreasing : ranked.Pairwise Rule.Exceeds

/-- The rule of the list that has the property and the highest rank of those that do. -/
structure IsBest (P : Rule β → Prop) (rules : List (Rule β)) (r : Rule β) : Prop where
  mem : r ∈ rules
  holds : P r
  greatest : ∀ s ∈ rules, P s → s = r ∨ r.Exceeds s

namespace Evaluator

def questions (node : ν) (rules : List (Rule β)) : List (Step ν) :=
  rules.map fun r => .call (.accepts r.head.pattern node)

variable (ev : Evaluator ν) (node : ν)

def answer (r : Rule β) : Except EvaluationError Bool := ev.accepts r.head.pattern node

inductive Asked : List (Rule β) → Run ν (Option (Rule β)) → Prop
  | found {rules : List (Rule β)} {r : Rule β}
      (answered : ∀ s ∈ rules, ∃ b, ev.answer node s = .ok b)
      (best : IsBest (fun s => ev.answer node s = .ok true) rules r) :
      Asked rules ⟨questions node rules, .ok (some r)⟩
  | nothing {rules : List (Rule β)} (refused : ∀ s ∈ rules, ev.answer node s = .ok false) :
      Asked rules ⟨questions node rules, .ok none⟩
  | fails {before after : List (Rule β)} {r : Rule β} {e : EvaluationError}
      (answered : ∀ s ∈ before, ∃ b, ev.answer node s = .ok b)
      (error : ev.answer node r = .error e) :
      Asked (before ++ r :: after)
        ⟨questions node (before ++ [r]), .error (.failure (.evaluation e))⟩

/-- What comes of the search: the rules of the mode are asked, and those of the default mode after
them if need be. -/
inductive Searched (m : Mode) (own fallback : List (Rule β)) :
    Run ν (Option (Rule β × Bool)) → Prop
  | own {log : List (Step ν)} {r : Rule β} (h : ev.Asked node own ⟨log, .ok (some r)⟩) :
      Searched m own fallback ⟨log, .ok (some (r, false))⟩
  | fails {log : List (Step ν)} {e : Halt} (h : ev.Asked node own ⟨log, .error e⟩) :
      Searched m own fallback ⟨log, .error e⟩
  | nothing {log : List (Step ν)} (default : m = .default) (h : ev.Asked node own ⟨log, .ok none⟩) :
      Searched m own fallback ⟨log, .ok none⟩
  | fallback {log log' : List (Step ν)} {result : Except Halt (Option (Rule β))}
      (named : m ≠ .default) (h : ev.Asked node own ⟨log, .ok none⟩)
      (h' : ev.Asked node fallback ⟨log', result⟩) :
      Searched m own fallback
        ⟨log ++ .fallBack m :: log', result.map fun found => found.map (·, true)⟩

variable {ev node}

theorem firstMatch_cons_error {r : Rule β} {e : EvaluationError} (h : ev.answer node r = .error e)
    (rest : List (Rule β)) :
    ev.firstMatch node (r :: rest) = ⟨questions node [r], .error (.failure (.evaluation e))⟩ := by
  have hr : (ev.ask r.head.pattern node).result = .error (.failure (.evaluation e)) := by
    rw [answer] at h
    rw [ask, Run.ofReply, h]
    rfl
  rw [firstMatch, Run.bind_error hr]
  rfl

theorem firstMatch_cons_ok {r : Rule β} {b : Bool} (h : ev.answer node r = .ok b)
    (rest : List (Rule β)) :
    ev.firstMatch node (r :: rest)
      = ⟨questions node [r] ++ (ev.firstMatch node rest).log,
          (ev.firstMatch node rest).result.map fun later => if b then some r else later⟩ := by
  have hr : (ev.ask r.head.pattern node).result = .ok b := by
    rw [answer] at h
    rw [ask, Run.ofReply, h]
    rfl
  rw [firstMatch, Run.bind_ok hr]
  cases hs : (ev.firstMatch node rest).result with
  | error e => rw [Run.bind_error hs]; rfl
  | ok later => rw [Run.bind_ok hs, Run.log_pure, List.append_nil]; rfl

/-- The first match in the order of the ranks is the best match. -/
theorem asked_firstMatch {rules : List (Rule β)} (h : rules.Pairwise Rule.Exceeds) :
    ev.Asked node rules (ev.firstMatch node rules) := by
  induction rules with
  | nil => exact .nothing (by simp)
  | cons r rest ih =>
    obtain ⟨hr, hrest⟩ := List.pairwise_cons.1 h
    cases hb : ev.answer node r with
    | error e =>
      rw [firstMatch_cons_error hb]
      exact @Asked.fails _ _ ev node [] rest r e (by simp) hb
    | ok b =>
      rw [firstMatch_cons_ok hb]
      have best : b = true → IsBest (fun s => ev.answer node s = .ok true) (r :: rest) r := by
        rintro rfl
        refine ⟨List.mem_cons_self, hb, fun s hs _ => ?_⟩
        exact (List.mem_cons.1 hs).imp id (hr s)
      have ih := ih hrest
      generalize ev.firstMatch node rest = run at ih
      cases ih with
      | @found _ t answered hbest =>
        have answered : ∀ s ∈ r :: rest, ∃ b, ev.answer node s = .ok b :=
          List.forall_mem_cons.2 ⟨⟨b, hb⟩, answered⟩
        cases b with
        | true => exact .found answered (best rfl)
        | false =>
          refine .found answered ⟨List.mem_cons_of_mem _ hbest.mem, hbest.holds, ?_⟩
          refine List.forall_mem_cons.2 ⟨fun h => ?_, hbest.greatest⟩
          rw [hb] at h
          cases h
      | nothing refused =>
        cases b with
        | true =>
          exact .found (List.forall_mem_cons.2 ⟨⟨_, hb⟩, fun s hs => ⟨_, refused s hs⟩⟩) (best rfl)
        | false => exact .nothing (List.forall_mem_cons.2 ⟨hb, refused⟩)
      | @fails before after t e answered error =>
        have answered : ∀ s ∈ r :: before, ∃ b, ev.answer node s = .ok b :=
          List.forall_mem_cons.2 ⟨⟨b, hb⟩, answered⟩
        exact .fails answered error

theorem searched_winner {g : Registry β} {m : Mode} (hm : (g.ranked m).Pairwise Rule.Exceeds)
    (hd : (g.ranked .default).Pairwise Rule.Exceeds) :
    ev.Searched node m (g.ranked m) (g.ranked .default) (ev.winner g node m) := by
  have own : ev.Asked node _ (ev.firstMatch node (g.ranked m)) := asked_firstMatch hm
  have fallback : ev.Asked node _ (ev.firstMatch node (g.ranked .default)) := asked_firstMatch hd
  rw [winner]
  cases hr : (ev.firstMatch node (g.ranked m)).result with
  | error e =>
    rw [Run.bind_error hr]
    exact .fails (by rwa [← hr])
  | ok found =>
    rw [Run.bind_ok hr]
    cases found with
    | some r =>
      rw [Run.log_pure, List.append_nil]
      exact .own (by rwa [← hr])
    | none =>
      have own : ev.Asked node (g.ranked m) ⟨(ev.firstMatch node (g.ranked m)).log, .ok none⟩ := by
        rwa [← hr]
      dsimp only
      split
      next hd =>
        rw [Run.log_pure, List.append_nil]
        exact .nothing (beq_iff_eq.1 hd) own
      next hd =>
        have named : m ≠ .default := fun h => hd (beq_iff_eq.2 h)
        rw [Run.bind_ok (x := ()) rfl, bind_pure_comp, Run.map_eq]
        exact .fallback named own fallback

theorem Asked.mem {rules : List (Rule β)} {run : Run ν (Option (Rule β))}
    (h : ev.Asked node rules run) {r : Rule β} (hr : run.result = .ok (some r)) : r ∈ rules := by
  cases h with
  | found answered best =>
    cases hr
    exact best.mem
  | nothing refused => cases hr
  | fails answered error => cases hr

theorem Searched.mem {m : Mode} {own fallback : List (Rule β)}
    {run : Run ν (Option (Rule β × Bool))} (h : ev.Searched node m own fallback run) {r : Rule β}
    {fell : Bool} (hr : run.result = .ok (some (r, fell))) :
    r ∈ if fell then fallback else own := by
  cases h with
  | own h =>
    cases hr
    exact h.mem rfl
  | fails h => cases hr
  | nothing default h => cases hr
  | @fallback log log' result named h h' =>
    cases result with
    | error e => cases hr
    | ok found =>
      cases found with
      | none => cases hr
      | some s =>
        cases hr
        exact h'.mem rfl

theorem Asked.refused {rules : List (Rule β)} {run : Run ν (Option (Rule β))}
    (h : ev.Asked node rules run) (hr : run.result = .ok none) {s : Rule β} (hs : s ∈ rules) :
    ev.answer node s = .ok false := by
  cases h with
  | found answered best => cases hr
  | nothing refused => exact refused s hs
  | fails answered error => cases hr

theorem Searched.isBest {m : Mode} {own fallback : List (Rule β)}
    {run : Run ν (Option (Rule β × Bool))} (h : ev.Searched node m own fallback run) {s : Rule β}
    (hs : s ∈ own) (hm : ev.answer node s = .ok true) {r : Rule β} {fell : Bool}
    (hr : run.result = .ok (some (r, fell))) :
    IsBest (fun s => ev.answer node s = .ok true) own r := by
  cases h with
  | own h =>
    cases hr
    cases h with
    | found answered best => exact best
  | fails h => cases hr
  | nothing default h => cases hr
  | fallback named h h' => cases hm.symm.trans (h.refused rfl hs)

theorem Asked.error {rules : List (Rule β)} {run : Run ν (Option (Rule β))}
    (h : ev.Asked node rules run) {e : Halt} (he : run.result = .error e) :
    ∃ f, e = .failure (.evaluation f) := by
  cases h with
  | found answered best => cases he
  | nothing refused => cases he
  | @fails _ _ _ f answered error =>
    cases he
    exact ⟨f, rfl⟩

theorem Searched.error {m : Mode} {own fallback : List (Rule β)}
    {run : Run ν (Option (Rule β × Bool))} (h : ev.Searched node m own fallback run) {e : Halt}
    (he : run.result = .error e) : ∃ f, e = .failure (.evaluation f) := by
  cases h with
  | own h => cases he
  | fails h =>
    cases he
    exact h.error rfl
  | nothing default h => cases he
  | @fallback log log' result named h h' =>
    cases result with
    | ok found => cases he
    | error e' =>
      cases he
      exact h'.error rfl

end Evaluator

theorem Registry.searched_ofList (history : List (Registration β)) (ev : Evaluator ν) (node : ν)
    (m : Mode) : ev.Searched node m ((ofList history).ranked m) ((ofList history).ranked .default)
      (ev.winner (ofList history) node m) :=
  Evaluator.searched_winner ((records_ofList history).decreasing m)
    ((records_ofList history).decreasing .default)

theorem Registry.mem_rulesIn_of_winner {history : List (Registration β)} {ev : Evaluator ν}
    {node : ν} {m : Mode} {r : Rule β} {fell : Bool}
    (h : (ev.winner (ofList history) node m).result = .ok (some (r, fell))) :
    r ∈ rulesIn history (if fell then .default else m) := by
  have records := records_ofList history
  have hmem := (searched_ofList history ev node m).mem h
  cases fell with
  | false => exact (records.perm m).mem_iff.1 hmem
  | true => exact (records.perm .default).mem_iff.1 hmem

theorem Registry.body_of_winner {history : List (Registration β)} {ev : Evaluator ν} {node : ν}
    {m : Mode} {r : Rule β} {fell : Bool}
    (h : (ev.winner (ofList history) node m).result = .ok (some (r, fell))) :
    ∃ x ∈ history, r.body = x.body := by
  obtain ⟨n, x, hx, -, rfl⟩ := mem_rulesIn.1 (mem_rulesIn_of_winner h)
  exact ⟨x, List.mem_of_getElem? hx, rfl⟩

theorem mode_of_mem_rulesIn {history : List (Registration β)} {m : Mode} {r : Rule β}
    (h : r ∈ rulesIn history m) : r.head.mode = m := by
  obtain ⟨n, x, -, hm, rfl⟩ := mem_rulesIn.1 h
  exact hm

/-- The search goes through the rules of the history in the mode, and perhaps through those in the
default mode, by rank; a rule of another mode is never found. -/
theorem winner_searched (history : List (Registration β)) (ev : Evaluator ν) (node : ν) (m : Mode) :
    ∃ own fallback, IsRanking (rulesIn history m) own ∧
      IsRanking (rulesIn history .default) fallback ∧
      ev.Searched node m own fallback (ev.winner (.ofList history) node m) ∧
      ∀ r fell, (ev.winner (.ofList history) node m).result = .ok (some (r, fell)) →
        r.head.mode = if fell then .default else m := by
  have h := Registry.records_ofList history
  have hs : ev.Searched node m _ _ (ev.winner (.ofList history) node m) :=
    Evaluator.searched_winner (h.decreasing m) (h.decreasing .default)
  refine ⟨_, _, ⟨h.perm m, h.decreasing m⟩, ⟨h.perm .default, h.decreasing .default⟩, hs, ?_⟩
  intro r fell hr
  have hmem := hs.mem hr
  cases fell with
  | false => exact mode_of_mem_rulesIn ((h.perm m).mem_iff.1 hmem)
  | true => exact mode_of_mem_rulesIn ((h.perm .default).mem_iff.1 hmem)

end Stylesheet
