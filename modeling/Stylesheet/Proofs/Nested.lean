import Mathlib.Data.List.Nodup
import Stylesheet.Document.Node
import Stylesheet.Proofs.Rebase

/-! The visits of a run are runs of their own. The log of each visit stands in one piece in the log
of the run, and is the log of a run from its node, taken up where the visit is. -/

namespace Stylesheet

variable {ν : Type}

/-- A rule at work makes the visit, which has the scope of its key if it carries no identifier. -/
inductive Reached [TreeNode ν] (log : List (Step ν)) : Visit ν → Option String → Prop
  | below {w : Visit ν} {rule : RuleHead} {fallback : Bool} (h : .invoke w rule fallback ∈ log)
      (hop : Hop) (mode : Mode) (node : ν) : Reached log (w.descend hop mode node) w.key.scope

theorem Reached.mono [TreeNode ν] {l m : List (Step ν)} {u : Visit ν} {scope : Option String}
    (h : Reached l u scope) (hs : l ⊆ m) : Reached m u scope := by
  obtain @⟨w, rule, fallback, h, hop, mode, node⟩ := h
  exact .below (hs h) hop mode node

inductive Entered [TreeNode ν] (root : ν) (mode : Mode) (log : List (Step ν)) :
    Visit ν → Option String → Prop
  | first : Entered root mode log (.root root mode) none
  | below {v : Visit ν} {scope : Option String} :
      Reached log v scope → Entered root mode log v scope

namespace Registry

variable {g : Registry Body} {ev : Evaluator ν} {policy : UnmatchedPolicy}

variable [TreeNode ν]

/-- The log of the visit is a part of the log; its depth takes away from the levels. -/
def HasPart (g : Registry Body) (ev : Evaluator ν) (policy : UnmatchedPolicy) (levels : Nat)
    (log : List (Step ν)) (u : Visit ν) : Prop :=
  ∃ limit, limit + u.depth = levels ∧ (g.visit ev policy limit u).log <:+: log

theorem HasPart.mono {levels : Nat} {l m : List (Step ν)} {u : Visit ν}
    (h : g.HasPart ev policy levels l u) (hs : l <:+: m) : g.HasPart ev policy levels m u :=
  let ⟨limit, hl, hp⟩ := h
  ⟨limit, hl, hp.trans hs⟩

/-- Every visit of a run has a part of the log to itself, and comes first or is reached from an
invocation. -/
theorem part_of_visit (limit : Nat) (v : Visit ν) :
    ∀ u ∈ (g.visit ev policy limit v).visits,
      g.HasPart ev policy (limit + v.depth) (g.visit ev policy limit v).log u ∧
        (u = v ∨ ∃ scope, Reached (g.visit ev policy limit v).log u scope) := by
  -- The invocation that makes the visits of a body stands before the log of the body, so for a body
  -- they are set apart.
  refine visit_induction
    (P := fun limit v log => (g.visit ev policy limit v).log = log →
      ∀ u ∈ log.filterMap Step.visit?,
        g.HasPart ev policy (limit + v.depth) log u ∧ (u = v ∨ ∃ scope, Reached log u scope))
    (Q := fun limit v log => ∀ u ∈ log.filterMap Step.visit?,
      g.HasPart ev policy (limit + (v.depth + 1)) log u ∧
        ((∃ hop mode node, u = v.descend hop mode node) ∨ ∃ scope, Reached log u scope))
    ?exhausted ?failed ?unmatched ?invoked ?nil ?append ?query ?entered limit v rfl
  case exhausted =>
    intro v _ u hu
    cases hu
  case failed =>
    intro limit v log e h _ u hu
    rw [visits_of_winner h] at hu
    cases hu
  case unmatched =>
    intro limit v log h hl u hu
    rw [List.filterMap_append, visits_of_winner h] at hu
    obtain rfl : u = v := by simpa [Step.visit?] using hu
    exact ⟨⟨limit + 1, rfl, hl ▸ List.infix_rfl⟩, .inl rfl⟩
  case invoked =>
    intro limit v log rule fallback below h hl hb _ u hu
    rw [List.filterMap_append, visits_of_winner h] at hu
    have hu : u = v ∨ u ∈ below.filterMap Step.visit? := by simpa [Step.visit?] using hu
    rcases hu with rfl | hu
    · exact ⟨⟨limit + 1, rfl, hl ▸ List.infix_rfl⟩, .inl rfl⟩
    · obtain ⟨part, reached⟩ := hb u hu
      have whole : below <:+: log ++ .invoke v rule.head fallback :: below :=
        (List.suffix_cons ..).isInfix.trans (List.suffix_append ..).isInfix
      have levels : limit + (v.depth + 1) = limit + 1 + v.depth := by omega
      refine ⟨levels ▸ part.mono whole, .inr ?_⟩
      rcases reached with ⟨hop, mode, node, rfl⟩ | ⟨scope, reached⟩
      · exact ⟨_, .below (List.mem_append_right _ List.mem_cons_self) hop mode node⟩
      · exact ⟨scope, reached.mono whole.subset⟩
  case nil =>
    intro limit v u hu
    cases hu
  case append =>
    intro limit v l m hl hm u hu
    rw [List.filterMap_append, List.mem_append] at hu
    rcases hu with hu | hu
    · obtain ⟨part, reached⟩ := hl u hu
      refine ⟨part.mono (List.prefix_append ..).isInfix, reached.imp_right ?_⟩
      exact Exists.imp fun scope h => h.mono (List.subset_append_left ..)
    · obtain ⟨part, reached⟩ := hm u hu
      refine ⟨part.mono (List.suffix_append ..).isInfix, reached.imp_right ?_⟩
      exact Exists.imp fun scope h => h.mono (List.subset_append_right ..)
  case query =>
    intro limit v path u hu
    cases hu
  case entered =>
    intro limit v hop mode node h u hu
    obtain ⟨part, reached⟩ := h rfl u hu
    exact ⟨part, reached.imp_left fun h => ⟨hop, mode, node, h⟩⟩

theorem scope_eq_none_iff {limit : Nat} {root : Visit ν} (hops : root.key.hops = [])
    (scope : root.key.scope = TreeNode.identifier root.node) {u : Visit ν}
    (hu : u ∈ (g.visit ev policy limit root).visits) :
    u.key.scope = none ↔ ∀ w ∈ (g.visit ev policy limit root).visits,
      w.key.hops <+: u.key.hops → TreeNode.identifier w.node = none := by
  have unique {u w : Visit ν} (hu : u ∈ (g.visit ev policy limit root).visits)
      (hw : w ∈ (g.visit ev policy limit root).visits) (h : w.key.hops = u.key.hops) : w = u :=
    List.inj_on_of_nodup_map (g.rooted_visit ev policy limit root).nodup hw hu h
  -- From the end of the route: a visit has a scope by its identifier or by the visit that makes it.
  generalize hroute : u.key.hops = route
  induction route using List.reverseRecOn generalizing u with
  | nil =>
    rcases (part_of_visit limit root u hu).2 with rfl | ⟨_, @⟨w, _, _, _, hop, mode, node⟩⟩
    · rw [scope]
      constructor
      · intro h w hw hp
        rw [unique hu hw ((List.prefix_nil.1 hp).trans hroute.symm), h]
      · exact fun h => h u hu (hroute ▸ List.prefix_rfl)
    · simp [Visit.descend, Key.descend] at hroute
  | append_singleton route hop ih =>
    rcases (part_of_visit limit root u hu).2 with rfl | ⟨_, @⟨w, _, _, hw, hop', mode, node⟩⟩
    · simp [hops] at hroute
    · have hw : w ∈ (g.visit ev policy limit root).visits :=
        List.mem_filterMap.2 ⟨_, hw, rfl⟩
      obtain ⟨hwr, -⟩ := List.append_inj' hroute rfl
      have either : (w.descend hop' mode node).key.scope = none
          ↔ TreeNode.identifier node = none ∧ w.key.scope = none := by
        simp only [Visit.descend, Key.descend]
        cases TreeNode.identifier node <;> simp
      refine either.trans ((and_congr_right' (ih hw hwr)).trans ?_)
      constructor
      · rintro ⟨hn, h⟩ x hx hp
        rcases List.prefix_concat_iff.1 hp with hp | hp
        · rw [unique hu hx (hp.trans hroute.symm)]
          exact hn
        · exact h x hx hp
      · intro h
        refine ⟨h _ hu (hroute ▸ List.prefix_rfl), fun x hx hp => h x hx ?_⟩
        exact hp.trans (List.prefix_append ..)

end Registry

namespace Run

variable {α β : Type}

theorem bind_eq_ok {r : Run ν α} {f : α → Run ν β} {y : β} :
    (r >>= f).result = .ok y ↔ ∃ x, r.result = .ok x ∧ (f x).result = .ok y := by
  cases h : r.result with
  | error e => simp [bind_error h]
  | ok x => simp [bind_ok h]

end Run

theorem countP_rebase (b : Base) {p : Step ν → Bool} (hp : ∀ s, p (s.rebase b) = p s)
    (log : List (Step ν)) : (log.map (Step.rebase b)).countP p = log.countP p := by
  rw [List.countP_map]
  exact List.countP_congr fun s _ => by rw [Function.comp_apply, hp]

theorem calls_rebase (b : Base) (log : List (Step ν)) :
    (log.map (Step.rebase b)).filterMap Step.call? = log.filterMap Step.call? := by
  rw [List.filterMap_map]
  exact congrArg (List.filterMap · log) (funext fun s => by cases s <;> rfl)

theorem Evaluator.query_eq_ok {ev : Evaluator ν} {path : String} {node : ν} {ns : List ν} :
    (ev.query path node).result = .ok ns ↔ ev.select path node = .ok ns := by
  simp only [query, Run.ofReply]
  cases ev.select path node <;> simp [Except.mapError]

variable [TreeNode ν]

def Visit.selection (ev : Evaluator ν) (v : Visit ν) :
    Option String → Except EvaluationError (List ν)
  | none => .ok (TreeNode.children v.node)
  | some path => ev.select path v.node

section

variable {enter : Visit ν → Run ν (Option String)} {v : Visit ν} {mode : Mode}
  {outcome : ν → Except Halt (Option String)}
  (he : ∀ hop n o, (enter (v.descend hop mode n)).result = .ok o ↔ outcome n = .ok o)

include he

theorem Visit.enterAll_eq_ok (hop : Nat → Hop) (position : Nat) (ns : List ν)
    (outputs : List String) : (v.enterAll enter hop mode position ns).result = .ok outputs ↔
      ∃ found, List.Forall₂ (fun n o => outcome n = .ok o) ns found ∧
        outputs = found.reduceOption := by
  induction ns generalizing position outputs with
  | nil =>
    simp only [enterAll, Run.result_pure, Except.ok.injEq, List.forall₂_nil_left_iff,
      exists_eq_left, List.reduceOption_nil]
    exact eq_comm
  | cons n ns ih =>
    simp only [enterAll, Run.bind_eq_ok, he, ih, List.forall₂_cons_left_iff]
    constructor
    · rintro ⟨o, ho, _, ⟨found, hf, rfl⟩, h⟩
      refine ⟨o :: found, ⟨o, found, ho, hf, rfl⟩, ?_⟩
      cases o <;> exact (Except.ok.inj h).symm
    · rintro ⟨_, ⟨o, found, ho, hf, rfl⟩, rfl⟩
      refine ⟨o, ho, _, ⟨found, hf, rfl⟩, ?_⟩
      cases o <;> rfl

theorem Visit.traverse_eq_ok {ev : Evaluator ν} {path : Option String} {next : NextMode}
    {s : Sites} {outputs : List String} (hm : mode = next.after v.mode) :
    (v.traverse enter ev path next s).1.result = .ok outputs ↔
      ∃ nodes found, v.selection ev path = .ok nodes ∧
        List.Forall₂ (fun n o => outcome n = .ok o) nodes found ∧
        outputs = found.reduceOption := by
  subst hm
  cases path with
  | some path =>
    simp only [traverse, selection, Run.bind_eq_ok, Evaluator.query_eq_ok, enterAll_eq_ok he,
      exists_and_left]
  | none =>
    simp only [traverse, selection, Except.ok.injEq, exists_and_left, exists_eq_left']
    split <;> exact enterAll_eq_ok he ..

end

/-- One run is the other taken up at `b`: it makes the same evaluator calls, invokes the same rules
for the same nodes in the same modes, and comes to the same end. A visit gets the scope of the base
just where no visit on its route carries an identifier. -/
structure Run.Rebases (b : Base) (alone nested : Run ν (Option String)) : Prop where
  log : nested.log = alone.log.map (Step.rebase b)
  calls : nested.calls = alone.calls
  invocations : (nested.summary false).invocations = (alone.summary false).invocations
  fallbacks : (nested.summary false).fallbacks = (alone.summary false).fallbacks
  unmatched : (nested.summary false).unmatched = (alone.summary false).unmatched
  ends : Ends (Halt.Rebased ν b) (fun x y => x.isSome = y.isSome) alone.result nested.result
  path : ∀ u ∈ alone.visits, ∃ rest, u.key.path = '#' :: rest ∧
    (u.rebase b).key.path = Key.path ⟨b.hops, b.scope⟩ ++ rest
  scope : ∀ u ∈ alone.visits, u.key.scope = none ↔
    ∀ w ∈ alone.visits, w.key.hops <+: u.key.hops → TreeNode.identifier w.node = none

namespace Registry

variable {history : List (Registration Body)} {ev : Evaluator ν}

theorem rebases_visit (level : ∀ r ∈ history, r.body.depthless = true) (ev : Evaluator ν) (b : Base)
    (policy : UnmatchedPolicy) (limit : Nat) (node : ν) (mode : Mode) :
    Run.Rebases b ((ofList history).visit ev policy limit (.root node mode))
      ((ofList history).visit ev policy limit ((Visit.root node mode).rebase b)) := by
  have h : Run.Coupled (.rebase ν b False) (Option.Rel fun s s' => False → s' = s)
      ((ofList history).visit ev policy limit (.root node mode))
      ((ofList history).visit ev policy limit ((Visit.root node mode).rebase b)) :=
    coupled_visit_rebase level False.elim policy limit (.root node mode)
  have log : _ = _ := h.log
  refine ⟨log, ?calls, ?invocations, ?fallbacks, ?unmatched, ?ends,
    fun u _ => ⟨_, rfl, u.path_rebase b⟩, fun u => scope_eq_none_iff rfl rfl⟩
  case calls =>
    rw [Run.calls, log, calls_rebase]
    rfl
  case invocations =>
    simp only [Run.summary, log]
    exact countP_rebase b (fun s => by cases s <;> rfl) _
  case fallbacks =>
    simp only [Run.summary, log]
    exact countP_rebase b (fun s => by cases s <;> rfl) _
  case unmatched =>
    simp only [Run.summary, log]
    exact countP_rebase b (fun s => by cases s <;> rfl) _
  case ends =>
    refine h.result.mono fun x y hxy => ?_
    cases hxy <;> rfl

theorem visit_descend_eq_ok (level : ∀ r ∈ history, r.body.depthless = true)
    (placeless : ∀ r ∈ history, r.body.placeless = true) (policy : UnmatchedPolicy) (limit : Nat)
    (v : Visit ν) (hop : Hop) (mode : Mode) (node : ν) (o : Option String) :
    ((ofList history).visit ev policy limit (v.descend hop mode node)).result = .ok o ↔
      ((ofList history).visit ev policy limit (.root node mode)).result = .ok o := by
  have h : Run.Coupled (.rebase ν ⟨v.key.hops ++ [hop], v.depth + 1, v.key.scope⟩ True)
      (Option.Rel fun s s' => True → s' = s)
      ((ofList history).visit ev policy limit (.root node mode)) _ :=
    coupled_visit_rebase level (fun _ => placeless) policy limit (.root node mode)
  rw [v.descend_eq_rebase]
  have same := h.result.mono (T := fun x y => y = x) fun x y hxy => by
    cases hxy with
    | none => rfl
    | some h => rw [h trivial]
  revert same
  generalize Run.result _ = r
  generalize Run.result _ = r'
  rintro (rfl | _)
  · rfl
  · simp

/-- A visit in a run is a run from its node taken up where the visit is. If also no text tells the
place, then a traverse call puts out what the runs from the selected nodes put out. -/
theorem nested_run (level : ∀ r ∈ history, r.body.depthless = true) (ev : Evaluator ν) (root : ν)
    (options : Options) (limit : Nat) :
    (∀ v ∈ ((ofList history).run ev root options limit).visits,
      ((ofList history).visit ev options.unmatched (limit - v.depth) v).log
          <:+: ((ofList history).run ev root options limit).log ∧
        ∃ scope, Entered root options.mode ((ofList history).run ev root options limit).log v
          scope) ∧
    (∀ v scope,
      Entered root options.mode ((ofList history).run ev root options limit).log v scope →
        Run.Rebases ⟨v.key.hops, v.depth, scope⟩
          ((ofList history).run ev v.node { options with mode := v.mode } (limit - v.depth))
          ((ofList history).visit ev options.unmatched (limit - v.depth) v)) ∧
    ((∀ r ∈ history, r.body.placeless = true) → ∀ below v path next s outputs,
      (Visit.traverse ((ofList history).visit ev options.unmatched below) ev v path next s).1.result
          = .ok outputs ↔
        ∃ nodes found, v.selection ev path = .ok nodes ∧
          List.Forall₂ (fun node output => renderUsing (ofList history) ev node
            { options with mode := next.after v.mode } below = .ok output) nodes found ∧
          outputs = found.reduceOption) := by
  refine ⟨fun v hv => ?part, fun v scope hv => ?rebases, ?outputs⟩
  case part =>
    obtain ⟨⟨below, levels, part⟩, entered⟩ := part_of_visit limit (.root root options.mode) v hv
    obtain rfl : below = limit - v.depth := by
      simp only [Visit.root] at levels
      omega
    refine ⟨part, ?_⟩
    rcases entered with rfl | ⟨scope, h⟩
    · exact ⟨none, .first⟩
    · exact ⟨scope, .below h⟩
  case rebases =>
    cases hv with
    | first =>
      have h := rebases_visit level ev ⟨[], 0, none⟩ options.unmatched limit root
        options.mode
      rwa [Visit.root_rebase] at h
    | below h =>
      obtain @⟨w, rule, fallback, -, hop, mode, node⟩ := h
      have h := rebases_visit level ev ⟨w.key.hops ++ [hop], w.depth + 1, w.key.scope⟩
        options.unmatched (limit - (w.depth + 1)) node mode
      rwa [← Visit.descend_eq_rebase] at h
  case outputs =>
    intro placeless below v path next s outputs
    exact Visit.traverse_eq_ok (fun hop n o =>
      visit_descend_eq_ok level placeless options.unmatched below v hop _ n o) rfl

/-- The document node below a list that has an identifier: the run from it has no scope, and this
visit of it has the scope of the list. -/
theorem nested_run_list :
    let d := Document.empty.append Document.empty.root (.element "list" [("id", "x")])
    let start : Registration Body := ⟨.default, "*", .traverse none (.enter ⟨"m"⟩) (.join ",")⟩
    let again : Registration Body :=
      ⟨⟨"m"⟩, "*", .seq (.field .name) (.traverse (some "/") (.enter ⟨"n"⟩) (.join ","))⟩
    let last : Registration Body := ⟨⟨"n"⟩, "*", .field .kind⟩
    let g := ofList [start, again, last]
    let ev : Evaluator d.Node := .ofTables [("*", .all)] [("/", .nodes [d.root])]
    let list := (Visit.root d.root .default).descend (.visit 0 0 ⟨"m"⟩) ⟨"m"⟩ ⟨1, by decide⟩
    let top := list.descend (.visit 0 0 ⟨"n"⟩) ⟨"n"⟩ d.root
    (g.run ev d.root {} 4).visits = [.root d.root .default, list, top] ∧
      (g.visit ev .ignore 2 top).log <:+: (g.run ev d.root {} 4).log ∧
      Run.Rebases ⟨top.key.hops, 2, some "x"⟩ (g.run ev d.root { mode := ⟨"n"⟩ } 2)
        (g.visit ev .ignore 2 top) ∧
      (Visit.traverse (g.visit ev .ignore 2) ev list (some "/") (.enter ⟨"n"⟩) .fresh).1.result
        = .ok ["document"] := by
  intro d start again last g ev list top
  have level : ∀ r ∈ [start, again, last], r.body.depthless = true := by decide
  have placeless : ∀ r ∈ [start, again, last], r.body.placeless = true := by decide
  have visits : (g.run ev d.root {} 4).visits = [.root d.root .default, list, top] := by
    decide +kernel
  have invoked : .invoke list ⟨"*", ⟨"m"⟩, .of "*"⟩ false ∈ (g.run ev d.root {} 4).log := by
    decide +kernel
  have alone : renderUsing g ev d.root { mode := ⟨"n"⟩ } 2 = .ok (some "document") := by
    decide +kernel
  have h := nested_run level ev d.root {} 4
  refine ⟨visits, (h.1 top (by rw [visits]; simp)).1, h.2.1 top _ (.below (.below invoked ..)), ?_⟩
  exact (h.2.2 placeless 2 list (some "/") (.enter ⟨"n"⟩) .fresh _).2
    ⟨[d.root], [some "document"], rfl, .cons alone .nil, rfl⟩

end Registry

end Stylesheet
