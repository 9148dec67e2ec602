import Mathlib.Logic.Equiv.Basic
import Mathlib.Logic.Equiv.Fin.Basic
import Stylesheet.Proofs.EmptyMode
import Stylesheet.Proofs.Query.Renumbering

namespace Stylesheet

variable {ν ν' α β : Type}

def Visit.map (f : ν → ν') (v : Visit ν) : Visit ν' := ⟨f v.node, v.mode, v.key, v.depth⟩

def Call.map (f : ν → ν') : Call ν → Call ν'
  | accepts pattern node => accepts pattern (f node)
  | select path context => select path (f context)

def Step.map (f : ν → ν') : Step ν → Step ν'
  | call c => call (c.map f)
  | fallBack mode => fallBack mode
  | invoke v rule fallback => invoke (v.map f) rule fallback
  | unmatched v => unmatched (v.map f)

theorem Run.keys_map {f : ν → ν'} {run : Run ν α} {run' : Run ν' β}
    (h : run'.log = run.log.map (Step.map f)) :
    run'.visits.map (·.key) = run.visits.map (·.key) := by
  have visit (s : Step ν) : (s.map f).visit?.map (·.key) = s.visit?.map (·.key) := by
    cases s <;> rfl
  simp only [visits, h, List.filterMap_map, List.map_filterMap, Function.comp_def, visit]

def Field.tellsNumber : Field → Bool
  | number | renderer => true
  | _ => false

namespace Document.Renumbers

variable {d d' : Document} {f : d.Node ≃ d'.Node} (hf : Renumbers f)

include hf

theorem identifier (n : d.Node) : TreeNode.identifier (f n) = TreeNode.identifier n := by
  have attr (name : String) : TreeNode.attr (f n) name = TreeNode.attr n name :=
    hf.attribute? n name
  rw [TreeNode.identifier, attr, attr, TreeNode.identifier]

theorem field {field : Field} (h : field.tellsNumber = false) (v : Visit d.Node) :
    (v.map f).field field = v.field field := by
  cases field with
  | number => cases h
  | renderer => cases h
  | key => rfl
  | mode => rfl
  | depth => rfl
  | kind => exact congrArg NodeKind.name (hf.kind v.node)
  | name => exact congrArg (Option.getD · "-") (hf.name? v.node)
  | value => exact congrArg (Option.getD · "-") (hf.value? v.node)
  | identifier => exact congrArg (Option.getD · "-") (hf.identifier v.node)

def lockstep : Lockstep d.Node d'.Node where
  log l l' := l' = l.map (Step.map f)
  halt h h' := h' = h
  visit v v' := v' = v.map f
  node n n' := n' = f n
  sites s s' := s' = s
  text s s' := s' = s
  log_nil := rfl
  log_append h k := by rw [h, k, List.map_append]
  log_unmatched h := by rw [h]; rfl
  halt_exhausted := rfl
  halt_rule _ := rfl
  halt_unmatched {v _} h := by
    subst h
    exact congrArg (fun kind => Halt.failure (.unmatched v.key.text v.mode kind)) (hf.kind v.node)
  exhausted_iff h := by rw [h]
  children {v _} h := by
    subst h
    show List.Forall₂ _ v.node.children (f v.node).children
    rw [hf.children, List.forall₂_map_right_iff, List.forall₂_same]
    exact fun _ _ => rfl
  attr name v _ h := by
    subst h
    exact hf.attribute? v.node name
  sites_fresh := rfl
  sites_passed query next _ _ _ _ h hs := by rw [h, hs]; rfl
  descend query next position v _ s _ n _ h hs hn := by
    subst h hs hn
    refine congrArg (fun key => Visit.mk (f n) _ key (v.depth + 1)) ?_
    exact congrArg (Key.descend v.key _) (hf.identifier n)
  text_refl _ := rfl
  text_append h k := by rw [h, k]

theorem inStep_ofReply {h : α → β} {reply : Except EvaluationError α}
    {reply' : Except EvaluationError β} (e : reply' = reply.map h) (c : Call d.Node) :
    (Run.ofReply c reply).InStep hf.lockstep (fun x y => y = h x)
      (Run.ofReply (c.map f) reply') := by
  subst e
  refine ⟨rfl, ?_⟩
  cases reply with
  | ok x => exact .ok rfl
  | error e => exact .error rfl

theorem inStep_ask (pattern : String) (n : d.Node) : ((Evaluator.ofQueries d).ask pattern n).InStep
    hf.lockstep (fun x y => y = x) ((Evaluator.ofQueries d').ask pattern (f n)) := by
  refine hf.inStep_ofReply (h := id) ?_ (.accepts pattern n)
  rw [hf.ofQueries_accepts, Except.map_id, id]

theorem inStep_query (path : String) (n : d.Node) : ((Evaluator.ofQueries d).query path n).InStep
    hf.lockstep (List.Forall₂ hf.lockstep.node) ((Evaluator.ofQueries d').query path (f n)) := by
  refine (hf.inStep_ofReply (hf.ofQueries_select path n) (.select path n)).mono fun h => ?_
  rw [h, List.forall₂_map_right_iff, List.forall₂_same]
  exact fun _ _ => rfl

theorem inStep_firstMatch (n : d.Node) (rules : List (Rule β)) :
    ((Evaluator.ofQueries d).firstMatch n rules).InStep hf.lockstep (fun x y => y = x)
      ((Evaluator.ofQueries d').firstMatch (f n) rules) := by
  induction rules with
  | nil => exact .pure rfl
  | cons r rest ih =>
    refine (hf.inStep_ask r.head.pattern n).bind fun h => ?_
    subst h
    refine ih.bind fun h => ?_
    subst h
    exact .pure rfl

theorem inStep_winner (g : Registry β) (n : d.Node) (m : Mode) :
    ((Evaluator.ofQueries d).winner g n m).InStep hf.lockstep (fun x y => y = x)
      ((Evaluator.ofQueries d').winner g (f n) m) := by
  refine (hf.inStep_firstMatch n (g.ranked m)).bind fun {_ found} h => ?_
  subst h
  cases found with
  | some r => exact .pure rfl
  | none =>
    dsimp only
    split
    · exact .pure rfl
    · refine (Run.InStep.note (L := hf.lockstep) rfl).bind fun _ => ?_
      refine (hf.inStep_firstMatch n (g.ranked .default)).bind fun h => ?_
      subst h
      exact .pure rfl

theorem keepsStep {b : Body} (h : b.tells Field.tellsNumber = false) :
    b.KeepsStep hf.lockstep := by
  induction b with
  | field field =>
    intro v v' hv
    rw [hv]
    exact hf.field h v
  | attempt b ih => exact ⟨fun hh => by cases hh; rfl, ih h⟩
  | within depth b ih => exact ⟨fun hv => by rw [hv]; rfl, ih h⟩
  | seq a b iha ihb =>
    rw [Body.tells, Bool.or_eq_false_iff] at h
    exact ⟨iha h.1, ihb h.2⟩
  | _ => trivial

theorem inStep_run {history : List (Registration Body)}
    (blind : ∀ r ∈ history, r.body.tells Field.tellsNumber = false) (root : d.Node)
    (options : Options) (limit : Nat) :
    ((Registry.ofList history).run (.ofQueries d) root options limit).InStep hf.lockstep
      (Option.Rel hf.lockstep.text)
      ((Registry.ofList history).run (.ofQueries d') (f root) options limit) := by
  refine Registry.inStep_visit (L := hf.lockstep) (fun {v v'} hv => ?winners)
    (fun path v v' hv => ?queries) options.unmatched limit ?root
  case winners =>
    obtain rfl : v' = v.map f := hv
    refine (hf.inStep_winner _ v.node v.mode).and_ok.mono fun {_ found} ⟨hr, e⟩ => ?_
    subst e
    cases found with
    | none => exact .none
    | some found =>
      obtain ⟨rule, fallback⟩ := found
      obtain ⟨x, hx, body⟩ := Registry.body_of_winner hr
      exact .some ⟨rfl, rfl, hf.keepsStep (body ▸ blind x hx)⟩
  case queries =>
    obtain rfl : v' = v.map f := hv
    exact hf.inStep_query path v.node
  case root => exact congrArg (fun i => Visit.mk (f root) _ (.root i) 0) (hf.identifier root)

theorem summary_map {run : Run d.Node α} {run' : Run d'.Node β}
    (h : run'.log = run.log.map (Step.map f)) (trace : Bool) :
    run'.summary trace = run.summary trace := by
  have entry (s : Step d.Node) : Step.traceEntry? (s.map f) = s.traceEntry? := by
    cases s with
    | invoke v rule fallback =>
      exact congrArg (fun kind => some (TraceEntry.mk _ _ _ _ _ _ kind _)) (hf.kind v.node)
    | _ => rfl
  have invoke (s : Step d.Node) : (s.map f).isInvoke = s.isInvoke := by cases s <;> rfl
  have unmatched (s : Step d.Node) : (s.map f).isUnmatched = s.isUnmatched := by cases s <;> rfl
  have fallback (s : Step d.Node) : (s.map f).isFallback = s.isFallback := by cases s <;> rfl
  have depth (s : Step d.Node) : (s.map f).depth = s.depth := by cases s <;> rfl
  simp only [Run.summary, h, List.countP_map, List.map_map, List.filterMap_map, Function.comp_def,
    entry, invoke, unmatched, fallback, depth]

end Document.Renumbers

/-- The numbers of the nodes do not matter: queries select the corresponding nodes in the same order
or fail alike, and transformations that do not print numbers go through the same steps at the
corresponding nodes, so that they put out the same and tell the same of themselves. -/
theorem Document.numbering_unseen {d d' : Document} {f : d.Node ≃ d'.Node} (hf : Renumbers f) :
    (∀ (s : String) (n : d.Node),
      (Evaluator.ofQueries d').select s (f n)
          = ((Evaluator.ofQueries d).select s n).map (List.map f) ∧
        (Evaluator.ofQueries d').accepts s (f n) = (Evaluator.ofQueries d).accepts s n) ∧
    ∀ history : List (Registration Body),
      (∀ r ∈ history, r.body.tells Field.tellsNumber = false) →
      ∀ (root : d.Node) (options : Options) (limit : Nat),
        let g := Registry.ofList history
        let run := g.run (.ofQueries d) root options limit
        let run' := g.run (.ofQueries d') (f root) options limit
        run'.log = run.log.map (Step.map f) ∧ run'.result = run.result ∧
          (∀ trace, run'.summary trace = run.summary trace) ∧
          run'.visits.map (·.key) = run.visits.map (·.key) ∧
          renderDetailed g (.ofQueries d') (f root) options limit
            = renderDetailed g (.ofQueries d) root options limit := by
  refine ⟨fun s n => ⟨hf.ofQueries_select s n, hf.ofQueries_accepts s n⟩, ?_⟩
  intro history blind root options limit g run run'
  have step := hf.inStep_run blind root options limit
  have log : run'.log = run.log.map (Step.map f) := step.log
  have result : run'.result = run.result := by
    have ends : Ends (fun h h' => h' = h) (Option.Rel fun s s' => s' = s) run.result run'.result :=
      step.result
    generalize run.result = r, run'.result = r' at ends
    cases ends with
    | error h => rw [h]
    | ok h =>
      cases h with
      | none => rfl
      | some h => rw [h]
  have summary (trace : Bool) : run'.summary trace = run.summary trace := hf.summary_map log trace
  refine ⟨log, result, summary, Run.keys_map log, ?_⟩
  show run'.result.map _ = run.result.map _
  rw [result, summary]

/-- A text below the first element, added after the second element and before it. -/
theorem Document.numbering_unseen_siblings :
    let a := empty.append empty.root (.element "a" [("id", "x")])
    let b := a.append a.root (.element "b" [])
    let d := b.append ⟨1, by decide⟩ (.text "t")
    let t := a.append ⟨1, by decide⟩ (.text "t")
    let d' := t.append t.root (.element "b" [])
    let f : d.Node ≃ d'.Node :=
      (Equiv.swap (⟨2, by decide⟩ : d.Node) ⟨3, by decide⟩).trans (finCongr (by decide))
    let walk : Registration Body :=
      ⟨.default, "node()", .seq (.field .key) (.traverse none .keep (.join ","))⟩
    let g := Registry.ofList [walk]
    Renumbers f ∧ f ⟨2, by decide⟩ = ⟨3, by decide⟩ ∧
      walk.body.tells Field.tellsNumber = false ∧
      (Evaluator.ofQueries d').select "//text()|*" d'.root
        = ((Evaluator.ofQueries d).select "//text()|*" d.root).map (List.map f) ∧
      renderDetailed g (.ofQueries d') (f d.root) {} 4
        = renderDetailed g (.ofQueries d) d.root {} 4 := by
  intro a b d t d' f walk g
  have hf : Renumbers f := ⟨by decide +kernel, by decide +kernel, by decide +kernel,
    by decide +kernel, by decide +kernel⟩
  have blind : ∀ r ∈ [walk], r.body.tells Field.tellsNumber = false := by decide
  obtain ⟨answers, runs⟩ := numbering_unseen hf
  have select := (answers "//text()|*" d.root).1
  rw [hf.root] at select
  obtain ⟨-, -, -, -, detailed⟩ := runs [walk] blind d.root {} 4
  exact ⟨hf, by decide +kernel, by decide, select, detailed⟩

end Stylesheet
