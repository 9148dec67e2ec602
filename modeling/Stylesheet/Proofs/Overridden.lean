import Stylesheet.Proofs.Account
import Stylesheet.Proofs.Coupling
import Stylesheet.Proofs.Ties

namespace Stylesheet

variable {α β ν : Type}

/-- Both logs have the same steps, except that the first one may ask of the pattern again in the
course of a search. -/
inductive Repeats (pattern : String) : List (Step ν) → List (Step ν) → Prop
  | nil : Repeats pattern [] []
  | keep (s : Step ν) {l l' : List (Step ν)} (h : Repeats pattern l l') :
      Repeats pattern (s :: l) (s :: l')
  | again (node : ν) (others : List String) {l l' : List (Step ν)} (h : Repeats pattern l l') :
      Repeats pattern
        (.call (.accepts pattern node) :: (others.map fun other => .call (.accepts other node))
          ++ .call (.accepts pattern node) :: l)
        (.call (.accepts pattern node) :: (others.map fun other => .call (.accepts other node))
          ++ l')

namespace Repeats

variable {pattern : String} {l l' m m' : List (Step ν)}

theorem prepend (s : List (Step ν)) (h : Repeats pattern l l') :
    Repeats pattern (s ++ l) (s ++ l') := by
  induction s with
  | nil => exact h
  | cons s _ ih => exact .keep s ih

theorem refl (l : List (Step ν)) : Repeats pattern l l := by
  simpa using prepend l (.nil : Repeats pattern [] [])

theorem append (h : Repeats pattern l l') (k : Repeats pattern m m') :
    Repeats pattern (l ++ m) (l' ++ m') := by
  induction h with
  | nil => exact k
  | keep s h ih => exact .keep s ih
  | again node others h ih => simpa using again node others ih

theorem filterMap_eq {f : Step ν → Option α} (hf : ∀ c, f (.call c) = none)
    (h : Repeats pattern l l') : l.filterMap f = l'.filterMap f := by
  induction h with
  | nil => rfl
  | keep s h ih => rw [List.filterMap_cons, List.filterMap_cons, ih]
  | again node others h ih => simp [hf, ih]

theorem countP_eq {p : Step ν → Bool} (hp : ∀ c, p (.call c) = false) (h : Repeats pattern l l') :
    l.countP p = l'.countP p := by
  induction h with
  | nil => rfl
  | keep s h ih => rw [List.countP_cons, List.countP_cons, ih]
  | again node others h ih => simp [hp, ih]

theorem summary_eq [TreeNode ν] {r r' : Run ν α} (h : Repeats pattern r.log r'.log)
    (trace : Bool) : r.summary trace = r'.summary trace := by
  have entries : r.log.filterMap Step.traceEntry? = r'.log.filterMap Step.traceEntry? :=
    h.filterMap_eq fun _ => rfl
  have invocations : r.log.countP Step.isInvoke = r'.log.countP Step.isInvoke :=
    h.countP_eq fun _ => rfl
  have unmatched : r.log.countP Step.isUnmatched = r'.log.countP Step.isUnmatched :=
    h.countP_eq fun _ => rfl
  have fallbacks : r.log.countP Step.isFallback = r'.log.countP Step.isFallback :=
    h.countP_eq fun _ => rfl
  simp only [Run.summary, foldl_max_depth, entries, invocations, unmatched, fallbacks]

end Repeats

/-- One of two rules with the pattern goes, the one that comes later by rank. -/
inductive Drops (pattern : String) : List (Rule β) → List (Rule β) → Prop
  | same (rules : List (Rule β)) : Drops pattern rules rules
  | drop {before between after : List (Rule β)} {r s : Rule β} (hs : s.head.pattern = pattern)
      (hr : r.head.pattern = pattern) :
      Drops pattern (before ++ s :: between ++ r :: after) (before ++ s :: between ++ after)

namespace Evaluator

variable {ev : Evaluator ν} {node : ν}

theorem firstMatch_append (rules rules' : List (Rule β)) :
    ev.firstMatch node (rules ++ rules') = do
      let found ← ev.firstMatch node rules
      let later ← ev.firstMatch node rules'
      return found.or later := by
  induction rules with
  | nil => exact (id_map (ev.firstMatch node rules')).symm
  | cons r rest ih =>
    simp only [List.cons_append, firstMatch, ih, bind_assoc, pure_bind]
    refine bind_congr fun matched => bind_congr fun found => bind_congr fun later => ?_
    cases matched <;> rfl

theorem log_firstMatch {rules : List (Rule β)} {found : Option (Rule β)}
    (h : (ev.firstMatch node rules).result = .ok found) :
    (ev.firstMatch node rules).log = questions node rules := by
  induction rules generalizing found with
  | nil => rfl
  | cons r rest ih =>
    cases hr : ev.answer node r with
    | error e =>
      rw [firstMatch_cons_error hr] at h
      cases h
    | ok b =>
      rw [firstMatch_cons_ok hr] at h ⊢
      cases hf : (ev.firstMatch node rest).result with
      | error e =>
        simp only [hf] at h
        cases h
      | ok later =>
        dsimp only
        rw [ih hf]
        rfl

end Evaluator

variable [TreeNode ν] {pattern : String}

inductive Halt.Same : Halt → Halt → Prop
  | refl (h : Halt) : Same h h

def Coupling.repeats (ν : Type) [TreeNode ν] (pattern : String) : Coupling ν where
  log := Repeats pattern
  halt := Halt.Same
  visit v v' := v = v'
  text s s' := s = s'
  log_nil := .nil
  log_append := .append
  log_select _ _ := .refl _
  log_invoke _ _ h := by rw [h]; exact .refl _
  log_unmatched h := by rw [h]; exact .refl _
  halt_exhausted := .refl _
  halt_evaluation _ := .refl _
  halt_rule _ := .refl _
  halt_unmatched h := by rw [h]; exact .refl _
  exhausted_iff h := by cases h; rfl
  node_eq h := by rw [h]
  mode_eq h := by rw [h]
  descend _ _ _ h := by rw [h]
  text_refl _ := rfl
  text_append h k := by rw [h, k]

theorem Body.respects_repeats (b : Body) : b.Respects (.repeats ν pattern) := by
  induction b with
  | field f => exact fun h => congrArg (Visit.field · f) h
  | attempt b ih => exact ⟨fun h => by cases h; rfl, ih⟩
  | within depth b ih => exact ⟨fun h => by cases h; rfl, ih⟩
  | seq a b iha ihb => exact ⟨iha, ihb⟩
  | _ => trivial

namespace Ends

variable {x y : Except Halt α}

theorem same_of_eq (h : x = y) : Ends Halt.Same (· = ·) x y := by
  subst h
  cases x with
  | ok x => exact .ok rfl
  | error e => exact .error (.refl e)

theorem eq (h : Ends Halt.Same (· = ·) x y) : x = y := by
  cases h with
  | ok h => rw [h]
  | error h => cases h; rfl

theorem same_of_map_eq {f : α → β} (h : x.map f = y.map f) :
    Ends Halt.Same (fun a b => f a = f b) x y := by
  cases x with
  | ok x =>
    cases y with
    | ok y => exact .ok (Except.ok.inj h)
    | error e => cases h
  | error e =>
    cases y with
    | ok y => cases h
    | error e' => cases h; exact .error (.refl e)

end Ends

theorem Run.inStep_repeats {x y : Run ν α} (log : Repeats pattern x.log y.log)
    (result : x.result = y.result) :
    x.InStep (Coupling.repeats ν pattern).lockstep (· = ·) y :=
  ⟨log, .same_of_eq result⟩

namespace Evaluator

variable {ev : Evaluator ν} {node : ν}

/-- Where a pattern has been asked for, the answer to asking again makes no difference. -/
theorem firstMatch_again {s r : Rule β} (h : r.head.pattern = s.head.pattern)
    (between after : List (Rule β)) :
    (ev.firstMatch node (s :: (between ++ r :: after))).InStep
      (Coupling.repeats ν s.head.pattern).lockstep (· = ·)
      (ev.firstMatch node (s :: (between ++ after))) := by
  cases hs : ev.answer node s with
  | error e =>
    rw [firstMatch_cons_error hs, firstMatch_cons_error hs]
    exact Run.inStep_repeats (.refl _) rfl
  | ok b =>
    have hr : ev.answer node r = .ok b := by rwa [answer, h]
    rw [firstMatch_cons_ok hs, firstMatch_cons_ok hs, firstMatch_append, firstMatch_append]
    cases hb : (ev.firstMatch node between).result with
    | error e =>
      rw [Run.bind_error hb, Run.bind_error hb]
      exact Run.inStep_repeats (.refl _) rfl
    | ok found =>
      simp only [Run.bind_ok hb, log_firstMatch hb, firstMatch_cons_ok hr, bind_pure_comp,
        Run.map_eq]
      apply Run.inStep_repeats
      · have asked := Repeats.again node (between.map (·.head.pattern))
          (.refl (ev.firstMatch node after).log : Repeats s.head.pattern _ _)
        simpa [questions, h, Function.comp_def] using asked
      · cases (ev.firstMatch node after).result with
        | error e => rfl
        | ok later => cases b <;> rfl

theorem firstMatch_drops {rules rules' : List (Rule β)} (h : Drops pattern rules rules') :
    (ev.firstMatch node rules).InStep (Coupling.repeats ν pattern).lockstep (· = ·)
      (ev.firstMatch node rules') := by
  cases h with
  | same => exact Run.inStep_repeats (.refl _) rfl
  | @drop before between after r s hs hr =>
    subst hs
    rw [List.append_assoc, List.append_assoc, firstMatch_append, firstMatch_append before]
    refine (Run.inStep_repeats (.refl _) rfl).bind fun found => ?_
    refine (firstMatch_again hr between after).bind fun later => ?_
    rw [found, later]
    exact Run.inStep_repeats (.refl _) rfl

theorem search_drops (ev : Evaluator ν) (node : ν) (m : Mode)
    {own own' fallback fallback' : List (Rule β)}
    (ho : Drops pattern own own') (hf : Drops pattern fallback fallback') :
    (ev.search node m own fallback).InStep (Coupling.repeats ν pattern).lockstep (· = ·)
      (ev.search node m own' fallback') := by
  refine (firstMatch_drops ho).bind fun {found _} h => ?_
  subst h
  cases found with
  | some r => exact .pure rfl
  | none =>
    dsimp only
    split
    · exact .pure rfl
    · refine (Run.inStep_repeats (.refl _) rfl).bind fun _ => ?_
      refine (firstMatch_drops hf).bind fun h => ?_
      rw [h]
      exact .pure rfl

theorem winner_drops {g g' : Registry Body}
    (drops : ∀ m, Drops pattern ((g.ranked m).map Rule.unnumbered)
      ((g'.ranked m).map Rule.unnumbered)) (m : Mode) :
    (ev.winner g node m).Coupled (.repeats ν pattern)
      (Option.Rel (Coupling.repeats ν pattern).Finds) (ev.winner g' node m) := by
  have h := ev.search_drops node m (drops m) (drops .default)
  rw [← search_unnumbered, ← search_unnumbered, ← winner_eq_search, ← winner_eq_search,
    Run.map_eq, Run.map_eq] at h
  refine ⟨h.log, (Ends.same_of_map_eq h.result.eq).mono fun found found' same => ?_⟩
  cases found with
  | none =>
    cases found' with
    | none => exact .none
    | some found' => cases same
  | some found =>
    cases found' with
    | none => cases same
    | some found' =>
      obtain ⟨rule, fallback⟩ := Prod.mk.inj (Option.some.inj same)
      have head := congrArg Rule.head rule
      have body := congrArg Rule.body rule
      exact .some ⟨head.symm, body.symm, fallback.symm, found.1.body.respects_repeats⟩

end Evaluator

theorem exists_insertion (rank : α → Specificity) {l m a b : List α} {x : α}
    (hl : l.Pairwise fun a b => ¬rank a < rank b) (hm : m.Pairwise fun a b => ¬rank a < rank b)
    (others : ∀ s ≠ rank x, l.filter (fun a => rank a = s) = m.filter fun a => rank a = s)
    (hlx : l.filter (fun a => rank a = rank x) = a ++ x :: b)
    (hmx : m.filter (fun a => rank a = rank x) = a ++ b) :
    ∃ before after, l = before ++ x :: after ∧ m = before ++ after ∧ a ⊆ before := by
  obtain ⟨first, rest, rfl, rfl, hrest⟩ := List.filter_eq_append_iff.1 hlx
  obtain ⟨second, after, rfl, none, -, rfl⟩ := List.filter_eq_cons_iff.1 hrest
  rw [← List.append_assoc] at hl ⊢
  refine ⟨first ++ second, after, rfl, ?_, ?_⟩
  · have without : (first ++ second ++ after).Sublist (first ++ second ++ x :: after) :=
      (List.sublist_cons_self x after).append_left _
    refine (eq_of_filter_eq (hl.sublist without) hm fun s => ?_).symm
    by_cases hs : s = rank x
    · subst hs
      rw [hmx, List.filter_append, List.filter_append, List.filter_eq_nil_iff.2 none,
        List.append_nil]
    · have other : ¬rank x = s := Ne.symm hs
      rw [← others s hs]
      simp [List.filter_append, other]
  · exact fun y hy => List.mem_append_left _ (List.mem_of_mem_filter hy)

namespace Registration

variable {r : Registration β} {rest : List (Registration β)} {m : Mode} {s : Specificity}

def ruled (history : List (Registration β)) (m : Mode) (s : Specificity) : List (Rule β) :=
  ((tied history m s).map (·.rule 0)).reverse

theorem ruled_append (before rest : List (Registration β)) (m : Mode) (s : Specificity) :
    ruled (before ++ rest) m s = ruled rest m s ++ ruled before m s := by
  rw [ruled, tied, List.filter_append, List.map_append, List.reverse_append]
  rfl

theorem ruled_cons_of_pos (hm : r.mode = m) (hs : Specificity.of r.pattern = s) :
    ruled (r :: rest) m s = ruled rest m s ++ [r.rule 0] := by
  rw [ruled, tied, List.filter_cons_of_pos (by simp [hm, hs]), List.map_cons, List.reverse_cons]
  rfl

theorem ruled_cons_of_neg (h : r.mode = m → Specificity.of r.pattern ≠ s) :
    ruled (r :: rest) m s = ruled rest m s := by
  rw [ruled, tied, List.filter_cons_of_neg (by simpa using h)]
  rfl

theorem mem_ruled (hr : r ∈ rest) (hm : r.mode = m) (hs : Specificity.of r.pattern = s) :
    r.rule 0 ∈ ruled rest m s := by
  refine List.mem_reverse.2 (List.mem_map_of_mem (List.mem_filter.2 ⟨hr, ?_⟩))
  simp [hm, hs]

end Registration

namespace Registry

theorem filter_ranked_ruled (history : List (Registration β)) (m : Mode) (s : Specificity) :
    (((ofList history).ranked m).map Rule.unnumbered).filter (fun r => r.specificity = s)
      = Registration.ruled history m s :=
  filter_ranked history m s

theorem drops_ranked {before rest : List (Registration β)} {r : Registration β}
    (later : ∃ s ∈ rest, s.mode = r.mode ∧ s.pattern = r.pattern) (m : Mode) :
    Drops r.pattern (((ofList (before ++ r :: rest)).ranked m).map Rule.unnumbered)
      (((ofList (before ++ rest)).ranked m).map Rule.unnumbered) := by
  have without (t : Specificity) (h : r.mode = m → Specificity.of r.pattern ≠ t) :
      Registration.ruled (before ++ r :: rest) m t = Registration.ruled (before ++ rest) m t := by
    rw [Registration.ruled_append, Registration.ruled_append, Registration.ruled_cons_of_neg h]
  by_cases hm : r.mode = m
  · obtain ⟨s, hs, mode, pattern⟩ := later
    have hr : Registration.ruled (before ++ r :: rest) m (.of r.pattern)
        = Registration.ruled rest m (.of r.pattern) ++ r.rule 0
          :: Registration.ruled before m (.of r.pattern) := by
      rw [Registration.ruled_append, Registration.ruled_cons_of_pos hm rfl, List.append_assoc]
      rfl
    -- Without `r` its equals keep their order, and the others are not touched.
    obtain ⟨first, last, hl, hk, sub⟩ := exists_insertion (x := r.rule 0) Rule.specificity
      (pairwise_unnumbered (before ++ r :: rest) m) (pairwise_unnumbered (before ++ rest) m)
      (fun t ht => by rw [filter_ranked_ruled, filter_ranked_ruled, without t fun _ => ht.symm])
      ((filter_ranked_ruled ..).trans hr)
      ((filter_ranked_ruled ..).trans (Registration.ruled_append before rest m _))
    have asked : s.rule 0 ∈ first :=
      sub (Registration.mem_ruled hs (mode.trans hm) (congrArg _ pattern))
    obtain ⟨first, between, rfl⟩ := List.append_of_mem asked
    rw [hl, hk]
    exact .drop pattern rfl
  · have same : (ofList (before ++ r :: rest)).SameRanksIn (ofList (before ++ rest)) m := by
      refine eq_of_filter_eq (pairwise_unnumbered _ m) (pairwise_unnumbered _ m) fun t => ?_
      rw [filter_ranked_ruled, filter_ranked_ruled, without t fun h => absurd h hm]
    rw [same]
    exact .same _

/-- A rule may go from the history if the same pattern is registered in its mode later on: no run
does anything else then, and it makes the same calls, but for asking of this pattern again. -/
theorem run_without_overridden (before : List (Registration Body)) {r : Registration Body}
    {rest : List (Registration Body)} (later : ∃ s ∈ rest, s.mode = r.mode ∧ s.pattern = r.pattern)
    (ev : Evaluator ν) (root : ν) (options : Options) (limit : Nat) :
    let g := ofList (before ++ r :: rest)
    let g' := ofList (before ++ rest)
    let run := g.run ev root options limit
    let run' := g'.run ev root options limit
    run.result = run'.result ∧
      renderDetailed g ev root options limit = renderDetailed g' ev root options limit ∧
      (∀ trace, run.summary trace = run'.summary trace) ∧
      (∀ policy, run.events policy = run'.events policy) ∧ Repeats r.pattern run.log run'.log := by
  intro g g' run run'
  have coupled : run.Coupled (.repeats ν r.pattern) (Option.Rel (· = ·)) run' :=
    coupled_visit (fun _ mode => Evaluator.winner_drops (drops_ranked later) mode)
      options.unmatched limit rfl
  have repeats : Repeats r.pattern run.log run'.log := coupled.log
  have result : run.result = run'.result := by
    refine (coupled.result.mono fun _ _ h => ?_).eq
    cases h with
    | none => rfl
    | some h => rw [h]
  refine ⟨result, ?_, repeats.summary_eq, fun _ => repeats.filterMap_eq fun _ => rfl, repeats⟩
  show run.result.map _ = run'.result.map _
  rw [result, repeats.summary_eq]

/-- The rule that goes is the last one that the search falls back to. -/
theorem run_without_overridden_fallback :
    let d := Document.empty.append Document.empty.root (.element "list" [])
    let d := d.append ⟨1, by decide⟩ (.text "x")
    let old : Registration Body := ⟨.default, "*", .fail "old"⟩
    let start : Registration Body := ⟨.default, "/", .traverse none (.enter ⟨"m"⟩) (.join ",")⟩
    let new : Registration Body := ⟨.default, "*", .traverse none .keep .count⟩
    let text : Registration Body := ⟨⟨"m"⟩, "text()", .field .key⟩
    let ev : Evaluator d.Node := .ofTables [("/", .nodes [d.root]),
      ("*", .nodes [⟨1, by decide⟩]), ("text()", .nodes [⟨2, by decide⟩])] []
    let run := (ofList [old, start, new, text]).run ev d.root {} 4
    let run' := (ofList [start, new, text]).run ev d.root {} 4
    (∃ s ∈ [start, new, text], s.mode = old.mode ∧ s.pattern = old.pattern) ∧
      run.result = .ok (some "1") ∧ run.result = run'.result ∧ run.log ≠ run'.log ∧
      Repeats old.pattern run.log run'.log := by
  intro d₁ d old start new text ev run run'
  have later : ∃ s ∈ [start, new, text], s.mode = old.mode ∧ s.pattern = old.pattern :=
    ⟨new, by simp, rfl, rfl⟩
  obtain ⟨result, -, -, -, repeats⟩ :=
    run_without_overridden [] later ev d.root {} 4
  exact ⟨later, by decide +kernel, result, by decide +kernel, repeats⟩

end Registry

end Stylesheet
