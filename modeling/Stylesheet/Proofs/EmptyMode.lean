import Stylesheet.Proofs.Account
import Stylesheet.Proofs.Lifting
import Stylesheet.Proofs.Lockstep

/-! A mode without rules behaves like the default mode. Every search in it falls back at once and
asks what a search in the default mode asks. So the runs go in step, although their keys differ,
and one may be in the mode wherever the other is in the default mode. -/

namespace Stylesheet

variable {ν α β : Type}

/-- The same mode, or the mode `m` for the default mode. -/
inductive Mode.Mirrors (m : Mode) : Mode → Mode → Prop
  | same (a : Mode) : Mirrors m a a
  | default : Mirrors m m .default

theorem Mode.Mirrors.after {m a a' : Mode} (h : m.Mirrors a a') (next : NextMode) :
    m.Mirrors (next.after a) (next.after a') := by
  cases next with
  | keep => exact h
  | reset => exact .same _
  | enter mode => exact .same mode

/-- Nothing is said of the keys. -/
structure Visit.Mirrors (m : Mode) (v v' : Visit ν) : Prop where
  node : v'.node = v.node
  depth : v'.depth = v.depth
  mode : m.Mirrors v.mode v'.mode

inductive Step.Mirrors (m : Mode) : Step ν → Step ν → Prop
  | call (c : Call ν) : Mirrors m (.call c) (.call c)
  | fallBack (mode : Mode) : Mirrors m (.fallBack mode) (.fallBack mode)
  | invoke {v v' : Visit ν} (rule : RuleHead) (fallback fallback' : Bool) (h : v.Mirrors m v') :
      Mirrors m (.invoke v rule fallback) (.invoke v' rule fallback')
  | unmatched {v v' : Visit ν} (h : v.Mirrors m v') : Mirrors m (.unmatched v) (.unmatched v')

/-- Step for step, but that more searches fall back in the mode `m`. -/
inductive Log.Mirrors (m : Mode) : List (Step ν) → List (Step ν) → Prop
  | nil : Mirrors m [] []
  | cons {s s' : Step ν} {l l' : List (Step ν)} (h : s.Mirrors m s') (hl : Mirrors m l l') :
      Mirrors m (s :: l) (s' :: l')
  | fallBack {l l' : List (Step ν)} (hl : Mirrors m l l') : Mirrors m (.fallBack m :: l) l'

namespace Log.Mirrors

variable {m : Mode}

theorem append {k l k' l' : List (Step ν)} (hk : Mirrors m k k') (hl : Mirrors m l l') :
    Mirrors m (k ++ l) (k' ++ l') := by
  induction hk with
  | nil => exact hl
  | cons h _ ih => exact .cons h ih
  | fallBack _ ih => exact .fallBack ih

theorem calls_eq {l l' : List (Step ν)} (h : Mirrors m l l') :
    l'.filterMap Step.call? = l.filterMap Step.call? := by
  induction h with
  | nil => rfl
  | cons h _ ih =>
    cases h with
    | call c => exact congrArg (c :: ·) ih
    | fallBack mode => exact ih
    | invoke rule fallback fallback' h => exact ih
    | unmatched h => exact ih
  | fallBack _ ih => exact ih

end Log.Mirrors

inductive Halt.Mirrors (m : Mode) : Halt → Halt → Prop
  | exhausted : Mirrors m .exhausted .exhausted
  | evaluation (e : EvaluationError) :
      Mirrors m (.failure (.evaluation e)) (.failure (.evaluation e))
  | rule (message : String) : Mirrors m (.failure (.rule message)) (.failure (.rule message))
  | unmatched (key key' : String) {mode mode' : Mode} (kind : NodeKind) (h : m.Mirrors mode mode') :
      Mirrors m (.failure (.unmatched key mode kind)) (.failure (.unmatched key' mode' kind))

def Field.tellsMode : Field → Bool
  | key | mode | renderer => true
  | _ => false

def Body.tells (p : Field → Bool) : Body → Bool
  | field f => p f
  | attempt b => b.tells p
  | within _ b => b.tells p
  | seq a b => a.tells p || b.tells p
  | _ => false

def Step.borrows : Step ν → Bool
  | invoke v rule _ => !v.mode.isDefault && rule.mode.isDefault
  | _ => false

theorem Step.Sound.isFallback_eq_borrows {s : Step ν} (h : s.Sound) : s.isFallback = s.borrows := by
  cases s with
  | invoke v rule fallback =>
    obtain ⟨-, h⟩ := h
    cases fallback with
    | true =>
      obtain ⟨named, default⟩ := h
      simp [isFallback, borrows, Mode.isDefault, named, default]
    | false =>
      have same : rule.mode = v.mode := h
      simp [isFallback, borrows, same]
  | _ => rfl

namespace Evaluator

variable (ev : Evaluator ν) (g : Registry β) (node : ν)

theorem winner_default : ev.winner g node .default
    = (Option.map (·, false)) <$> ev.firstMatch node (g.ranked .default) := by
  rw [winner, ← bind_pure_comp]
  refine bind_congr fun found => ?_
  cases found <;> rfl

theorem winner_of_ranked_nil {m : Mode} (named : m ≠ .default) (empty : g.ranked m = []) :
    ev.winner g node m = Run.note (.fallBack m) >>= fun _ =>
      (Option.map (·, true)) <$> ev.firstMatch node (g.ranked .default) := by
  rw [winner, empty, firstMatch, pure_bind]
  simp only [Mode.isDefault, beq_false_of_ne named, bind_pure_comp]
  rfl

end Evaluator

variable [TreeNode ν]

theorem Visit.Mirrors.field_eq {m : Mode} {v v' : Visit ν} (h : v.Mirrors m v') {f : Field}
    (hf : f.tellsMode = false) : v'.field f = v.field f := by
  cases f with
  | key => cases hf
  | mode => cases hf
  | renderer => cases hf
  | depth => exact congrArg toString h.depth
  | kind => exact congrArg (fun n => (TreeNode.kind n).name) h.node
  | name => exact congrArg (fun n => (TreeNode.name n).getD "-") h.node
  | value => exact congrArg (fun n => (TreeNode.value n).getD "-") h.node
  | identifier => exact congrArg (fun n => (TreeNode.identifier n).getD "-") h.node
  | number => exact congrArg (fun n => toString (TreeNode.number n)) h.node

/-- A run in the mode `m` and a run in the default mode; if the bodies are blind to the mode, the
texts are the same. The sites differ, as calls in the mode `m` make no child hops. -/
def Lockstep.mirror (ν : Type) [TreeNode ν] (m : Mode) (blind : Bool) : Lockstep ν ν where
  log := Log.Mirrors m
  halt := Halt.Mirrors m
  visit := Visit.Mirrors m
  node := (· = ·)
  sites _ _ := True
  text s s' := blind → s' = s
  log_nil := .nil
  log_append := .append
  log_unmatched hv := .cons (.unmatched hv) .nil
  halt_exhausted := .exhausted
  halt_rule := .rule
  halt_unmatched hv := by
    rw [hv.node]
    exact .unmatched _ _ _ hv.mode
  exhausted_iff h := by cases h <;> simp
  children hv := by rw [hv.node, List.forall₂_eq_eq_eq]
  attr name _ _ hv := by rw [hv.node]
  sites_fresh := trivial
  sites_passed _ _ _ _ _ _ _ _ := trivial
  descend _ next _ _ _ _ _ _ _ hv _ hn := ⟨hn.symm, congrArg (· + 1) hv.depth, hv.mode.after next⟩
  text_refl _ _ := rfl
  text_append h k hb := by rw [h hb, k hb]

section

variable {m : Mode} {blind : Bool}

theorem Body.keepsStep_mirror {b : Body}
    (hb : blind → b.passesOn = true ∧ b.tells Field.tellsMode = false) :
    b.KeepsStep (.mirror ν m blind) := by
  induction b with
  | field f => exact fun hv h => hv.field_eq (hb h).2
  | attempt b ih =>
    have seeing : ¬blind := fun h => Bool.false_ne_true (hb h).1
    exact ⟨fun _ h => absurd h seeing, ih fun h => absurd h seeing⟩
  | within depth b ih => exact ⟨fun hv => by rw [hv.depth], ih hb⟩
  | seq a b iha ihb =>
    simp only [passesOn, tells, Bool.and_eq_true, Bool.or_eq_false_iff] at hb
    exact ⟨iha fun h => ⟨(hb h).1.1, (hb h).2.1⟩, ihb fun h => ⟨(hb h).1.2, (hb h).2.2⟩⟩
  | _ => trivial

theorem Run.inStep_ofReply (c : Call ν) (reply : Except EvaluationError α) :
    (ofReply c reply).InStep (.mirror ν m blind) (· = ·) (ofReply c reply) := by
  refine ⟨.cons (.call c) .nil, ?_⟩
  cases reply with
  | ok x => exact .ok rfl
  | error e => exact .error (.evaluation e)

theorem Run.lifts_mirror (ev : Evaluator ν) :
    Lifts ev fun _ r r' => r.InStep (.mirror ν m blind) (· = ·) r' where
  pure _ := .pure rfl
  bind h hf := h.and_ok.bind fun ⟨hx, hxy⟩ => hxy ▸ hf _ hx
  ask _ _ := inStep_ofReply ..
  query _ _ := inStep_ofReply ..
  fallBack mode := ⟨.cons (.fallBack mode) .nil, .ok rfl⟩

variable {g : Registry Body} (named : m ≠ .default) (empty : g.ranked m = []) (ev : Evaluator ν)
  {v v' : Visit ν} (hv : v.Mirrors m v')

include named empty hv

theorem Evaluator.inStep_winner : (ev.winner g v.node v.mode).InStep (.mirror ν m blind)
    (Option.Rel fun found found' => found'.1 = found.1) (ev.winner g v'.node v'.mode) := by
  have hm := hv.mode
  rw [hv.node]
  generalize v.mode = a at hm ⊢
  generalize v'.mode = a' at hm ⊢
  -- In the mode without rules the search is that in the default mode, after a step to fall back.
  cases hm with
  | same =>
    refine ((Run.lifts_mirror ev).winner g v.node a).mono fun {found _} h => ?_
    subst h
    cases found with
    | none => exact .none
    | some _ => exact .some rfl
  | default =>
    have rest : ((Option.map (·, true)) <$> ev.firstMatch v.node (g.ranked .default)).InStep
        (.mirror ν m blind) (Option.Rel fun found found' => found'.1 = found.1)
        ((Option.map (·, false)) <$> ev.firstMatch v.node (g.ranked .default)) := by
      refine ((Run.lifts_mirror ev).firstMatch v.node _).map fun {found _} h => ?_
      subst h
      cases found with
      | none => exact .none
      | some _ => exact .some rfl
    rw [ev.winner_of_ranked_nil g v.node named empty, ev.winner_default, Run.bind_ok (x := ()) rfl]
    exact ⟨.fallBack rest.log, rest.result⟩

end

namespace Registry

variable {history : List (Registration Body)} {m : Mode}

theorem ranked_eq_nil (empty : (ofList history).rules m = []) : (ofList history).ranked m = [] := by
  have records := records_ofList history
  rw [records.rules] at empty
  exact (empty ▸ records.perm m).eq_nil

theorem inStep_run_mirror (named : m ≠ .default) (empty : (ofList history).rules m = [])
    (blind : Bool)
    (hb : blind → ∀ r ∈ history, r.body.passesOn = true ∧ r.body.tells Field.tellsMode = false)
    (ev : Evaluator ν) (root : ν) (options : Options) (limit : Nat) :
    ((ofList history).run ev root { options with mode := m } limit).InStep (.mirror ν m blind)
      (Option.Rel fun s s' => blind → s' = s)
      ((ofList history).run ev root { options with mode := .default } limit) := by
  refine inStep_visit (L := .mirror ν m blind) (fun {v v'} hv => ?winners)
    (fun path v v' hv => ?queries) options.unmatched limit ⟨rfl, rfl, .default⟩
  case winners =>
    refine (ev.inStep_winner named (ranked_eq_nil empty) hv).and_ok.mono fun ⟨hf, h⟩ => ?_
    cases h with
    | none => exact .none
    | @some found found' h =>
      obtain ⟨rule, fallback⟩ := found
      obtain ⟨rule', fallback'⟩ := found'
      obtain rfl : rule' = rule := h
      obtain ⟨x, hx, body⟩ := body_of_winner hf
      refine .some ⟨.cons (.invoke _ _ _ hv) .nil, rfl, Body.keepsStep_mirror fun h => ?_⟩
      rw [body]
      exact hb h x hx
  case queries =>
    show (ev.query path v.node).InStep _ (List.Forall₂ (· = ·)) (ev.query path v'.node)
    rw [hv.node, List.forall₂_eq_eq_eq]
    exact Run.inStep_ofReply ..

/-- A run in a mode without rules does what the run in the default mode does, only in other modes
and with other keys. It puts out the same if no body looks at these or recovers from a failure, and
it counts as fallbacks the rules of the default mode at work in a named mode. -/
theorem run_mirrors (named : m ≠ .default) (empty : (ofList history).rules m = [])
    (ev : Evaluator ν) (root : ν) (options : Options) (limit : Nat) :
    let run := (ofList history).run ev root { options with mode := m } limit
    let plain := (ofList history).run ev root { options with mode := .default } limit
    plain.calls = run.calls ∧ Log.Mirrors m run.log plain.log ∧
      Ends (Halt.Mirrors m) (fun output output' => output'.isSome = output.isSome)
        run.result plain.result ∧
      ((∀ r ∈ history, r.body.passesOn = true ∧ r.body.tells Field.tellsMode = false) →
        ∀ output, plain.result = .ok output ↔ run.result = .ok output) ∧
      (run.summary options.trace).fallbacks = run.log.countP Step.borrows := by
  intro run plain
  have seeing := inStep_run_mirror named empty false nofun ev root options limit
  have log : Log.Mirrors m run.log plain.log := seeing.log
  refine ⟨log.calls_eq, log, seeing.result.mono fun _ _ h => ?ends, fun hb output => ?outputs,
    ?count⟩
  case ends => cases h <;> rfl
  case outputs =>
    have blind := inStep_run_mirror named empty true (fun _ => hb) ev root options limit
    have result : Ends (Halt.Mirrors m) (fun o o' => o' = o) run.result plain.result :=
      blind.result.mono fun _ _ h => by
        cases h with
        | none => rfl
        | some h => rw [h rfl]
    generalize run.result = result at result
    generalize plain.result = result' at result
    cases result with
    | ok h => rw [h]
    | error _ => simp
  case count =>
    have sound : ∀ s ∈ run.log, s.Sound := sound_visit options.unmatched limit (.root root m)
    exact List.countP_congr fun s hs => by rw [(sound s hs).isFallback_eq_borrows]

/-- The document and the list are visited in a mode without rules, and the text below in another. -/
theorem run_mirrors_list :
    let d := Document.empty.append Document.empty.root (.element "list" [])
    let d := d.append ⟨1, by decide⟩ (.text "x")
    let m : Mode := ⟨"m"⟩
    let n : Mode := ⟨"n"⟩
    let start : Registration Body := ⟨.default, "/", .traverse none .keep (.join ",")⟩
    let list : Registration Body :=
      ⟨.default, "list", .seq (.field .name) (.traverse none (.enter n) (.join ","))⟩
    let text : Registration Body := ⟨n, "text()", .field .value⟩
    let g := ofList [start, list, text]
    let ev : Evaluator d.Node := .ofTables [("/", .nodes [d.root]),
      ("list", .nodes [⟨1, by decide⟩]), ("text()", .nodes [⟨2, by decide⟩])] []
    let run := g.run ev d.root { mode := m } 3
    let plain := g.run ev d.root {} 3
    Log.Mirrors m run.log plain.log ∧ plain.result = .ok (some "listx") ∧
      run.result = .ok (some "listx") ∧
      run.visits.map (·.mode) = [m, m, n] ∧ (run.summary false).fallbacks = 2 ∧
      plain.visits.map (·.mode) = [.default, .default, n] ∧
      (plain.summary false).fallbacks = 0 := by
  intro d d m n start list text g ev run plain
  have empty : g.rules m = [] := by decide
  obtain ⟨-, log, -, same, -⟩ := run_mirrors (by decide) empty ev d.root {} 3
  have blind : ∀ r ∈ [start, list, text],
      r.body.passesOn = true ∧ r.body.tells Field.tellsMode = false := by decide
  have result : plain.result = .ok (some "listx") := by decide +kernel
  exact ⟨log, result, (same blind _).1 result, by decide +kernel, by decide +kernel,
    by decide +kernel, by decide +kernel⟩

end Registry

end Stylesheet
