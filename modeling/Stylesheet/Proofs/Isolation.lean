import Stylesheet.Document.Node
import Stylesheet.Proofs.Ties
import Stylesheet.Proofs.Turns

namespace Stylesheet

variable {ν α β : Type}

namespace Registration

/-- The history with further registrations in the mode, wherever they come. -/
inductive Gains (m : Mode) : List (Registration β) → List (Registration β) → Prop
  | nil : Gains m [] []
  | keep {h k : List (Registration β)} (r : Registration β) : Gains m h k →
      Gains m (r :: h) (r :: k)
  | gain {h k : List (Registration β)} {r : Registration β} : r.mode = m → Gains m h k →
      Gains m h (r :: k)

theorem Gains.tied_eq {m n : Mode} {h k : List (Registration β)} (gains : Gains m h k)
    (other : n ≠ m) (s : Specificity) : tied h n s = tied k n s := by
  induction gains with
  | nil => rfl
  | keep r _ ih =>
    simp only [tied, List.filter_cons] at ih ⊢
    rw [ih]
  | @gain h k r hr _ ih =>
    have apart : ¬(r.mode = n ∧ Specificity.of r.pattern = s) := fun h => other (h.1.symm.trans hr)
    rw [ih, tied, tied, List.filter_cons_of_neg (by simpa using apart)]

end Registration

namespace Registry

variable [TreeNode ν]

/-- The visit does the same in both registries if they differ in the rules of one mode alone, and no
turn is taken in this mode. -/
theorem visit_eq_of_avoids {g g' : Registry Body} {m : Mode}
    (same : ∀ n ≠ m, g.SameRanksIn g' n) (named : m ≠ .default) {ev : Evaluator ν}
    {policy : UnmatchedPolicy} {limit : Nat} {v : Visit ν} {way : List (Link ν)} (hv : v.mode ≠ m)
    (avoids : ∀ t ∈ g.turns ev policy limit v way, ∀ r ∈ g.requestsAt ev policy t, r.mode ≠ m) :
    g'.visit ev policy limit v = g.visit ev policy limit v := by
  induction limit generalizing v way with
  | zero => rfl
  | succ limit ih =>
    obtain ⟨here, below⟩ := List.forall_mem_cons.1 avoids
    have entered : ∀ u ∈ (g.bodyAt ev v).entered (g.visit ev policy limit) ev v .fresh,
        g'.visit ev policy limit u = g.visit ev policy limit u := by
      intro u hu
      obtain ⟨c, hc, huc⟩ := List.mem_flatMap.1 hu
      have hmode : u.mode ≠ m := by
        rw [Request.mode_of_entered huc]
        exact here c.1 (List.mem_map_of_mem hc)
      rw [← Body.map_snd_links] at hu
      obtain ⟨⟨l, u⟩, hl, rfl⟩ := List.mem_map.1 hu
      exact ih hmode fun t ht => below t (List.mem_flatMap.2 ⟨(l, u), hl, ht⟩)
    rw [visit_succ_unnumbered, visit_succ_unnumbered,
      ← ev.winner_unnumbered v.node (same v.mode hv) (same .default named.symm)]
    refine Run.bind_congr_ok fun found hf => ?_
    cases found with
    | none => rfl
    | some found =>
      obtain ⟨rule, fallback⟩ := found
      have body : g.bodyAt ev v = rule.body := by
        rw [Run.map_eq] at hf
        rw [bodyAt]
        generalize (ev.winner g v.node v.mode).result = result at hf ⊢
        obtain e | ⟨_ | ⟨rule', fallback'⟩⟩ := result
        · cases hf
        · cases hf
        · cases hf
          rfl
      rw [body] at entered
      simp only [Visit.answer, Body.perform_congr entered]

/-- If a run neither starts in the mode nor goes on in it by any of its traverse calls, then it does
the same with further rules of this mode. -/
theorem run_isolated {h k : List (Registration Body)} {m : Mode} (named : m ≠ .default)
    (gains : Registration.Gains m h k) {ev : Evaluator ν} {root : ν} {options : Options}
    {limit : Nat} (start : options.mode ≠ m)
    (avoids : ∀ r ∈ (ofList h).requests ev root options limit, r.mode ≠ m) :
    (ofList k).run ev root options limit = (ofList h).run ev root options limit ∧
      renderDetailed (ofList k) ev root options limit
        = renderDetailed (ofList h) ev root options limit ∧
      ((ofList k).run ev root options limit).calls
        = ((ofList h).run ev root options limit).calls ∧
      ((ofList k).run ev root options limit).events options.unmatched
        = ((ofList h).run ev root options limit).events options.unmatched := by
  have ranks (n : Mode) (hn : n ≠ m) : (ofList h).SameRanksIn (ofList k) n :=
    sameRanksIn_of_tied (gains.tied_eq hn)
  have avoids (t : Turn ν) (ht : t ∈ (ofList h).turns ev options.unmatched limit
      (.root root options.mode) []) (r : Request)
      (hr : r ∈ (ofList h).requestsAt ev options.unmatched t) : r.mode ≠ m :=
    avoids r (List.mem_flatMap.2 ⟨t, ht, hr⟩)
  have same : (ofList k).run ev root options limit = (ofList h).run ev root options limit :=
    visit_eq_of_avoids ranks named start avoids
  exact ⟨same, by rw [renderDetailed, renderDetailed, same], by rw [same], by rw [same]⟩

/-- Rules with a pattern that nothing can read, before and between the others: a run that falls back
in one named mode and finds a rule in another does not see them, and one that starts in their mode
fails. -/
theorem run_isolated_unreadable :
    let d := Document.empty.append Document.empty.root (.element "list" [])
    let start : Registration Body := ⟨.default, "/", .traverse none (.enter ⟨"n"⟩) (.join ",")⟩
    let list : Registration Body :=
      ⟨.default, "list", .seq (.field .mode) (.traverse (some "/") (.enter ⟨"o"⟩) (.join ","))⟩
    let top : Registration Body :=
      ⟨⟨"o"⟩, "/", .seq (.field .key) (.attempt (.traverse (some "..") .reset .count))⟩
    let unreadable : Registration Body := ⟨⟨"m"⟩, "list[", .fail "late"⟩
    let g := ofList [start, list, top]
    let g' := ofList [unreadable, start, unreadable, list, top]
    let ev : Evaluator d.Node := .ofTables [("/", .nodes [d.root]),
      ("list", .nodes [⟨1, by decide⟩]), ("list[", .fail "no end")]
      [("/", .nodes [d.root]), ("..", .fail "no step")]
    g'.run ev d.root {} 4 = g.run ev d.root {} 4 ∧
      renderUsing g' ev d.root {} 4
        = .ok (some "n#/0.0@n/0.0@o!cannot evaluate `..`: no step!") ∧
      renderUsing g' ev d.root { mode := ⟨"m"⟩ } 4
        = .error (.failure (.evaluation ⟨"list[", "no end"⟩)) := by
  intro d start list top unreadable g g' ev
  have gains : Registration.Gains ⟨"m"⟩ [start, list, top]
      [unreadable, start, unreadable, list, top] :=
    .gain rfl (.keep start (.gain rfl (.keep list (.keep top .nil))))
  have avoids : ∀ r ∈ g.requests ev d.root {} 4, r.mode ≠ ⟨"m"⟩ := by decide +kernel
  have same := (run_isolated (by decide) gains (by decide) avoids).1
  exact ⟨same, by decide +kernel, by decide +kernel⟩

end Registry

end Stylesheet
