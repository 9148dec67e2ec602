import Stylesheet.Document.Node
import Stylesheet.Proofs.Registry
import Stylesheet.Proofs.Unfolding

namespace Stylesheet

variable {α β ν : Type}

namespace Rule

/-- The rule without its place in the history. -/
def unnumbered (r : Rule β) : Rule β := { r with sequence := 0 }

end Rule

/-- Both registries rank the same rules of the mode in the same way, whatever their numbers are. -/
def Registry.SameRanksIn (g g' : Registry β) (m : Mode) : Prop :=
  (g.ranked m).map Rule.unnumbered = (g'.ranked m).map Rule.unnumbered

def Registry.SameRanks (g g' : Registry β) : Prop := ∀ m, g.SameRanksIn g' m

namespace Evaluator

variable (ev : Evaluator ν) (node : ν)

theorem firstMatch_unnumbered (rules : List (Rule β)) :
    Option.map Rule.unnumbered <$> ev.firstMatch node rules
      = ev.firstMatch node (rules.map Rule.unnumbered) := by
  induction rules with
  | nil => rfl
  | cons r rest ih =>
    simp only [firstMatch, List.map_cons, ← ih, map_bind, map_pure, bind_map_left]
    refine bind_congr fun matched => bind_congr fun later => ?_
    cases matched <;> rfl

def search (m : Mode) (own fallback : List (Rule β)) : Run ν (Option (Rule β × Bool)) := do
  match ← ev.firstMatch node own with
  | some r => return some (r, false)
  | none =>
    if m.isDefault then return none
    else
      Run.note (.fallBack m)
      return (← ev.firstMatch node fallback).map (·, true)

theorem winner_eq_search (g : Registry β) (m : Mode) :
    ev.winner g node m = ev.search node m (g.ranked m) (g.ranked .default) := rfl

theorem search_unnumbered (m : Mode) (own fallback : List (Rule β)) :
    Option.map (Prod.map Rule.unnumbered id) <$> ev.search node m own fallback
      = ev.search node m (own.map Rule.unnumbered) (fallback.map Rule.unnumbered) := by
  simp only [search, ← firstMatch_unnumbered, map_bind, bind_map_left]
  refine bind_congr fun found => ?_
  cases found with
  | some r => rfl
  | none =>
    dsimp only [Option.map_none]
    split
    · rfl
    · simp only [map_bind, map_pure, Option.map_map]
      rfl

theorem winner_unnumbered {g g' : Registry β} {m : Mode} (h : g.SameRanksIn g' m)
    (hd : g.SameRanksIn g' .default) :
    Option.map (Prod.map Rule.unnumbered id) <$> ev.winner g node m
      = Option.map (Prod.map Rule.unnumbered id) <$> ev.winner g' node m := by
  rw [winner_eq_search, winner_eq_search, search_unnumbered, search_unnumbered, h, hd]

end Evaluator

namespace Registry

variable [TreeNode ν]

theorem visit_succ_unnumbered (g : Registry Body) (ev : Evaluator ν) (policy : UnmatchedPolicy)
    (limit : Nat) (v : Visit ν) : g.visit ev policy (limit + 1) v
      = (Option.map (Prod.map Rule.unnumbered id) <$> ev.winner g v.node v.mode)
        >>= v.answer (g.visit ev policy limit) ev policy := by
  rw [bind_map_left, visit_succ]
  refine bind_congr fun found => ?_
  cases found <;> rfl

theorem SameRanks.visit_eq {g g' : Registry Body} (h : g.SameRanks g') (ev : Evaluator ν)
    (policy : UnmatchedPolicy) (limit : Nat) :
    g.visit ev policy limit = g'.visit ev policy limit := by
  induction limit with
  | zero => rfl
  | succ limit ih =>
    funext v
    rw [visit_succ_unnumbered, visit_succ_unnumbered, ih,
      ev.winner_unnumbered v.node (h v.mode) (h .default)]

end Registry

theorem eq_of_filter_eq {rank : α → Specificity} {l m : List α}
    (hl : l.Pairwise fun a b => ¬rank a < rank b) (hm : m.Pairwise fun a b => ¬rank a < rank b)
    (h : ∀ s, l.filter (fun a => rank a = s) = m.filter fun a => rank a = s) : l = m := by
  induction l generalizing m with
  | nil =>
    cases m with
    | nil => rfl
    | cons b m => simpa using h (rank b)
  | cons a l ih =>
    have mem (x : α) : x ∈ a :: l ↔ x ∈ m := by
      simpa using congrArg (x ∈ ·) (h (rank x))
    cases m with
    | nil => simpa using mem a
    | cons b m =>
      obtain ⟨hal, hl⟩ := List.pairwise_cons.1 hl
      obtain ⟨hbm, hm'⟩ := List.pairwise_cons.1 hm
      have hab : rank a = rank b := by
        have hba : ¬rank a < rank b := by
          rcases List.mem_cons.1 ((mem b).2 List.mem_cons_self) with rfl | hb
          · exact Specificity.lt_irrefl _
          · exact hal b hb
        have hba' : ¬rank b < rank a := by
          rcases List.mem_cons.1 ((mem a).1 List.mem_cons_self) with rfl | ha
          · exact Specificity.lt_irrefl _
          · exact hbm a ha
        exact (Specificity.lt_trichotomy _ _).resolve_left hba |>.resolve_right hba'
      have heq : a = b := by
        have := h (rank a)
        rw [List.filter_cons_of_pos (by simp), List.filter_cons_of_pos (by simp [hab])] at this
        exact (List.cons.inj this).1
      subst heq
      refine congrArg _ (ih hl hm' fun s => ?_)
      have := h s
      by_cases hs : rank a = s
      · rw [List.filter_cons_of_pos (by simpa using hs),
          List.filter_cons_of_pos (by simpa using hs)] at this
        exact (List.cons.inj this).2
      · rwa [List.filter_cons_of_neg (by simpa using hs),
          List.filter_cons_of_neg (by simpa using hs)] at this

theorem pairwise_allRules (history : List (Registration β)) :
    (allRules history).Pairwise fun a b => a.sequence < b.sequence := by
  induction history using List.reverseRecOn with
  | nil => exact .nil
  | append_singleton history r ih =>
    rw [allRules_concat]
    refine List.pairwise_append.2 ⟨ih, List.pairwise_singleton .., fun a ha b hb => ?_⟩
    rw [List.mem_singleton.1 hb]
    obtain ⟨e, he, rfl⟩ := List.mem_map.1 ha
    exact (List.getElem?_eq_some_iff.1 (List.mem_zipIdx_iff_getElem?.1 he)).1

theorem unnumbered_allRules (history : List (Registration β)) :
    (allRules history).map Rule.unnumbered = history.map (·.rule 0) := by
  have forget (e : Registration β × Nat) : (e.1.rule e.2).unnumbered = e.1.rule 0 := rfl
  rw [allRules, List.map_map]
  simp only [Function.comp_def, forget]
  rw [← Function.comp_def (fun r : Registration β => r.rule 0) Prod.fst, ← List.map_map,
    List.zipIdx_map_fst]

namespace Registration

def tied (history : List (Registration β)) (m : Mode) (s : Specificity) : List (Registration β) :=
  history.filter fun r => r.mode = m ∧ Specificity.of r.pattern = s

/-- The same registrations, in the same order as far as mode and specificity are the same. -/
def SameTies (h k : List (Registration β)) : Prop :=
  ∀ m s, tied h m s = tied k m s

namespace SameTies

theorem trans {h k l : List (Registration β)} (hk : SameTies h k) (kl : SameTies k l) :
    SameTies h l :=
  fun m s => (hk m s).trans (kl m s)

theorem swap {a b : Registration β}
    (hab : a.mode ≠ b.mode ∨ Specificity.of a.pattern ≠ Specificity.of b.pattern)
    (before after : List (Registration β)) :
    SameTies (before ++ a :: b :: after) (before ++ b :: a :: after) := by
  intro m s
  simp only [tied, List.filter_append, List.filter_cons, decide_eq_true_eq]
  by_cases ha : a.mode = m ∧ Specificity.of a.pattern = s
  · have hb : ¬(b.mode = m ∧ Specificity.of b.pattern = s) := by
      rintro ⟨hm, hs⟩
      rcases hab with h | h
      · exact h (ha.1.trans hm.symm)
      · exact h (ha.2.trans hs.symm)
    simp only [if_pos ha, if_neg hb]
  · simp only [if_neg ha]

end SameTies

theorem unnumbered_tied (history : List (Registration β)) (m : Mode) (s : Specificity) :
    ((rulesIn history m).filter fun r => r.specificity = s).map Rule.unnumbered
      = (tied history m s).map (·.rule 0) := by
  let p (r : Rule β) : Bool := r.head.mode = m ∧ r.specificity = s
  calc ((rulesIn history m).filter fun r => r.specificity = s).map Rule.unnumbered
      = ((allRules history).filter (p ∘ Rule.unnumbered)).map Rule.unnumbered := by
        rw [rulesIn, List.filter_filter]
        refine congrArg _ (List.filter_congr fun r _ => ?_)
        rw [Bool.and_comm, ← Bool.decide_and]
        rfl
    _ = (history.map fun r => r.rule 0).filter p := by
        rw [← List.filter_map, unnumbered_allRules]
    _ = (tied history m s).map (·.rule 0) := by
        rw [List.filter_map]
        rfl

end Registration

namespace Registry

theorem filter_ranked (history : List (Registration β)) (m : Mode) (s : Specificity) :
    (((ofList history).ranked m).map Rule.unnumbered).filter (fun r => r.specificity = s)
      = ((Registration.tied history m s).map (·.rule 0)).reverse := by
  have records := records_ofList history
  have later : ((ofList history).ranked m).filter (fun r => r.specificity = s)
      = ((rulesIn history m).filter fun r => r.specificity = s).reverse := by
    refine List.Perm.eq_of_pairwise (fun a b _ _ (hab : b.sequence < a.sequence) hba =>
      absurd hab (Nat.lt_asymm hba)) ?_ ?_ ?_
    · refine List.pairwise_filter.2 ((records.decreasing m).imp fun h ha hb => ?_)
      have ha : _ = s := of_decide_eq_true ha
      have hb : _ = s := of_decide_eq_true hb
      rcases h with h | ⟨-, h⟩
      · exact absurd (hb.trans ha.symm ▸ h) (Specificity.lt_irrefl _)
      · exact h
    · rw [List.pairwise_reverse]
      exact ((pairwise_allRules history).filter _).filter _
    · exact ((records.perm m).filter _).trans (List.reverse_perm _).symm
  rw [List.filter_map, ← List.map_reverse]
  show (((ofList history).ranked m).filter fun r => r.specificity = s).map _ = _
  rw [later, List.map_reverse, List.map_reverse, Registration.unnumbered_tied]

theorem pairwise_unnumbered (history : List (Registration β)) (m : Mode) :
    (((ofList history).ranked m).map Rule.unnumbered).Pairwise
      fun a b => ¬a.specificity < b.specificity := by
  refine List.pairwise_map.2 (((records_ofList history).decreasing m).imp fun hab hlt => ?_)
  rcases hab with hab | ⟨hab, -⟩
  · exact Specificity.lt_irrefl _ (Specificity.lt_trans hab hlt)
  · exact Specificity.lt_irrefl _ (hab ▸ hlt)

theorem sameRanksIn_of_tied {h k : List (Registration β)} {m : Mode}
    (ties : ∀ s, Registration.tied h m s = Registration.tied k m s) :
    (ofList h).SameRanksIn (ofList k) m := by
  refine eq_of_filter_eq (pairwise_unnumbered h m) (pairwise_unnumbered k m) fun s => ?_
  rw [filter_ranked, filter_ranked, ties s]

theorem sameRanks_of_sameTies {h k : List (Registration β)} (ties : Registration.SameTies h k) :
    (ofList h).SameRanks (ofList k) :=
  fun m => sameRanksIn_of_tied (ties m)

/-- The order of registration is told only among rules of one mode and one specificity. -/
theorem run_eq_of_sameTies [TreeNode ν] {h k : List (Registration Body)}
    (ties : Registration.SameTies h k) (ev : Evaluator ν) (root : ν) (options : Options)
    (limit : Nat) :
    (ofList h).run ev root options limit = (ofList k).run ev root options limit ∧
      renderDetailed (ofList h) ev root options limit
        = renderDetailed (ofList k) ev root options limit ∧
      ((ofList h).run ev root options limit).calls
        = ((ofList k).run ev root options limit).calls ∧
      ((ofList h).run ev root options limit).events options.unmatched
        = ((ofList k).run ev root options limit).events options.unmatched := by
  have same : (ofList h).run ev root options limit = (ofList k).run ev root options limit := by
    rw [run, run, (sameRanks_of_sameTies ties).visit_eq]
  exact ⟨same, by rw [renderDetailed, renderDetailed, same], by rw [same], by rw [same]⟩

/-- A rule of a named mode comes to the front and a weak one to the end. Two equals stay in
order. -/
theorem run_eq_of_sameTies_list :
    let any : Registration Body := ⟨.default, "*", .lit "any"⟩
    let first : Registration Body := ⟨.default, "para[1]", .traverse none (.enter ⟨"m"⟩) .count⟩
    let named : Registration Body := ⟨⟨"m"⟩, "*", .field .key⟩
    let second : Registration Body := ⟨.default, "list[1]", .traverse none .keep (.join ",")⟩
    let d := Document.empty.append Document.empty.root (.element "list" [("id", "x")])
    let ev : Evaluator d.Node := .ofTables [("*", .all), ("list[1]", .all), ("para[1]", .all)] []
    Registration.SameTies [any, first, named, second] [named, first, second, any] ∧
      (ofList [any, first, named, second]).run ev d.root {} 4
        = (ofList [named, first, second, any]).run ev d.root {} 4 := by
  intro any first named second d ev
  have weaker : Specificity.of "*" ≠ Specificity.of "para[1]" := by decide +kernel
  have weaker' : Specificity.of "*" ≠ Specificity.of "list[1]" := by decide +kernel
  have other (r : Registration Body) (h : r.mode = .default) : r.mode ≠ named.mode := by
    rw [h]
    decide
  have ties : Registration.SameTies [any, first, named, second] [named, first, second, any] :=
    ((Registration.SameTies.swap (a := any) (b := first) (.inr weaker) [] [named, second]).trans
      (.swap (a := any) (b := named) (.inl (other any rfl)) [first] [second])).trans
    ((Registration.SameTies.swap (a := first) (b := named) (.inl (other first rfl)) []
        [any, second]).trans
      (.swap (a := any) (b := second) (.inr weaker') [named, first] []))
  have h := run_eq_of_sameTies ties ev d.root {} 4
  exact ⟨ties, h.1⟩

end Registry

end Stylesheet
