import Stylesheet.Proofs.Document.Height
import Stylesheet.Proofs.Levels
import Stylesheet.Summary

/-! Stylesheets that only go down. If no body has a query, then each visit is at a child of the node
that it comes from, so a run ends at the latest at the lowest nodes, and the calls of the bodies
bound how often it comes by a node. -/

namespace Stylesheet

variable {ν : Type}

theorem Registry.queries_bodyAt {history : List (Registration Body)}
    (h : ∀ r ∈ history, r.body.queries = []) (ev : Evaluator ν) (v : Visit ν) :
    ((ofList history).bodyAt ev v).queries = [] := by
  rcases bodyAt_ofList ev v with ⟨r, hr, body⟩ | body
  · rw [body]
    exact h r hr
  · rw [body]
    rfl

section

variable [TreeNode ν] {enter : Visit ν → Run ν (Option String)} {ev : Evaluator ν} {v : Visit ν}

theorem Body.query_eq_none {b : Body} (hb : b.queries = []) {s : Sites} :
    ∀ c ∈ b.requests enter ev v s, c.1.query = none := by
  intro c hc
  rw [Option.eq_none_iff_forall_not_mem]
  intro path hp
  have := queries_of_requests c hc path hp
  rw [hb] at this
  cases this

theorem Request.result_select {r : Request} (h : r.query = none) :
    (r.select ev v).result = .ok (TreeNode.children v.node) := by
  rw [select, h]
  rfl

theorem Body.child_of_links {b : Body} (hb : b.queries = []) {l : Link ν} {u : Visit ν}
    (h : (l, u) ∈ b.links enter ev v .fresh) :
    u.node ∈ TreeNode.children v.node ∧ u.depth = v.depth + 1 := by
  obtain ⟨leads, -⟩ := leads_of_links h
  obtain ⟨ns, selected, hn⟩ := leads.selected
  obtain ⟨c, hc, called⟩ := List.mem_map.1 (leads.called.subset (List.mem_append_right _
    (List.mem_singleton_self l.request)))
  rw [Request.result_select (called ▸ query_eq_none hb c hc)] at selected
  cases selected
  rw [leads.node]
  exact ⟨List.mem_of_getElem? hn, leads.depth⟩

theorem Visit.entered_prefix (hop : Nat → Hop) (mode : Mode) (position : Nat) (ns : List ν) :
    (v.entered enter hop mode position ns).map (·.node) <+: ns := by
  induction ns generalizing position with
  | nil => exact List.prefix_rfl
  | cons n ns ih =>
    rw [entered]
    split
    · exact List.prefix_cons_inj n |>.2 (ih (position + 1))
    · exact ⟨ns, rfl⟩

end

theorem Run.maxDepth_le [TreeNode ν] {α : Type} {r : Run ν α} {m : Nat}
    (h : ∀ v ∈ r.visits, v.depth ≤ m) (trace : Bool) : (r.summary trace).maxDepth ≤ m := by
  have steps : ∀ s ∈ r.log, s.depth ≤ m := by
    intro s hs
    cases s with
    | invoke v rule fallback => exact h v (List.mem_filterMap.2 ⟨_, hs, rfl⟩)
    | _ => exact Nat.zero_le m
  refine List.foldlRecOn (motive := (· ≤ m)) _ max (Nat.zero_le m) fun b hb a ha => ?_
  obtain ⟨s, hs, rfl⟩ := List.mem_map.1 ha
  exact Nat.max_le.2 ⟨hb, steps s hs⟩

theorem countP_flatMap_le {α β : Type} {l : List α} {f : α → List β} {p : β → Bool} {q : α → Bool}
    {m : Nat} (some : ∀ x ∈ l, q x = true → (f x).countP p ≤ m)
    (none : ∀ x ∈ l, q x = false → (f x).countP p = 0) :
    (l.flatMap f).countP p ≤ l.countP q * m := by
  induction l with
  | nil => exact Nat.zero_le _
  | cons x l ih =>
    rw [List.forall_mem_cons] at some none
    have rest := ih some.2 none.2
    rw [List.flatMap_cons, List.countP_append, List.countP_cons, Nat.add_mul, Nat.add_comm]
    cases hq : q x with
    | true => simpa using Nat.add_le_add rest (some.1 hq)
    | false => simpa [none.1 hq] using rest

section

variable {d : Document} {enter : Visit d.Node → Run d.Node (Option String)} {ev : Evaluator d.Node}
  {v : Visit d.Node}

theorem Request.countP_entered_le {r : Request} (h : r.query = none) (s : Sites) (c : d.Node) :
    (r.entered enter ev v s).countP (·.node = c) ≤ 1 := by
  rw [entered, result_select h]
  have first : (v.entered enter (r.hop s) r.mode 0 (TreeNode.children v.node)).map (·.node)
      <+: TreeNode.children v.node := Visit.entered_prefix ..
  have once : (TreeNode.children v.node).count c ≤ 1 :=
    List.nodup_iff_count_le_one.1 v.node.nodup_children c
  have := (first.sublist.count_le c).trans once
  rwa [List.count, List.countP_map] at this

theorem Body.countP_entered_le {b : Body} (hb : b.queries = []) (s : Sites) (c : d.Node) :
    (b.entered enter ev v s).countP (·.node = c) ≤ (b.requests enter ev v s).length := by
  have h : (b.entered enter ev v s).countP (·.node = c)
      ≤ (b.requests enter ev v s).countP (fun _ => true) * 1 := by
    refine countP_flatMap_le (fun x hx _ => ?_) nofun
    exact Request.countP_entered_le (query_eq_none hb x hx) x.2 c
  simpa using h

end

namespace Registry

section

variable {d : Document} {history : List (Registration Body)}
  (childOnly : ∀ r ∈ history, r.body.queries = []) {ev : Evaluator d.Node}
  {policy : UnmatchedPolicy} {limit : Nat} {v : Visit d.Node} {way : List (Link d.Node)}

include childOnly

theorem climb_of_turns : ∀ t ∈ (ofList history).turns ev policy limit v way,
    ∃ j, t.levels + j = limit ∧ t.visit.depth = v.depth + j ∧
      t.visit.node.climb j = some v.node := by
  refine turns_induction ⟨0, rfl, rfl, rfl⟩ ?_
  rintro w - ⟨j, level, depth, hj⟩ levels l u hl hu
  obtain ⟨child, below⟩ := Body.child_of_links (queries_bodyAt childOnly ev w.visit) hu
  refine ⟨j + 1, ?_, below.trans (by omega), ?_⟩
  · exact (by omega : levels + (j + 1) = limit)
  · rw [Document.Node.climb_of_parent (Document.Node.mem_children.1 child), hj]

theorem countP_turns_eq_zero {n : d.Node} (h : ∀ j, n.climb j ≠ some v.node) :
    ((ofList history).turns ev policy limit v way).countP (·.visit.node = n) = 0 := by
  rw [List.countP_eq_zero]
  intro t ht hn
  obtain ⟨j, -, -, hj⟩ := climb_of_turns childOnly t ht
  exact h j (of_decide_eq_true hn ▸ hj)

theorem countP_turns_self :
    ((ofList history).turns ev policy limit v way).countP (·.visit.node = v.node) = 1 := by
  cases limit with
  | zero => simp [turns]
  | succ limit =>
    rw [turns, List.countP_cons_of_pos (by simp), Nat.add_eq_right, List.countP_eq_zero]
    intro t ht
    obtain ⟨⟨l, u⟩, hl, ht⟩ := List.mem_flatMap.1 ht
    obtain ⟨child, -⟩ := Body.child_of_links (queries_bodyAt childOnly ev v) hl
    refine List.countP_eq_zero.1 (countP_turns_eq_zero childOnly fun j hj => ?_) t ht
    cases Document.Node.climb_inj (Document.Node.climb_succ_eq_some.2 ⟨u.node, child, hj⟩)
      (rfl : v.node.climb 0 = some v.node)

/-- If no body makes more than `k` calls, then a node that is `depth` levels down has at most
`k ^ depth` turns. -/
theorem countP_turns_le {k : Nat}
    (calls : ∀ t ∈ (ofList history).turns ev policy limit v way,
      ((ofList history).requestsAt ev policy t).length ≤ k) {n : d.Node} {depth : Nat}
    (hn : n.climb depth = some v.node) :
    ((ofList history).turns ev policy limit v way).countP (·.visit.node = n) ≤ k ^ depth := by
  induction depth generalizing limit v way with
  | zero =>
    obtain rfl : n = v.node := Option.some.inj hn
    rw [countP_turns_self childOnly, Nat.pow_zero]
  | succ depth ih =>
    have away : v.node ≠ n := by
      rintro rfl
      cases Document.Node.climb_inj hn (rfl : v.node.climb 0 = some v.node)
    cases limit with
    | zero => simp [turns, away]
    | succ limit =>
      rw [turns] at calls ⊢
      obtain ⟨here, below⟩ := List.forall_mem_cons.1 calls
      rw [List.countP_cons_of_neg (by simpa using away)]
      have body := queries_bodyAt childOnly ev v
      obtain ⟨c, hc, hn'⟩ := Document.Node.climb_succ_eq_some.1 hn
      -- The way up from `n` goes through one child only, which each call enters at most once.
      calc _ ≤ (((ofList history).bodyAt ev v).links ((ofList history).visit ev policy limit) ev v
              .fresh).countP (·.2.node = c) * k ^ depth :=
            countP_flatMap_le ?through ?past
        _ = (((ofList history).bodyAt ev v).entered ((ofList history).visit ev policy limit) ev v
              .fresh).countP (·.node = c) * k ^ depth := by
            rw [← Body.map_snd_links, List.countP_map]
            rfl
        _ ≤ k * k ^ depth := by
            refine Nat.mul_le_mul_right _ ((Body.countP_entered_le body .fresh c).trans ?_)
            rwa [requestsAt, List.length_map] at here
        _ = k ^ (depth + 1) := (Nat.pow_succ' ..).symm
      case through =>
        rintro ⟨l, u⟩ hl hu
        refine ih (fun t ht => below t (List.mem_flatMap.2 ⟨(l, u), hl, ht⟩)) ?_
        rw [hn', of_decide_eq_true hu]
      case past =>
        rintro ⟨l, u⟩ hl hu
        refine countP_turns_eq_zero childOnly fun j hj => of_decide_eq_false hu ?_
        obtain ⟨child, -⟩ := Body.child_of_links body hl
        cases Document.Node.climb_inj
          (Document.Node.climb_succ_eq_some.2 ⟨u.node, child, hj⟩) hn
        exact Option.some.inj (hj.symm.trans hn')

/-- If no body has a query, then a run ends as soon as it may go down to the lowest nodes. Each turn
is as deep as its node is below the root, and if no body makes more than `k` calls, then a node that
is `depth` levels down has at most `k ^ depth` turns. -/
theorem ends_at_leaves (ev : Evaluator d.Node) (root : d.Node) (options : Options) :
    let g := ofList history
    (∀ limit, root.height < limit →
      g.run ev root options limit = g.run ev root options (root.height + 1) ∧
        renderDetailed g ev root options limit ≠ .error .exhausted) ∧
    ∀ limit,
      let run := g.run ev root options limit
      let turns := g.turns ev options.unmatched limit (.root root options.mode) []
      run.visits = (turns.filter (g.answers ev)).map (·.visit) ∧
      (∀ t ∈ turns, t.visit.node.climb t.visit.depth = some root) ∧
      (∀ trace, (run.summary trace).maxDepth ≤ root.height) ∧
      ∀ k, (∀ t ∈ turns, (g.requestsAt ev options.unmatched t).length ≤ k) →
        ∀ n depth, n.climb depth = some root → turns.countP (·.visit.node = n) ≤ k ^ depth := by
  intro g
  have way (limit : Nat) : ∀ t ∈ g.turns ev options.unmatched limit (.root root options.mode) [],
      ∃ j, t.levels + j = limit ∧ t.visit.depth = 0 + j ∧ t.visit.node.climb j = some root :=
    climb_of_turns childOnly
  have levels (limit : Nat) (h : root.height < limit) :
      ∀ t ∈ g.turns ev options.unmatched limit (.root root options.mode) [], t.levels ≠ 0 := by
    intro t ht none
    obtain ⟨j, level, -, hj⟩ := way limit t ht
    have := Document.Node.le_height hj
    omega
  refine ⟨fun limit h => ⟨?_, fun exhausted => ?_⟩, fun limit => ?_⟩
  · exact visit_of_le (levels _ (Nat.lt_succ_self _)) h
  · obtain ⟨t, ht, none⟩ := turn_of_exhausted [] (Except.map_eq_error.1 exhausted)
    exact levels limit h t ht none
  · intro run turns
    have visits : run.visits = (turns.filter (g.answers ev)).map (·.visit) := g.visits_eq ..
    have climb : ∀ t ∈ turns, t.visit.node.climb t.visit.depth = some root := by
      intro t ht
      obtain ⟨j, -, depth, hj⟩ := way limit t ht
      rwa [depth, Nat.zero_add]
    refine ⟨visits, climb, Run.maxDepth_le fun v hv => ?_, fun k calls n depth hn => ?_⟩
    · rw [visits] at hv
      obtain ⟨t, ht, rfl⟩ := List.mem_map.1 hv
      exact Document.Node.le_height (climb t (List.mem_of_mem_filter ht))
    · exact countP_turns_le childOnly calls hn

end

/-- Each list goes twice to what it holds, once in another mode and before a failure that it
recovers from. -/
theorem ends_at_leaves_twice :
    let d := Document.empty.append Document.empty.root (.element "list" [])
    let d := d.append ⟨1, by decide⟩ (.element "list" [])
    let leaf : d.Node := ⟨2, by decide⟩
    let again : Body := .attempt (.seq (.traverse none (.enter ⟨"deep"⟩) .count) (.fail "late"))
    let list : Registration Body := ⟨.default, "*", .seq (.traverse none .keep .count) again⟩
    let ev : Evaluator d.Node := .ofTables [("*", .nodes [d.root, ⟨1, by decide⟩, leaf])] []
    let g := ofList [list]
    let turns := g.turns ev .ignore 3 (.root d.root .default) []
    (∀ r ∈ [list], r.body.queries = []) ∧ d.root.height < 3 ∧
      (∀ t ∈ turns, (g.requestsAt ev .ignore t).length ≤ 2) ∧ leaf.climb 2 = some d.root ∧
      renderDetailed g ev d.root {} 3 ≠ .error .exhausted ∧
      turns.countP (·.visit.node = leaf) = 4 ∧ turns.countP (·.visit.node = leaf) ≤ 2 ^ 2 := by
  intro d₁ d leaf again list ev g turns
  have childOnly : ∀ r ∈ [list], r.body.queries = [] := by decide
  have height : d.root.height < 3 := d.root.height_lt_size
  have calls : ∀ t ∈ turns, (g.requestsAt ev .ignore t).length ≤ 2 := by decide +kernel
  have climb : leaf.climb 2 = some d.root := by decide +kernel
  have four : turns.countP (·.visit.node = leaf) = 4 := by decide +kernel
  obtain ⟨ends, bounds⟩ := ends_at_leaves childOnly ev d.root {}
  exact ⟨childOnly, height, calls, climb, (ends 3 height).2, four,
    (bounds 3).2.2.2 2 calls leaf 2 climb⟩

end Registry

end Stylesheet
