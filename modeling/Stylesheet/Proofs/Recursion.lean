import Stylesheet.Proofs.Document.Relatives
import Stylesheet.Proofs.Preorder

namespace Stylesheet

variable {ν : Type}

namespace Body

/-- No part of the body makes a call or fails. -/
def prints : Body → Bool
  | traverse .. | fail _ => false
  | attempt b => b.prints
  | within _ b => b.prints
  | seq a b => a.prints && b.prints
  | _ => true

def recurses : Body → Bool
  | traverse none .keep _ => true
  | attempt b => b.recurses
  | seq a b => a.recurses && b.prints || a.prints && b.recurses
  | _ => false

variable [TreeNode ν] {enter : Visit ν → Run ν (Option String)} {ev : Evaluator ν} {v : Visit ν}
  {s : Sites}

theorem perform_prints {b : Body} (h : b.prints = true) :
    ∃ x, b.perform enter ev v s = (pure x, s) := by
  induction b generalizing s with
  | skip => exact ⟨_, rfl⟩
  | lit text => exact ⟨_, rfl⟩
  | field f => exact ⟨_, rfl⟩
  | attr name => exact ⟨_, rfl⟩
  | fail message => cases h
  | traverse query next gather => cases h
  | attempt b ih =>
    obtain ⟨x, hx⟩ := ih (s := s) h
    exact ⟨x, by rw [perform, hx]; rfl⟩
  | within depth b ih =>
    rw [perform]
    split
    · exact ih h
    · exact ⟨_, rfl⟩
  | seq a b iha ihb =>
    rw [prints, Bool.and_eq_true] at h
    obtain ⟨x, hx⟩ := iha (s := s) h.1
    obtain ⟨y, hy⟩ := ihb (s := s) h.2
    exact ⟨x ++ y, by simp only [perform, hx, hy]; rfl⟩

theorem perform_recurses {b : Body} (h : b.recurses = true) {outputs : List String}
    (ho : (v.traverse enter ev none .keep s).1.result = .ok outputs) :
    (b.perform enter ev v s).1.log = (v.traverse enter ev none .keep s).1.log ∧
      ∃ x, (b.perform enter ev v s).1.result = .ok x := by
  induction b with
  | traverse query next gather =>
    cases query with
    | some path => cases h
    | none =>
      cases next with
      | keep =>
        simp only [perform, Run.map_eq, ho]
        exact ⟨trivial, _, rfl⟩
      | reset => cases h
      | enter mode => cases h
  | attempt b ih =>
    obtain ⟨log, x, hx⟩ := ih h
    simp only [perform, hx]
    exact ⟨log, x, rfl⟩
  | seq a b iha ihb =>
    rw [recurses, Bool.or_eq_true, Bool.and_eq_true, Bool.and_eq_true] at h
    rcases h with ⟨ha, hb⟩ | ⟨ha, hb⟩
    · obtain ⟨log, x, hx⟩ := iha ha
      have printed (t : Sites) : ∃ y, b.perform enter ev v t = (pure y, t) := perform_prints hb
      obtain ⟨y, hy⟩ := printed (a.perform enter ev v s).2
      simp only [perform, hx, hy, Run.log_pure, List.append_nil]
      exact ⟨log, _, rfl⟩
    · obtain ⟨log, y, hy⟩ := ihb hb
      have printed : ∃ x, a.perform enter ev v s = (pure x, s) := perform_prints ha
      obtain ⟨x, hx⟩ := printed
      simp only [perform, hx, Run.result_pure, Run.log_pure, List.nil_append, hy]
      exact ⟨log, _, rfl⟩
  | _ => cases h

end Body

def Log.invoked [TreeNode ν] (log : List (Step ν)) : List (Visit ν) :=
  (log.filterMap Step.invocation?).map Prod.fst

theorem Log.invoked_append [TreeNode ν] (l m : List (Step ν)) :
    invoked (l ++ m) = invoked l ++ invoked m := by
  rw [invoked, List.filterMap_append, List.map_append]
  rfl

theorem Log.length_invoked [TreeNode ν] (log : List (Step ν)) :
    (invoked log).length = log.countP Step.isInvoke := by
  rw [invoked, List.length_map, List.length_filterMap_eq_countP]
  exact List.countP_congr fun s _ => by cases s <;> rfl

open Document

variable {d : Document}

/-- The hops from `v` to `w` are the indices of children on the way between their nodes. -/
def Visit.LeadsTo (v w : Visit d.Node) : Prop :=
  ∃ rest, w.node.address = v.node.address ++ rest ∧ w.key.hops = v.key.hops ++ rest.map .child

/-- From `v` on, rules are at work at these nodes in turn, and no node is unmatched. -/
structure Visit.Covers (v : Visit d.Node) (ns : List d.Node) (log : List (Step d.Node)) : Prop where
  nodes : (Log.invoked log).map (·.node) = ns
  ways : ∀ w ∈ Log.invoked log, v.LeadsTo w
  matched : log.countP Step.isUnmatched = 0

namespace Visit.Covers

variable {v : Visit d.Node} {ns ms : List d.Node} {l m : List (Step d.Node)}

theorem nil : v.Covers [] [] := ⟨rfl, nofun, rfl⟩

theorem append (hl : v.Covers ns l) (hm : v.Covers ms m) : v.Covers (ns ++ ms) (l ++ m) where
  nodes := by rw [Log.invoked_append, List.map_append, hl.nodes, hm.nodes]
  ways := by
    rw [Log.invoked_append]
    exact List.forall_mem_append.2 ⟨hl.ways, hm.ways⟩
  matched := by rw [List.countP_append, hl.matched, hm.matched]

theorem of_child {c : d.Node} {mode : Mode} (hc : IsParent v.node c)
    (h : (v.descend (.child c.index) mode c).Covers ns l) : v.Covers ns l where
  nodes := h.nodes
  ways w hw := by
    obtain ⟨rest, address, hops⟩ := h.ways w hw
    refine ⟨c.index :: rest, ?_, ?_⟩
    · have below : c.address = v.node.address ++ [c.index] := Node.address_of_parent hc
      rw [address, descend, below, List.append_assoc, List.singleton_append]
    · rw [hops, descend, Key.descend, List.append_assoc, List.map_cons, List.singleton_append]
  matched := h.matched

theorem of_winner {g : Registry Body} {ev : Evaluator d.Node} {log : List (Step d.Node)}
    {result : Except Halt (Option (Rule Body × Bool))}
    (h : ev.winner g v.node v.mode = ⟨log, result⟩) : v.Covers [] log where
  nodes := by
    rw [Log.invoked, Registry.invocations_of_winner h]
    rfl
  ways := by
    rw [Log.invoked, Registry.invocations_of_winner h]
    nofun
  matched := by
    rw [List.countP_eq_zero]
    intro s hs
    have visit := List.filterMap_eq_nil_iff.1 (Registry.visits_of_winner h) s hs
    cases s with
    | unmatched u => cases visit
    | _ => exact Bool.false_ne_true

theorem invoke (rule : RuleHead) (fallback : Bool) :
    v.Covers [v.node] [.invoke v rule fallback] where
  nodes := rfl
  ways := List.forall_mem_singleton.2 ⟨[], by simp, by simp⟩
  matched := rfl

end Visit.Covers

theorem Node.index_of_getElem? {p c : d.Node} {i : Nat} (h : p.children[i]? = some c) :
    IsParent p c ∧ c.index = i := by
  obtain ⟨hi, hc⟩ := List.getElem?_eq_some_iff.1 h
  have parent : IsParent p c := Node.mem_children.1 (List.mem_of_getElem? h)
  rw [Node.index_of_parent parent, ← hc, p.nodup_children.idxOf_getElem]
  exact ⟨hc ▸ parent, rfl⟩

theorem Visit.covers_enterAll {enter : Visit d.Node → Run d.Node (Option String)}
    {v : Visit d.Node} {mode : Mode}
    (he : ∀ c, IsParent v.node c → ∀ u, u = v.descend (.child c.index) mode c →
      u.Covers c.preorder (enter u).log ∧ ∃ x, (enter u).result = .ok x)
    (position : Nat) {ns : List d.Node}
    (hns : ∀ i c, ns[i]? = some c → IsParent v.node c ∧ c.index = position + i) :
    v.Covers (ns.flatMap Node.preorder) (v.enterAll enter .child mode position ns).log ∧
      ∃ outputs, (v.enterAll enter .child mode position ns).result = .ok outputs := by
  induction ns generalizing position with
  | nil => exact ⟨.nil, _, rfl⟩
  | cons n ns ih =>
    obtain ⟨parent, index⟩ := hns 0 n rfl
    obtain rfl : n.index = position := index
    obtain ⟨first, x, hx⟩ := he n parent _ rfl
    have rest : ∀ i c, ns[i]? = some c → IsParent v.node c ∧ c.index = n.index + 1 + i := by
      intro i c hc
      obtain ⟨hp, hi⟩ := hns (i + 1) c hc
      exact ⟨hp, by omega⟩
    obtain ⟨later, outputs, ho⟩ := ih _ rest
    rw [enterAll, Run.bind_ok hx, bind_pure_comp, Run.map_eq, ho, List.flatMap_cons]
    refine ⟨?_, _, rfl⟩
    exact (first.of_child parent).append later

namespace Registry

variable {g : Registry Body} {ev : Evaluator d.Node}

def Recurses (g : Registry Body) (ev : Evaluator d.Node) (n : d.Node) : Prop :=
  ∃ rule fallback, (ev.winner g n .default).result = .ok (some (rule, fallback)) ∧
    rule.body.recurses = true

/-- The numbers grow on the way down, so that the levels do not run out. -/
theorem covers_visit (policy : UnmatchedPolicy) {limit : Nat} {v : Visit d.Node}
    (mode : v.mode = .default) (deep : d.size ≤ limit + v.node.val)
    (h : ∀ n ∈ v.node.preorder, g.Recurses ev n) :
    v.Covers v.node.preorder (g.visit ev policy limit v).log ∧
      ∃ x, (g.visit ev policy limit v).result = .ok (some x) := by
  induction limit generalizing v with
  | zero => exact absurd v.node.isLt (by omega)
  | succ limit ih =>
    rw [Node.preorder_eq] at h ⊢
    obtain ⟨here, below⟩ := List.forall_mem_cons.1 h
    obtain ⟨rule, fallback, winner, recurses⟩ := here
    have entered : ∀ c, IsParent v.node c → ∀ u, u = v.descend (.child c.index) .default c →
        u.Covers c.preorder (g.visit ev policy limit u).log ∧
          ∃ x, (g.visit ev policy limit u).result = .ok x := by
      rintro c hc _ rfl
      have hlt := Node.lt_of_parent? hc
      have deep : d.size ≤ limit + c.val := by omega
      have subtree : ∀ n ∈ c.preorder, g.Recurses ev n := fun n hn =>
        below n (List.mem_flatMap.2 ⟨c, Node.mem_children.2 hc, hn⟩)
      obtain ⟨covers, x, hx⟩ := ih (v := v.descend (.child c.index) .default c) rfl deep subtree
      exact ⟨covers, some x, hx⟩
    obtain ⟨covers, outputs, ho⟩ := Visit.covers_enterAll entered 0 fun i c hc => by
      rw [Nat.zero_add]
      exact Node.index_of_getElem? hc
    have call : (v.traverse (g.visit ev policy limit) ev none .keep .fresh).1
        = v.enterAll (g.visit ev policy limit) .child .default 0 v.node.children := by
      simp only [Visit.traverse, NextMode.after, mode]
      rfl
    rw [← call] at covers ho
    obtain ⟨log, x, hx⟩ := Body.perform_recurses recurses ho
    rw [← mode] at winner
    rw [visit_succ, Run.bind_ok winner, Visit.log_answer_some, log]
    refine ⟨?_, x, ?_⟩
    · exact (Visit.Covers.of_winner rfl).append
        ((Visit.Covers.invoke rule.head fallback).append covers)
    · rw [Visit.answer, Run.map_eq, hx]
      rfl

/-- Rules that send the traversal on to the children walk through the subtree of the root, each node
before those below it, and leave out none. The way in a key is what the address of the node has
after the address of the root. -/
theorem run_walks {root : d.Node} (h : ∀ n ∈ root :: root.descendants, g.Recurses ev n)
    (options : Options) {limit : Nat} (deep : d.size ≤ limit) :
    let plain : Options := { options with mode := .default }
    let run := g.run ev root plain limit
    let summary := run.summary plain.trace
    (∃ output, renderDetailed g ev root plain limit = .ok (some output, summary)) ∧
      (Log.invoked run.log).map (·.node) = root :: root.descendants ∧
      (root :: root.descendants).Nodup ∧
      summary.invocations = root.descendants.length + 1 ∧ summary.unmatched = 0 ∧
      ∀ w ∈ Log.invoked run.log, ∃ rest, w.node.address = root.address ++ rest ∧
        Key.pathOf w.key.text = '#' :: rest.flatMap fun i => '/' :: Nat.toDigits 10 i := by
  intro plain run summary
  rw [← Node.preorder_eq_cons] at h ⊢
  have enough : d.size ≤ limit + root.val := Nat.le_add_right_of_le deep
  obtain ⟨covers, output, result⟩ :=
    covers_visit plain.unmatched (v := .root root .default) rfl enough h
  have nodes : (Log.invoked run.log).map (·.node) = root.preorder := covers.nodes
  have count : (Log.invoked run.log).length = root.descendants.length + 1 := by
    rw [← List.length_map (·.node), nodes, Node.preorder_eq_cons, List.length_cons]
  refine ⟨⟨output, ?_⟩, nodes, root.nodup_preorder, ?_, covers.matched, fun w hw => ?_⟩
  · exact congrArg (Except.map (·, summary)) result
  · exact (Log.length_invoked run.log).symm.trans count
  · obtain ⟨rest, address, hops⟩ := covers.ways w hw
    refine ⟨rest, address, ?_⟩
    rw [Key.pathOf_text, Key.path, hops]
    exact congrArg ('#' :: ·) (List.flatMap_map ..)

/-- From an element after a comment; the text below its first child is the last node added. -/
theorem run_walks_element :
    let c := Document.empty.append Document.empty.root (.comment "c")
    let x := c.append c.root (.element "x" [])
    let a := x.append ⟨2, by decide⟩ (.element "a" [("id", "1")])
    let b := a.append ⟨2, by decide⟩ (.element "b" [])
    let d := b.append ⟨3, by decide⟩ (.text "t")
    let g := ofList [⟨.default, "node()", .seq (.lit "-") (.traverse none .keep (.join ","))⟩]
    let ev : Evaluator d.Node := .ofTables [("node()", .all)] []
    let root : d.Node := ⟨2, by decide⟩
    let run := g.run ev root {} 6
    (∀ n ∈ root :: root.descendants, g.Recurses ev n) ∧ run.result = .ok (some "---,-") ∧
      (Log.invoked run.log).map (·.node.val) = [2, 3, 5, 4] ∧
      (Log.invoked run.log).map (·.key.text) = ["#", "1[#/0]", "1[#/0/0]", "#/1"] ∧
      ∀ w ∈ Log.invoked run.log, ∃ rest, w.node.address = root.address ++ rest ∧
        Key.pathOf w.key.text = '#' :: rest.flatMap fun i => '/' :: Nat.toDigits 10 i := by
  intro c x a b d g ev root run
  have recursive (n : d.Node) : g.Recurses ev n := ⟨_, _, rfl, rfl⟩
  have deep : d.size ≤ 6 := by decide
  obtain ⟨-, -, -, -, -, paths⟩ := run_walks (fun n _ => recursive n) {} deep
  exact ⟨fun n _ => recursive n, by decide +kernel, by decide +kernel, by decide +kernel, paths⟩

end Registry

end Stylesheet
