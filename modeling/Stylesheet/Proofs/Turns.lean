import Stylesheet.Proofs.Lifting

/-! The traverse calls of a run, and the visits that have their turn. A body does what its calls do
one after the other, and a call does what the visits do that it enters. So a body does the same
wherever these visits do. -/

namespace Stylesheet

variable {ν α β : Type}

/-- What a traverse call asks for: the nodes to go to, and the mode to go on in. -/
structure Request where
  query : Option String
  mode : Mode
  deriving DecidableEq

namespace Request

def plain (r : Request) : Bool := r.query.isNone && r.mode.isDefault

def hop (r : Request) (s : Sites) : Nat → Hop :=
  if r.plain && !s.childTaken then .child else (.visit s.calls · r.mode)

end Request

def Sites.after (s : Sites) (requests : List Request) : Sites :=
  ⟨s.calls + requests.length, s.childTaken || requests.any Request.plain⟩

namespace Sites

@[simp] theorem after_nil (s : Sites) : s.after [] = s := by
  simp [after]

theorem after_append (s : Sites) (before later : List Request) :
    s.after (before ++ later) = (s.after before).after later := by
  simp [after, Nat.add_assoc, Bool.or_assoc]

end Sites

/-- Each of these calls finds the sites as the calls before it have made them. -/
def Counted (s : Sites) : List (Request × Sites) → Prop
  | [] => True
  | (r, t) :: rest => t = s ∧ Counted (s.after [r]) rest

theorem counted_append {s : Sites} {before later : List (Request × Sites)} :
    Counted s (before ++ later)
      ↔ Counted s before ∧ Counted (s.after (before.map Prod.fst)) later := by
  induction before generalizing s with
  | nil => simp [Counted]
  | cons c before ih =>
    rw [List.cons_append, Counted, Counted, ih, and_assoc, ← Sites.after_append]
    rfl

theorem Counted.sites_eq {s t : Sites} {requests : List (Request × Sites)} (h : Counted s requests)
    {number : Nat} {r : Request} (hr : requests[number]? = some (r, t)) :
    t = s.after ((requests.take number).map Prod.fst) := by
  induction requests generalizing s number with
  | nil => cases hr
  | cons c requests ih =>
    obtain ⟨first, rest⟩ := h
    cases number with
    | zero =>
      obtain rfl : c = (r, t) := by simpa using hr
      exact first.trans s.after_nil.symm
    | succ number =>
      rw [ih rest (by simpa using hr), ← Sites.after_append]
      rfl

variable [TreeNode ν]

def Request.select (ev : Evaluator ν) (v : Visit ν) (r : Request) : Run ν (List ν) :=
  match r.query with
  | some path => ev.query path v.node
  | none => pure (TreeNode.children v.node)

/-- The visits of the nodes in turn. One that ends early is the last. -/
def Visit.entered (enter : Visit ν → Run ν (Option String)) (v : Visit ν) (hop : Nat → Hop)
    (mode : Mode) (position : Nat) : List ν → List (Visit ν)
  | [] => []
  | n :: ns =>
    let u := v.descend (hop position) mode n
    match (enter u).result with
    | .ok _ => u :: entered enter v hop mode (position + 1) ns
    | .error _ => [u]

def Request.entered (enter : Visit ν → Run ν (Option String)) (ev : Evaluator ν) (v : Visit ν)
    (r : Request) (s : Sites) : List (Visit ν) :=
  match (r.select ev v).result with
  | .ok ns => v.entered enter (r.hop s) r.mode 0 ns
  | .error _ => []

/-- The traverse calls that a body makes, failed ones too, each with the sites that it finds. -/
def Body.requests (enter : Visit ν → Run ν (Option String)) (ev : Evaluator ν) (v : Visit ν) :
    Body → Sites → List (Request × Sites)
  | traverse query next _, s => [(⟨query, next.after v.mode⟩, s)]
  | attempt b, s => b.requests enter ev v s
  | within depth b, s => if v.depth < depth then b.requests enter ev v s else []
  | seq a b, s => a.requests enter ev v s ++
    match (a.perform enter ev v s).1.result with
    | .ok _ => b.requests enter ev v (a.perform enter ev v s).2
    | .error _ => []
  | _, _ => []

def Body.entered (enter : Visit ν → Run ν (Option String)) (ev : Evaluator ν) (v : Visit ν)
    (b : Body) (s : Sites) : List (Visit ν) :=
  (b.requests enter ev v s).flatMap fun (r, t) => r.entered enter ev v t

section

variable (enter : Visit ν → Run ν (Option String)) (ev : Evaluator ν) (v : Visit ν)

theorem Visit.traverse_fst (query : Option String) (next : NextMode) (s : Sites) :
    let r : Request := ⟨query, next.after v.mode⟩
    (v.traverse enter ev query next s).1
      = r.select ev v >>= v.enterAll enter (r.hop s) r.mode 0 := by
  intro r
  cases query with
  | some path => rfl
  | none =>
    simp only [traverse, Request.select, pure_bind, Request.hop, Request.plain, Option.isNone_none,
      Bool.true_and, r]
    split <;> rfl

theorem Visit.log_enterAll_eq (hop : Nat → Hop) (mode : Mode) (position : Nat) (ns : List ν) :
    (v.enterAll enter hop mode position ns).log
      = (v.entered enter hop mode position ns).flatMap fun u => (enter u).log := by
  induction ns generalizing position with
  | nil => rfl
  | cons n ns ih =>
    rw [enterAll, entered]
    cases h : (enter (v.descend (hop position) mode n)).result with
    | error e => simp [Run.bind_error h]
    | ok output => rw [Run.bind_ok h, bind_pure_comp, Run.map_eq, List.flatMap_cons, ih]

theorem Body.log_eq (b : Body) (s : Sites) :
    (b.perform enter ev v s).1.log = (b.requests enter ev v s).flatMap fun (r, t) =>
      (r.select ev v).log ++ (r.entered enter ev v t).flatMap fun u => (enter u).log := by
  induction b generalizing s with
  | skip => rfl
  | lit text => rfl
  | field f => rfl
  | attr name => rfl
  | fail message => rfl
  | traverse query next gather =>
    simp only [perform, Run.map_eq, Visit.traverse_fst, requests, List.flatMap_cons,
      List.flatMap_nil, List.append_nil, Request.entered]
    cases h : (Request.select ev v ⟨query, next.after v.mode⟩).result with
    | error e => simp [Run.bind_error h]
    | ok ns => rw [Run.bind_ok h, Visit.log_enterAll_eq]
  | attempt b ih =>
    simp only [perform, requests]
    split <;> exact ih s
  | within depth b ih =>
    simp only [perform, requests]
    split
    · exact ih s
    · rfl
  | seq a b iha ihb =>
    simp only [perform, requests, List.flatMap_append, ← iha]
    cases h : (a.perform enter ev v s).1.result with
    | error e => simp
    | ok x => rw [ihb]

theorem Body.visits_eq (b : Body) (s : Sites) : (b.perform enter ev v s).1.visits
    = (b.entered enter ev v s).flatMap fun u => (enter u).visits := by
  rw [Run.visits, log_eq, List.filterMap_flatMap, entered, List.flatMap_assoc]
  refine List.flatMap_congr fun c _ => ?_
  have none : (c.1.select ev v).log.filterMap Step.visit? = [] := by
    rw [Request.select]
    split <;> rfl
  rw [List.filterMap_append, none, List.nil_append, List.filterMap_flatMap]
  rfl

theorem Body.perform_snd_eq (b : Body) (s : Sites) :
    (b.perform enter ev v s).2 = s.after ((b.requests enter ev v s).map Prod.fst) := by
  induction b generalizing s with
  | skip => exact s.after_nil.symm
  | lit text => exact s.after_nil.symm
  | field f => exact s.after_nil.symm
  | attr name => exact s.after_nil.symm
  | fail message => exact s.after_nil.symm
  | traverse query next gather =>
    simp only [perform, Visit.traverse_snd, requests]
    simp [Visit.passed, Sites.after, Request.plain]
  | attempt b ih =>
    simp only [perform, requests]
    split <;> exact ih s
  | within depth b ih =>
    simp only [perform, requests]
    split
    · exact ih s
    · exact s.after_nil.symm
  | seq a b iha ihb =>
    simp only [perform, requests, List.map_append, Sites.after_append, ← iha]
    cases h : (a.perform enter ev v s).1.result with
    | error e => simp
    | ok x => rw [ihb]

theorem Body.counted_requests (b : Body) (s : Sites) : Counted s (b.requests enter ev v s) := by
  induction b generalizing s with
  | skip => trivial
  | lit text => trivial
  | field f => trivial
  | attr name => trivial
  | fail message => trivial
  | traverse query next gather => exact ⟨rfl, trivial⟩
  | attempt b ih => exact ih s
  | within depth b ih =>
    simp only [requests]
    split
    · exact ih s
    · trivial
  | seq a b iha ihb =>
    refine (counted_append).2 ⟨iha s, ?_⟩
    rw [← perform_snd_eq]
    split
    · exact ihb _
    · trivial

end

section

variable {enter enter' : Visit ν → Run ν (Option String)} {ev : Evaluator ν} {v : Visit ν}

theorem Visit.enterAll_congr {hop : Nat → Hop} {mode : Mode} {position : Nat} {ns : List ν}
    (h : ∀ u ∈ v.entered enter hop mode position ns, enter' u = enter u) :
    v.enterAll enter' hop mode position ns = v.enterAll enter hop mode position ns := by
  induction ns generalizing position with
  | nil => rfl
  | cons n ns ih =>
    rw [enterAll, enterAll]
    rw [entered] at h
    cases hr : (enter (v.descend (hop position) mode n)).result with
    | error e =>
      rw [hr] at h
      rw [h _ (List.mem_singleton_self _), Run.bind_error hr, Run.bind_error hr]
    | ok output =>
      rw [hr] at h
      obtain ⟨first, rest⟩ := List.forall_mem_cons.1 h
      rw [first, ih rest]

theorem Visit.mode_of_entered {hop : Nat → Hop} {mode : Mode} {position : Nat} {ns : List ν} :
    ∀ u ∈ v.entered enter hop mode position ns, u.mode = mode := by
  induction ns generalizing position with
  | nil => exact List.forall_mem_nil _
  | cons n ns ih =>
    rw [entered]
    split
    · exact List.forall_mem_cons.2 ⟨rfl, ih⟩
    · exact List.forall_mem_singleton.2 rfl

theorem Request.mode_of_entered {r : Request} {s : Sites} {u : Visit ν}
    (hu : u ∈ r.entered enter ev v s) : u.mode = r.mode := by
  rw [entered] at hu
  split at hu
  · exact Visit.mode_of_entered u hu
  · cases hu

theorem Body.perform_congr {b : Body} {s : Sites}
    (h : ∀ u ∈ b.entered enter ev v s, enter' u = enter u) :
    b.perform enter' ev v s = b.perform enter ev v s := by
  induction b generalizing s with
  | skip => rfl
  | lit text => rfl
  | field f => rfl
  | attr name => rfl
  | fail message => rfl
  | traverse query next gather =>
    have same : (v.traverse enter' ev query next s).1 = (v.traverse enter ev query next s).1 := by
      rw [Visit.traverse_fst, Visit.traverse_fst]
      simp only [entered, requests, List.flatMap_cons, List.flatMap_nil, List.append_nil,
        Request.entered] at h
      cases hr : (Request.select ev v ⟨query, next.after v.mode⟩).result with
      | error e => rw [Run.bind_error hr, Run.bind_error hr]
      | ok ns =>
        rw [hr] at h
        rw [Run.bind_ok hr, Run.bind_ok hr, Visit.enterAll_congr h]
    simp only [perform, same, Visit.traverse_snd]
  | attempt b ih => simp only [perform, ih h]
  | within depth b ih =>
    simp only [perform, entered, requests] at h ⊢
    split
    next above =>
      rw [if_pos above] at h
      exact ih h
    next => rfl
  | seq a b iha ihb =>
    rw [entered, requests, List.flatMap_append, List.forall_mem_append] at h
    simp only [perform, iha h.1]
    cases hr : (a.perform enter ev v s).1.result with
    | error e => rfl
    | ok x =>
      rw [hr] at h
      simp only [ihb h.2]

end

/-- A call on the way to a visit: the calls that the same body has made before it, and the node that
it leads to, with the position of this node in what it selects. -/
structure Link (ν : Type) where
  before : List Request
  request : Request
  position : Nat
  node : ν

def Body.links (enter : Visit ν → Run ν (Option String)) (ev : Evaluator ν) (v : Visit ν)
    (b : Body) (s : Sites) : List (Link ν × Visit ν) :=
  let requests := b.requests enter ev v s
  requests.zipIdx.flatMap fun ((r, t), number) =>
    (r.entered enter ev v t).zipIdx.map fun (u, position) =>
      (⟨(requests.take number).map Prod.fst, r, position, u.node⟩, u)

theorem Body.map_snd_links (enter : Visit ν → Run ν (Option String)) (ev : Evaluator ν)
    (v : Visit ν) (b : Body) (s : Sites) :
    (b.links enter ev v s).map Prod.snd = b.entered enter ev v s := by
  rw [links, entered, List.map_flatMap]
  conv_rhs => rw [← List.zipIdx_map_fst 0 (b.requests enter ev v s), List.flatMap_map]
  refine List.flatMap_congr fun c _ => ?_
  rw [List.map_map]
  exact List.zipIdx_map_fst ..

/-- A visit on its turn, with the levels that are left for it and the way there. -/
structure Turn (ν : Type) where
  levels : Nat
  visit : Visit ν
  way : List (Link ν)

namespace Registry

/-- The body at work in a visit, which is empty if no rule is found. -/
def bodyAt (g : Registry Body) (ev : Evaluator ν) (v : Visit ν) : Body :=
  match (ev.winner g v.node v.mode).result with
  | .ok (some (rule, _)) => rule.body
  | _ => .skip

def turns (g : Registry Body) (ev : Evaluator ν) (policy : UnmatchedPolicy) :
    Nat → Visit ν → List (Link ν) → List (Turn ν)
  | 0, v, way => [⟨0, v, way⟩]
  | limit + 1, v, way => ⟨limit + 1, v, way⟩ ::
    ((g.bodyAt ev v).links (g.visit ev policy limit) ev v .fresh).flatMap fun (l, u) =>
      turns g ev policy limit u (way ++ [l])

/-- The turn is not cut off, and the search for a rule comes to a result. -/
def answers (g : Registry Body) (ev : Evaluator ν) (t : Turn ν) : Bool :=
  match (ev.winner g t.visit.node t.visit.mode).result with
  | .ok _ => t.levels != 0
  | .error _ => false

def requestsAt (g : Registry Body) (ev : Evaluator ν) (policy : UnmatchedPolicy) (t : Turn ν) :
    List Request :=
  match t.levels with
  | 0 => []
  | limit + 1 =>
    ((g.bodyAt ev t.visit).requests (g.visit ev policy limit) ev t.visit .fresh).map Prod.fst

def requests (g : Registry Body) (ev : Evaluator ν) (root : ν) (options : Options) (limit : Nat) :
    List Request :=
  (g.turns ev options.unmatched limit (.root root options.mode) []).flatMap
    (g.requestsAt ev options.unmatched)

/-- The visits of a run are the turns on which the search comes to a result. -/
theorem visits_eq (g : Registry Body) (ev : Evaluator ν) (policy : UnmatchedPolicy) (limit : Nat)
    (v : Visit ν) (way : List (Link ν)) : (g.visit ev policy limit v).visits
      = ((g.turns ev policy limit v way).filter (g.answers ev)).map (·.visit) := by
  induction limit generalizing v way with
  | zero =>
    have silent : ¬g.answers ev ⟨0, v, way⟩ := by
      rw [answers]
      split <;> simp
    rw [turns, List.filter_cons_of_neg silent]
    rfl
  | succ limit ih =>
    have below : ((((g.bodyAt ev v).links (g.visit ev policy limit) ev v .fresh).flatMap
        fun (l, u) => g.turns ev policy limit u (way ++ [l])).filter (g.answers ev)).map (·.visit)
          = ((g.bodyAt ev v).perform (g.visit ev policy limit) ev v .fresh).1.visits := by
      rw [Body.visits_eq, ← Body.map_snd_links, List.flatMap_map, List.filter_flatMap,
        List.map_flatMap]
      exact List.flatMap_congr fun x _ => (ih x.2 _).symm
    have search := ev.visits_winner g v.node v.mode
    rw [visit_succ, turns]
    cases hw : (ev.winner g v.node v.mode).result with
    | error e =>
      have body : g.bodyAt ev v = .skip := by simp [bodyAt, hw]
      rw [Run.bind_error hw, List.filter_cons_of_neg (by simp [answers, hw]), below, body]
      exact search
    | ok found =>
      have whole :
          (ev.winner g v.node v.mode >>= v.answer (g.visit ev policy limit) ev policy).visits
            = (v.answer (g.visit ev policy limit) ev policy found).visits := by
        rw [Run.bind_ok hw, Run.visits, List.filterMap_append]
        exact congrArg (· ++ _) search
      rw [whole, List.filter_cons_of_pos (by simp [answers, hw]), List.map_cons, below]
      cases found with
      | none =>
        have body : g.bodyAt ev v = .skip := by simp [bodyAt, hw]
        rw [Run.visits, Visit.log_answer_none, body]
        rfl
      | some found =>
        obtain ⟨rule, fallback⟩ := found
        have body : g.bodyAt ev v = rule.body := by simp [bodyAt, hw]
        rw [Run.visits, Visit.log_answer_some, body]
        rfl

end Registry

end Stylesheet
