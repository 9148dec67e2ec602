import Stylesheet.Proofs.Key
import Stylesheet.Summary

namespace Stylesheet

variable {ν α β : Type}

/-- The visit that a step is about. A visit that finds a rule, and one that finds none, has one such
step. -/
def Step.visit? : Step ν → Option (Visit ν)
  | invoke v .. => some v
  | unmatched v => some v
  | _ => none

namespace Run

def visits (r : Run ν α) : List (Visit ν) := r.log.filterMap Step.visit?

def routes (r : Run ν α) : List (List Hop) := r.visits.map fun v => v.key.hops

@[simp] theorem routes_mk_append (l m : List (Step ν)) (e : Except Halt α) :
    routes ⟨l ++ m, e⟩ = routes (⟨l, e⟩ : Run ν α) ++ routes (⟨m, e⟩ : Run ν α) := by
  simp [routes, visits]

theorem routes_congr {r : Run ν α} {s : Run ν β} (h : r.log = s.log) : r.routes = s.routes := by
  simp [routes, visits, h]

@[simp] theorem routes_pure (x : α) : (pure x : Run ν α).routes = [] := rfl

@[simp] theorem routes_halt (h : Halt) : (halt h : Run ν α).routes = [] := rfl

@[simp] theorem routes_fail (f : Failure) : (fail f : Run ν α).routes = [] := rfl

@[simp] theorem routes_ofReply (c : Call ν) (reply : Except EvaluationError α) :
    (ofReply c reply).routes = [] := rfl

theorem routes_bind (r : Run ν α) (f : α → Run ν β) :
    (r >>= f).routes = r.routes ∨
      ∃ x, r.result = .ok x ∧ (r >>= f).routes = r.routes ++ (f x).routes := by
  cases h : r.result with
  | ok x =>
    rw [bind_ok h]
    exact .inr ⟨x, rfl, by simp [routes, visits]⟩
  | error e =>
    rw [bind_error h]
    exact .inl (routes_congr rfl)

theorem routes_bind_eq_nil {r : Run ν α} {f : α → Run ν β} (hr : r.routes = [])
    (hf : ∀ x, (f x).routes = []) : (r >>= f).routes = [] := by
  rcases routes_bind r f with h | ⟨x, -, h⟩ <;> simp [h, hr, hf]

@[simp] theorem routes_map (f : α → β) (r : Run ν α) : (f <$> r).routes = r.routes := by
  rw [map_eq]
  exact routes_congr rfl

theorem routes_note_bind {step : Step ν} {v : Visit ν} (h : step.visit? = some v)
    (f : Unit → Run ν α) : (note step >>= f).routes = v.key.hops :: (f ()).routes := by
  rw [bind_ok (x := ()) rfl]
  simp [routes, visits, note, h]

end Run

namespace Evaluator

variable (ev : Evaluator ν)

@[simp] theorem routes_firstMatch (node : ν) (rules : List (Rule β)) :
    (ev.firstMatch node rules).routes = [] := by
  induction rules with
  | nil => rfl
  | cons r rest ih =>
    apply Run.routes_bind_eq_nil rfl
    intro matched
    apply Run.routes_bind_eq_nil ih
    intro later
    rfl

@[simp] theorem routes_winner (g : Registry β) (node : ν) (mode : Mode) :
    (ev.winner g node mode).routes = [] := by
  apply Run.routes_bind_eq_nil (ev.routes_firstMatch node _)
  intro found
  cases found with
  | some r => rfl
  | none =>
    dsimp only
    split
    · rfl
    · apply Run.routes_bind_eq_nil rfl
      intro _
      apply Run.routes_bind_eq_nil (ev.routes_firstMatch node _)
      intro found
      rfl

end Evaluator

/-- Different routes that go on from `p`, each with a first hop of the kind `P`. -/
structure Spread (p : List Hop) (P : Hop → Prop) (routes : List (List Hop)) : Prop where
  nodup : routes.Nodup
  hop : ∀ q ∈ routes, ∃ h, P h ∧ p ++ [h] <+: q

structure Rooted (p : List Hop) (routes : List (List Hop)) : Prop where
  nodup : routes.Nodup
  through : ∀ q ∈ routes, p <+: q

namespace Spread

variable {p : List Hop} {P Q : Hop → Prop} {r t : List (List Hop)}

theorem nil : Spread p P [] := ⟨List.nodup_nil, by simp⟩

theorem mono (h : ∀ x, P x → Q x) (s : Spread p P r) : Spread p Q r :=
  ⟨s.nodup, fun q hq => let ⟨x, hx, hp⟩ := s.hop q hq; ⟨x, h x hx, hp⟩⟩

theorem hop_unique {q : List Hop} {x y : Hop} (hx : p ++ [x] <+: q) (hy : p ++ [y] <+: q) :
    x = y := by
  have h := List.prefix_of_prefix_length_le hx hy (by simp)
  have := h.eq_of_length (by simp)
  simpa using this

theorem append (hr : Spread p P r) (ht : Spread p Q t) (h : ∀ x, P x → ¬Q x) :
    Spread p (fun x => P x ∨ Q x) (r ++ t) where
  nodup := by
    refine List.nodup_append.2 ⟨hr.nodup, ht.nodup, ?_⟩
    rintro a ha b hb rfl
    obtain ⟨x, hx, hxa⟩ := hr.hop a ha
    obtain ⟨y, hy, hya⟩ := ht.hop a hb
    rw [← hop_unique hxa hya] at hy
    exact h x hx hy
  hop q hq := by
    rcases List.mem_append.1 hq with hq | hq
    · obtain ⟨x, hx, hp⟩ := hr.hop q hq
      exact ⟨x, .inl hx, hp⟩
    · obtain ⟨x, hx, hp⟩ := ht.hop q hq
      exact ⟨x, .inr hx, hp⟩

theorem ofRooted {x : Hop} (h : Rooted (p ++ [x]) r) : Spread p (· = x) r :=
  ⟨h.nodup, fun q hq => ⟨x, rfl, h.through q hq⟩⟩

theorem rooted (h : Spread p P r) : Rooted p (p :: r) where
  nodup := by
    refine List.nodup_cons.2 ⟨fun hp => ?_, h.nodup⟩
    obtain ⟨x, -, hx⟩ := h.hop p hp
    have := hx.length_le
    simp only [List.length_append, List.length_singleton] at this
    omega
  through q hq := by
    rcases List.mem_cons.1 hq with rfl | hq
    · exact List.prefix_refl _
    · obtain ⟨x, -, hx⟩ := h.hop q hq
      exact (List.prefix_append p [x]).trans hx

end Spread

namespace Sites

/-- Between two moments of a body, further calls are made, and the child hops may be taken. -/
structure Le (s t : Sites) : Prop where
  calls : s.calls ≤ t.calls
  childTaken : s.childTaken = true → t.childTaken = true

theorem Le.refl (s : Sites) : s.Le s := ⟨Nat.le_refl _, id⟩

theorem Le.trans {s t u : Sites} (h : s.Le t) (k : t.Le u) : s.Le u :=
  ⟨Nat.le_trans h.calls k.calls, k.childTaken ∘ h.childTaken⟩

end Sites

def Hop.Between (s t : Sites) : Hop → Prop
  | child _ => s.childTaken = false ∧ t.childTaken = true
  | visit site _ _ => s.calls ≤ site ∧ site < t.calls

namespace Hop.Between

variable {s t u : Sites}

theorem left (h : t.Le u) {x : Hop} (hx : x.Between s t) : x.Between s u := by
  cases x with
  | child i => exact ⟨hx.1, h.childTaken hx.2⟩
  | visit site position mode => exact ⟨hx.1, Nat.lt_of_lt_of_le hx.2 h.calls⟩

theorem right (h : s.Le t) {x : Hop} (hx : x.Between t u) : x.Between s u := by
  cases x with
  | child i =>
    refine ⟨?_, hx.2⟩
    cases hs : s.childTaken with
    | false => rfl
    | true => simpa [h.childTaken hs] using hx.1
  | visit site position mode => exact ⟨Nat.le_trans h.calls hx.1, hx.2⟩

theorem disjoint {x : Hop} (hx : x.Between s t) : ¬x.Between t u := by
  cases x with
  | child i => exact fun hy => by simpa [hx.2] using hy.1
  | visit site position mode => exact fun hy => Nat.not_lt.2 hy.1 hx.2

end Hop.Between

section

variable [TreeNode ν] {enter : Visit ν → Run ν (Option String)}
  (he : ∀ w, Rooted w.key.hops (enter w).routes)

include he

theorem Visit.spread_enterAll (v : Visit ν) {hop : Nat → Hop} (hi : Function.Injective hop)
    (mode : Mode) (position : Nat) (ns : List ν) :
    Spread v.key.hops (fun x => ∃ i, position ≤ i ∧ x = hop i)
      (v.enterAll enter hop mode position ns).routes := by
  induction ns generalizing position with
  | nil => exact .nil
  | cons n ns ih =>
    have hn : Spread v.key.hops (· = hop position)
        (enter (v.descend (hop position) mode n)).routes :=
      .ofRooted (he (v.descend (hop position) mode n))
    rw [enterAll]
    rcases Run.routes_bind (enter (v.descend (hop position) mode n)) fun output => do
      return output.toList ++ (← v.enterAll enter hop mode (position + 1) ns)
      with h | ⟨output, -, h⟩
    · rw [h]
      exact hn.mono fun x hx => ⟨position, Nat.le_refl _, hx⟩
    · rw [h, bind_pure_comp, Run.routes_map]
      refine (hn.append (ih (position + 1)) ?_).mono ?_
      · rintro x rfl ⟨i, hle, e⟩
        have := hi e
        omega
      · rintro x (rfl | ⟨i, hle, rfl⟩)
        · exact ⟨position, Nat.le_refl _, rfl⟩
        · exact ⟨i, by omega, rfl⟩

theorem Visit.spread_traverse (ev : Evaluator ν) (v : Visit ν) (query : Option String)
    (next : NextMode) (s : Sites) :
    s.Le (v.traverse enter ev query next s).2 ∧
      Spread v.key.hops (Hop.Between s (v.traverse enter ev query next s).2)
        (v.traverse enter ev query next s).1.routes := by
  have visits (mode : Mode) (ns : List ν) (t : Sites) (ht : t.calls = s.calls + 1) :
      Spread v.key.hops (Hop.Between s t)
        (v.enterAll enter (.visit s.calls · mode) mode 0 ns).routes := by
    refine (spread_enterAll he v (fun i j h => (Hop.visit.inj h).2.1) mode 0 ns).mono ?_
    rintro x ⟨i, -, rfl⟩
    exact ⟨Nat.le_refl _, by omega⟩
  unfold traverse
  cases query with
  | some path =>
    refine ⟨⟨Nat.le_succ _, id⟩, ?_⟩
    dsimp only
    rcases Run.routes_bind (ev.query path v.node) fun ns =>
      v.enterAll enter (.visit s.calls · (next.after v.mode)) (next.after v.mode) 0 ns
        with h | ⟨ns, -, h⟩
    · rw [h]
      exact .nil
    · rw [h]
      exact visits _ ns _ rfl
  | none =>
    dsimp only
    split
    next h =>
      refine ⟨⟨Nat.le_succ _, fun _ => rfl⟩, ?_⟩
      simp only [Bool.and_eq_true, Bool.not_eq_true'] at h
      refine (spread_enterAll he v (fun i j h => Hop.child.inj h) _ 0 _).mono ?_
      rintro x ⟨i, -, rfl⟩
      exact ⟨h.2, rfl⟩
    next => exact ⟨⟨Nat.le_succ _, id⟩, visits _ _ _ rfl⟩

theorem Body.spread_perform (ev : Evaluator ν) (v : Visit ν) (b : Body) (s : Sites) :
    s.Le (b.perform enter ev v s).2 ∧
      Spread v.key.hops (Hop.Between s (b.perform enter ev v s).2)
        (b.perform enter ev v s).1.routes := by
  induction b generalizing s with
  | skip => exact ⟨.refl s, .nil⟩
  | lit text => exact ⟨.refl s, .nil⟩
  | field f => exact ⟨.refl s, .nil⟩
  | attr name => exact ⟨.refl s, .nil⟩
  | fail message => exact ⟨.refl s, .nil⟩
  | traverse query next gather =>
    obtain ⟨hle, hs⟩ := v.spread_traverse he ev query next s
    exact ⟨hle, by simpa only [perform, Run.routes_map] using hs⟩
  | attempt b ih =>
    obtain ⟨hle, hs⟩ := ih s
    simp only [perform]
    split
    · exact ⟨hle, (congrArg (Spread _ _) (Run.routes_congr rfl)).mp hs⟩
    · exact ⟨hle, hs⟩
  | within depth b ih =>
    simp only [perform]
    split
    · exact ih s
    · exact ⟨.refl s, .nil⟩
  | seq a b iha ihb =>
    obtain ⟨hle, hs⟩ := iha s
    simp only [perform]
    split
    · exact ⟨hle, (congrArg (Spread _ _) (Run.routes_congr rfl)).mp hs⟩
    next x _ =>
      obtain ⟨hle', hs'⟩ := ihb (a.perform enter ev v s).2
      refine ⟨hle.trans hle', ?_⟩
      rw [Run.routes_mk_append]
      refine ((hs.append hs' fun x => Hop.Between.disjoint).mono ?_)
      rintro x (hx | hx)
      · exact hx.left hle'
      · exact hx.right hle

end

variable [TreeNode ν]

theorem Registry.rooted_visit (g : Registry Body) (ev : Evaluator ν) (policy : UnmatchedPolicy)
    (limit : Nat) (v : Visit ν) : Rooted v.key.hops (g.visit ev policy limit v).routes := by
  induction limit generalizing v with
  | zero => exact ⟨List.nodup_nil, by simp [visit]⟩
  | succ limit ih =>
    simp only [visit]
    rcases Run.routes_bind (ev.winner g v.node v.mode) _ with h | ⟨found, -, h⟩
    · rw [h, ev.routes_winner]
      exact ⟨List.nodup_nil, by simp⟩
    · rw [h, ev.routes_winner, List.nil_append]
      cases found with
      | some found =>
        dsimp only
        rw [Run.routes_note_bind rfl, Run.routes_map]
        exact (Body.spread_perform ih ev v found.1.body .fresh).2.rooted
      | none =>
        dsimp only
        rw [Run.routes_note_bind rfl]
        cases policy <;> exact (Spread.nil (P := fun _ => True)).rooted

/-- No two visits of a run have the same key. -/
theorem Registry.keys_nodup (g : Registry Body) (ev : Evaluator ν) (root : ν) (options : Options)
    (limit : Nat) : ((g.run ev root options limit).visits.map fun v => v.key.text).Nodup := by
  have h := (g.rooted_visit ev options.unmatched limit (.root root options.mode)).nodup
  rw [List.Nodup, Run.routes, List.pairwise_map] at h
  rw [List.Nodup, List.pairwise_map]
  exact h.imp fun hne e => hne (congrArg Key.hops (Key.text_injective e))

end Stylesheet
