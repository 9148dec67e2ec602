import Stylesheet.Proofs.Pattern.Depth

/-! How any text falls into predicates and what stands between them, with its brackets in whatever
order. A predicate begins at a bracket that opens at depth zero and ends where the depth is zero
again; brackets that close too early only lower the depth, and one that is never closed begins no
predicate but still ends the node test. -/

namespace Stylesheet.Pattern

variable {d : Int} {c : Char} {s t g p r : List Char}

/-- No predicate begins or ends in a text that starts at the depth. -/
def Quiet (d : Int) (s : List Char) : Prop :=
  ∀ m ∈ markFrom (· == '[') (· == ']') d s, opensPredicate m = false ∧ closesPredicate m = false

section Quiet

theorem quiet_nil (d : Int) : Quiet d [] := nofun

theorem opensPredicate_iff : opensPredicate (c, d) = true ↔ c = '[' ∧ d = 0 := by
  rw [opensPredicate, Bool.and_eq_true, beq_iff_eq, beq_iff_eq]

theorem closesPredicate_iff : closesPredicate (c, d) = true ↔ c = ']' ∧ d = 1 := by
  rw [closesPredicate, Bool.and_eq_true, beq_iff_eq, beq_iff_eq]

theorem quiet_cons : Quiet d (c :: s) ↔
    (¬(c = '[' ∧ d = 0) ∧ ¬(c = ']' ∧ d = 1)) ∧ Quiet (deepen (· == '[') (· == ']') d c) s := by
  rw [← opensPredicate_iff, ← closesPredicate_iff, Bool.not_eq_true, Bool.not_eq_true, Quiet,
    markFrom_cons, List.forall_mem_cons]
  rfl

theorem quiet_append : Quiet d (s ++ t) ↔
    Quiet d s ∧ Quiet (depth (· == '[') (· == ']') d s) t := by
  rw [Quiet, markFrom_append, List.forall_mem_append]
  rfl

theorem Quiet.depth_le (h : Quiet d s) (hd : d ≤ 0) : depth (· == '[') (· == ']') d s ≤ 0 := by
  induction s generalizing d with
  | nil => exact hd
  | cons c s ih =>
    obtain ⟨⟨ho, -⟩, hs⟩ := quiet_cons.1 h
    apply ih hs
    simp only [deepen, beq_iff_eq]
    split
    next hc =>
      have : d ≠ 0 := fun e => ho ⟨hc, e⟩
      omega
    next => split <;> omega

theorem Quiet.le_depth (h : Quiet d s) (hd : 1 ≤ d) : 1 ≤ depth (· == '[') (· == ']') d s := by
  induction s generalizing d with
  | nil => exact hd
  | cons c s ih =>
    obtain ⟨⟨-, hc⟩, hs⟩ := quiet_cons.1 h
    apply ih hs
    simp only [deepen, beq_iff_eq]
    split
    next => omega
    next =>
      split
      next e =>
        have : d ≠ 1 := fun h => hc ⟨e, h⟩
        omega
      next => exact hd

theorem exists_first (d : Int) (s : List Char) : Quiet d s ∨ ∃ g c r, s = g ++ c :: r ∧ Quiet d g ∧
    (c = '[' ∧ depth (· == '[') (· == ']') d g = 0 ∨
      c = ']' ∧ depth (· == '[') (· == ']') d g = 1) := by
  induction s generalizing d with
  | nil => exact .inl (quiet_nil d)
  | cons c s ih =>
    by_cases hc : c = '[' ∧ d = 0 ∨ c = ']' ∧ d = 1
    · exact .inr ⟨[], c, s, rfl, quiet_nil d, hc⟩
    · rw [not_or] at hc
      rcases ih (deepen (· == '[') (· == ']') d c) with hs | ⟨g, c', r, rfl, hg, h⟩
      · exact .inl (quiet_cons.2 ⟨hc, hs⟩)
      · exact .inr ⟨c :: g, c', r, rfl, quiet_cons.2 ⟨hc, hg⟩, h⟩

end Quiet

structure Gap (g : List Char) : Prop where
  quiet : Quiet 0 g
  depth_eq : depth (· == '[') (· == ']') 0 g = 0

structure Inner (p : List Char) : Prop where
  quiet : Quiet 1 p
  depth_eq : depth (· == '[') (· == ']') 1 p = 1

theorem exists_gap (s : List Char) : Quiet 0 s ∨ ∃ g r, s = g ++ '[' :: r ∧ Gap g := by
  rcases exists_first 0 s with h | ⟨g, c, r, rfl, hg, ⟨rfl, hd⟩ | ⟨rfl, hd⟩⟩
  · exact .inl h
  · exact .inr ⟨g, r, rfl, hg, hd⟩
  · have := hg.depth_le (Int.le_refl 0)
    omega

theorem exists_inner (s : List Char) : Quiet 1 s ∨ ∃ p r, s = p ++ ']' :: r ∧ Inner p := by
  rcases exists_first 1 s with h | ⟨p, c, r, rfl, hp, ⟨rfl, hd⟩ | ⟨rfl, hd⟩⟩
  · exact .inl h
  · have := hp.le_depth (Int.le_refl 1)
    omega
  · exact .inr ⟨p, r, rfl, hp, hd⟩

/-! ### By counting brackets -/

theorem quiet_zero_iff :
    Quiet 0 s ↔ ∀ u v, s = u ++ '[' :: v → u.count '[' ≠ u.count ']' := by
  constructor
  · rintro h u v rfl level
    have opened := (quiet_cons.1 (quiet_append.1 h).2).1.1
    rw [depth_brackets] at opened
    exact opened ⟨rfl, by omega⟩
  · intro h
    rcases exists_gap s with hs | ⟨g, r, rfl, hg⟩
    · exact hs
    · have level := hg.depth_eq
      rw [depth_brackets] at level
      exact absurd (by omega) (h g r rfl)

theorem inner_iff : Inner p ↔
    p.count '[' = p.count ']' ∧ ∀ u v, p = u ++ v → u.count ']' ≤ u.count '[' := by
  constructor
  · intro h
    have level := h.depth_eq
    rw [depth_brackets] at level
    refine ⟨by omega, ?_⟩
    rintro u v rfl
    have above := (quiet_append.1 h.quiet).1.le_depth (Int.le_refl 1)
    rw [depth_brackets] at above
    omega
  · rintro ⟨level, above⟩
    rcases exists_inner p with hp | ⟨q, r, rfl, hq⟩
    · refine ⟨hp, ?_⟩
      rw [depth_brackets]
      omega
    · have least := above (q ++ [']']) r (by simp)
      have closed := hq.depth_eq
      rw [depth_brackets] at closed
      simp only [List.count_append, List.count_singleton_self] at least
      rw [List.count_eq_zero_of_not_mem (a := '[') (l := [']']) (by decide)] at least
      omega

/-! ### By brackets in order -/

theorem Unbracketed.quiet (h : Unbracketed s) (d : Int) : Quiet d s := fun _ hm => h.marksFrom hm

theorem Unbracketed.gap (h : Unbracketed s) : Gap s := ⟨h.quiet 0, h.matched.depth_eq 0⟩

theorem Balanced.inner (h : Matched p) : Inner p := by
  refine ⟨fun m hm => ?_, h.depth_eq 1⟩
  obtain ⟨above, closer, -⟩ := h.within 1 m hm
  simp only [opensPredicate, closesPredicate, Bool.and_eq_false_iff, beq_eq_false_iff_ne]
  refine ⟨.inr (by omega), ?_⟩
  by_cases hc : m.1 = ']'
  · exact .inr (Int.ne_of_gt (closer (beq_iff_eq.2 hc)))
  · exact .inl hc

/-- The predicates of a text, from the left. -/
inductive Sections : List (List Char) → List Char → Prop
  | none {s : List Char} (h : Quiet 0 s) : Sections [] s
  | unclosed {g r : List Char} (hg : Gap g) (hr : Quiet 1 r) : Sections [] (g ++ '[' :: r)
  | cons {g p s : List Char} {ps : List (List Char)} (hg : Gap g) (hp : Inner p)
      (h : Sections ps s) : Sections (p :: ps) (g ++ '[' :: (p ++ ']' :: s))

theorem exists_sections (s : List Char) : ∃ ps, Sections ps s := by
  induction hn : s.length using Nat.strongRecOn generalizing s with
  | ind n ih =>
    rcases exists_gap s with h | ⟨g, r, rfl, hg⟩
    · exact ⟨[], .none h⟩
    · rcases exists_inner r with hr | ⟨p, r, rfl, hp⟩
      · exact ⟨[], .unclosed hg hr⟩
      · obtain ⟨ps, h⟩ := ih r.length (by simp at hn; omega) r rfl
        exact ⟨p :: ps, .cons hg hp h⟩

/-! ### Reading them off -/

theorem Gap.markBrackets_append (hg : Gap g) (r : List Char) : markBrackets (g ++ '[' :: r)
    = markBrackets g ++ ('[', 0) :: markFrom (· == '[') (· == ']') 1 r := by
  rw [markBrackets, mark_eq, markFrom_append, hg.depth_eq, markFrom_cons]
  rfl

theorem Inner.markFrom_append (hp : Inner p) (s : List Char) :
    markFrom (· == '[') (· == ']') 1 (p ++ ']' :: s)
      = markFrom (· == '[') (· == ']') 1 p ++ (']', 1) :: markBrackets s := by
  rw [Pattern.markFrom_append, hp.depth_eq, markFrom_cons]
  rfl

theorem Quiet.nodeTest_eq (h : Quiet 0 s) : nodeTest s = s := by
  rw [nodeTest, List.takeWhile_eq_self_iff.2]
  · exact unmark_markFrom ..
  · intro m hm
    rw [(h m hm).1]
    rfl

theorem Gap.nodeTest_append (hg : Gap g) (r : List Char) : nodeTest (g ++ '[' :: r) = g := by
  rw [nodeTest, hg.markBrackets_append, List.takeWhile_append_of_pos,
    List.takeWhile_cons_of_neg (by decide), List.append_nil]
  · exact unmark_markFrom ..
  · intro m hm
    rw [(hg.quiet m hm).1]
    rfl

theorem predicates_of_unclosed (h : ∀ m ∈ markBrackets s, closesPredicate m = false) :
    predicates s = [] := by
  rw [predicates, List.splitOnP_eq_singleton h]
  rfl

theorem Gap.predicates_append (hg : Gap g) (hp : Inner p) (s : List Char) :
    predicates (g ++ '[' :: (p ++ ']' :: s)) = p :: predicates s := by
  have before : ∀ m ∈ markBrackets g ++ ('[', 0) :: markFrom (· == '[') (· == ']') 1 p,
      closesPredicate m = false := by
    rw [List.forall_mem_append, List.forall_mem_cons]
    exact ⟨fun m hm => (hg.quiet m hm).2, rfl, fun m hm => (hp.quiet m hm).2⟩
  have part : ((markBrackets g ++ ('[', 0) :: markFrom (· == '[') (· == ']') 1 p).dropWhile
      fun m => !opensPredicate m) = ('[', 0) :: markFrom (· == '[') (· == ']') 1 p := by
    rw [List.dropWhile_append_of_pos, List.dropWhile_cons_of_neg (by decide)]
    intro m hm
    rw [(hg.quiet m hm).1]
    rfl
  rw [predicates, hg.markBrackets_append, hp.markFrom_append, ← List.cons_append,
    ← List.append_assoc, List.splitOnP_append_cons_of_forall_mem before _ (by decide),
    List.dropLast_cons_of_ne_nil (List.splitOnP_ne_nil _ _), List.map_cons, part, List.tail_cons,
    unmark_markFrom]
  rfl

theorem Sections.predicates_eq {ps : List (List Char)} (h : Sections ps s) : predicates s = ps := by
  induction h with
  | none h => exact predicates_of_unclosed fun m hm => (h m hm).2
  | unclosed hg hr =>
    apply predicates_of_unclosed
    rw [hg.markBrackets_append, List.forall_mem_append, List.forall_mem_cons]
    exact ⟨fun m hm => (hg.quiet m hm).2, rfl, fun m hm => (hr m hm).2⟩
  | cons hg hp h ih => rw [hg.predicates_append hp, ih]

end Stylesheet.Pattern
