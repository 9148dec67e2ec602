import Mathlib.Data.List.Induction
import Stylesheet.Proofs.Pattern.Split

/-! Where a text is cut. The depth of a place counts the brackets that open and close before it. A
separator cuts the text exactly if these are equally many, and the parts are the text again once
they are joined. -/

namespace Stylesheet.Pattern

section Counts

variable {s : List Char}

theorem depth_eq_count {op cl : Char → Bool} (apart : ∀ c, op c = true → cl c = false) (d : Int)
    (s : List Char) : depth op cl d s = d + s.countP op - s.countP cl := by
  induction s generalizing d with
  | nil => simp [depth]
  | cons c s ih =>
    have first : depth op cl d (c :: s) = depth op cl (deepen op cl d c) s := rfl
    rw [first, ih, List.countP_cons, List.countP_cons, deepen]
    cases ho : op c with
    | true =>
      simp only [apart c ho, if_true, Bool.false_eq_true, if_false]
      omega
    | false => cases cl c <;> simp only [Bool.false_eq_true, if_false, if_true] <;> omega

theorem isCloser_of_isOpener {c : Char} (h : isOpener c = true) : isCloser c = false := by
  rw [isOpener, Bool.or_eq_true, beq_iff_eq, beq_iff_eq] at h
  rcases h with rfl | rfl <;> rfl

theorem depth_eq_zero (s : List Char) :
    depth isOpener isCloser 0 s = 0 ↔ s.countP isOpener = s.countP isCloser := by
  have apart (c : Char) : isOpener c = true → isCloser c = false := isCloser_of_isOpener
  rw [depth_eq_count apart]
  omega

theorem depth_brackets (d : Int) (s : List Char) :
    depth (· == '[') (· == ']') d s = d + s.count '[' - s.count ']' := by
  apply depth_eq_count
  intro c hc
  rw [beq_iff_eq.1 hc]
  rfl

end Counts

section Width

variable {op cl : Char → Bool}

theorem natAbs_deepen_le (d : Int) (c : Char) : (deepen op cl d c).natAbs ≤ d.natAbs + 1 := by
  rw [deepen]
  split
  · omega
  · split <;> omega

theorem natAbs_depth_le (d : Int) (s : List Char) :
    (depth op cl d s).natAbs ≤ d.natAbs + s.length := by
  induction s generalizing d with
  | nil => exact Nat.le_refl _
  | cons c s ih =>
    have first : (deepen op cl d c).natAbs ≤ d.natAbs + 1 := natAbs_deepen_le d c
    rw [List.length_cons]
    exact Nat.le_trans (ih (deepen op cl d c)) (by omega)

/-- The depth after a character, as a counter of 32 bits has it. -/
def deepen32 (op cl : Char → Bool) (d : Int32) (c : Char) : Int32 :=
  if op c then d + 1 else if cl c then d - 1 else d

theorem toInt_deepen32 {d : Int32} (h : d.toInt.natAbs + 1 < 2147483648) (c : Char) :
    (deepen32 op cl d c).toInt = deepen op cl d.toInt c := by
  have one : (1 : Int32).toInt = 1 := rfl
  rw [deepen32, deepen]
  split
  · rw [Int32.toInt_add, one]
    exact Int.bmod_eq_of_le (by omega) (by omega)
  · split
    · rw [Int32.toInt_sub, one]
      exact Int.bmod_eq_of_le (by omega) (by omega)
    · rfl

/-- Counted in 32 bits, all depths in a text of less than `2 ^ 31` characters are the same. -/
theorem toInt_foldl_deepen32 {s : List Char} (h : s.length < 2147483648) :
    (s.foldl (deepen32 op cl) 0).toInt = depth op cl 0 s := by
  induction s using List.reverseRecOn with
  | nil => rfl
  | append_singleton s c ih =>
    rw [List.length_append, List.length_singleton] at h
    have before := ih (by omega)
    have small : (depth op cl 0 s).natAbs ≤ (0 : Int).natAbs + s.length := natAbs_depth_le 0 s
    rw [List.foldl_append, List.foldl_cons, List.foldl_nil, toInt_deepen32, before, depth_append]
    · rfl
    · rw [before]
      omega

end Width

section Joining

variable {α β : Type} {x : α}

theorem intercalate_cons (x : α) (p : List α) (ps : List (List α)) :
    [x].intercalate (p :: ps) = p ++ ps.flatMap (x :: ·) := by
  induction ps generalizing p with
  | nil => rw [List.intercalate_singleton, List.flatMap_nil, List.append_nil]
  | cons q ps ih =>
    rw [List.intercalate_cons_cons, ih, List.flatMap_cons, List.append_assoc]
    rfl

theorem intercalate_append {ps qs : List (List α)} (hp : ps ≠ []) (hq : qs ≠ []) :
    [x].intercalate (ps ++ qs) = [x].intercalate ps ++ x :: [x].intercalate qs := by
  obtain ⟨p, ps, rfl⟩ := List.exists_cons_of_ne_nil hp
  obtain ⟨q, qs, rfl⟩ := List.exists_cons_of_ne_nil hq
  simp only [List.cons_append, intercalate_cons, List.flatMap_append, List.flatMap_cons,
    List.append_assoc]

theorem map_intercalate (f : α → β) (x : α) (ps : List (List α)) :
    ([x].intercalate ps).map f = [f x].intercalate (ps.map (List.map f)) := by
  cases ps with
  | nil => rfl
  | cons p ps =>
    rw [List.map_cons, intercalate_cons, intercalate_cons, List.map_append, List.map_flatMap,
      List.flatMap_map]
    rfl

end Joining

section Cuts

variable {sep : Char} {s u v : List Char}

theorem splitOutside_eq (sep : Char) (s : List Char) :
    splitOutside sep s = ((mark isOpener isCloser s).splitOn (sep, 0)).map unmark := rfl

theorem splitOutside_ne_nil (sep : Char) (s : List Char) : splitOutside sep s ≠ [] :=
  mt List.map_eq_nil_iff.1 (List.splitOnP_ne_nil _ _)

theorem intercalate_splitOutside (sep : Char) (s : List Char) :
    [sep].intercalate (splitOutside sep s) = s := by
  have joined := map_intercalate Prod.fst (sep, (0 : Int))
    ((mark isOpener isCloser s).splitOn (sep, 0))
  rw [List.intercalate_splitOn] at joined
  exact joined.symm.trans (unmark_markFrom ..)

/-- The text is cut at this separator: some parts come before it, and the others after it. -/
def IsCut (sep : Char) (u v : List Char) : Prop :=
  ∃ ps qs, splitOutside sep (u ++ sep :: v) = ps ++ qs ∧ ps ≠ [] ∧ qs ≠ [] ∧
    [sep].intercalate ps = u ∧ [sep].intercalate qs = v

theorem IsCut.depth_eq (h : IsCut sep u v) : depth isOpener isCloser 0 u = 0 := by
  obtain ⟨ps, qs, h, hp, hq, hu, -⟩ := h
  rw [splitOutside_eq] at h
  obtain ⟨xs, ys, hxy, rfl, rfl⟩ := List.map_eq_append_iff.1 h
  have hx : xs ≠ [] := mt (congrArg (List.map unmark)) hp
  have hy : ys ≠ [] := mt (congrArg (List.map unmark)) hq
  have joined : markFrom isOpener isCloser 0 (u ++ sep :: v)
      = [(sep, 0)].intercalate xs ++ (sep, 0) :: [(sep, 0)].intercalate ys := by
    rw [← intercalate_append hx hy, ← hxy, List.intercalate_splitOn]
    rfl
  have before : unmark ([(sep, 0)].intercalate xs) = u :=
    (map_intercalate Prod.fst (sep, (0 : Int)) xs).trans hu
  have length : (markFrom isOpener isCloser 0 u).length
      = ([(sep, (0 : Int))].intercalate xs).length := by
    have left := congrArg List.length (unmark_markFrom isOpener isCloser 0 u)
    have right := congrArg List.length before
    rw [unmark, List.length_map] at left right
    exact left.trans right.symm
  rw [markFrom_append, markFrom_cons] at joined
  have marks := (List.cons.inj (List.append_inj joined length).2).1
  exact (Prod.mk.inj marks).2

theorem isCut_iff (ho : isOpener sep = false) (hc : isCloser sep = false) :
    IsCut sep u v ↔ u.countP isOpener = u.countP isCloser := by
  rw [← depth_eq_zero]
  constructor
  · exact IsCut.depth_eq
  · intro h
    exact ⟨_, _, splitOutside_append_cons h ho hc, splitOutside_ne_nil sep u,
      splitOutside_ne_nil sep v, intercalate_splitOutside sep u, intercalate_splitOutside sep v⟩

def StandsOutside (sep : Char) (s : List Char) : Prop :=
  ∃ u v, s = u ++ sep :: v ∧ u.countP isOpener = u.countP isCloser

theorem one_lt_length_splitOutside (ho : isOpener sep = false) (hc : isCloser sep = false) :
    1 < (splitOutside sep s).length ↔ StandsOutside sep s := by
  constructor
  · intro h
    obtain ⟨p, qs, e⟩ := List.exists_cons_of_ne_nil (splitOutside_ne_nil sep s)
    have hq : qs ≠ [] := by
      rintro rfl
      rw [e, List.length_singleton] at h
      exact Nat.lt_irrefl 1 h
    have joined : s = p ++ sep :: [sep].intercalate qs := by
      rw [← intercalate_splitOutside sep s, e, List.intercalate_cons_of_ne_nil hq,
        List.append_assoc]
      rfl
    refine ⟨p, _, joined, (isCut_iff ho hc).1 ⟨[p], qs, ?_, List.cons_ne_nil _ _, hq, ?_, rfl⟩⟩
    · rw [← joined, e, List.singleton_append]
    · exact List.intercalate_singleton
  · rintro ⟨u, v, rfl, h⟩
    have hu := List.length_pos_iff.2 (splitOutside_ne_nil sep u)
    have hv := List.length_pos_iff.2 (splitOutside_ne_nil sep v)
    rw [splitOutside_append_cons ((depth_eq_zero u).2 h) ho hc, List.length_append]
    omega

end Cuts

end Stylesheet.Pattern
