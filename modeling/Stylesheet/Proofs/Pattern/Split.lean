import Stylesheet.Pattern.Split
import Stylesheet.Proofs.Text.Blank

/-! Cutting a text whose brackets are in order. Such a text ends at the depth at which it starts and
goes no lower, so that what stands before or after it is cut as if it were not there. -/

namespace Stylesheet.Pattern

open Text

section Pieces

variable {α : Type} {p : α → Bool} {u : List α}

theorem splitOnP_append (hu : ∀ m ∈ u, p m = false)
    (s : List α) : (u ++ s).splitOnP p = (s.splitOnP p).modifyHead (u ++ ·) := by
  induction u with
  | nil =>
    rw [List.nil_append]
    cases s.splitOnP p <;> rfl
  | cons c u ih =>
    rw [List.cons_append, List.splitOnP_cons_eq_if_modifyHead, hu c List.mem_cons_self,
      ih fun m hm => hu m (List.mem_cons_of_mem _ hm)]
    cases s.splitOnP p <;> rfl

theorem dropLast_modifyHead (f : α → α) (l : List α) :
    (l.modifyHead f).dropLast = l.dropLast.modifyHead f := by
  cases l with
  | nil => rfl
  | cons a l => cases l <;> rfl

theorem dropLast_splitOnP_append (s : List α) (hu : ∀ m ∈ u, p m = false) :
    ((s ++ u).splitOnP p).dropLast = (s.splitOnP p).dropLast := by
  induction s with
  | nil => rw [List.nil_append, List.splitOnP_eq_singleton hu, List.splitOnP_nil]; rfl
  | cons c s ih =>
    rw [List.cons_append, List.splitOnP_cons_eq_if_modifyHead, List.splitOnP_cons_eq_if_modifyHead]
    split
    · rw [List.dropLast_cons_of_ne_nil (List.splitOnP_ne_nil _ _), ih,
        List.dropLast_cons_of_ne_nil (List.splitOnP_ne_nil _ _)]
    · rw [dropLast_modifyHead, dropLast_modifyHead, ih]

end Pieces

section Marks

variable (op cl : Char → Bool)

def depth (d : Int) (s : List Char) : Int := s.foldl (deepen op cl) d

def markFrom (d : Int) (s : List Char) : List Marked := s.zip (s.scanl (deepen op cl) d)

theorem mark_eq (s : List Char) : mark op cl s = markFrom op cl 0 s := rfl

@[simp] theorem markFrom_nil (d : Int) : markFrom op cl d [] = [] := rfl

@[simp] theorem markFrom_cons (d : Int) (c : Char) (s : List Char) :
    markFrom op cl d (c :: s) = (c, d) :: markFrom op cl (deepen op cl d c) s := by
  rw [markFrom, List.scanl_cons]
  rfl

theorem markFrom_append (d : Int) (s t : List Char) :
    markFrom op cl d (s ++ t) = markFrom op cl d s ++ markFrom op cl (depth op cl d s) t := by
  induction s generalizing d with
  | nil => rfl
  | cons c s ih =>
    rw [List.cons_append, markFrom_cons, markFrom_cons, ih]
    rfl

@[simp] theorem unmark_markFrom (d : Int) (s : List Char) : unmark (markFrom op cl d s) = s := by
  induction s generalizing d with
  | nil => rfl
  | cons c s ih =>
    rw [markFrom_cons, unmark, List.map_cons]
    exact congrArg (c :: ·) (ih _)

theorem depth_append (d : Int) (s t : List Char) :
    depth op cl d (s ++ t) = depth op cl (depth op cl d s) t :=
  List.foldl_append

/-- The brackets are in order, and outside of them stand only characters of `top`. -/
structure Balanced (top : Char → Prop) (s : List Char) : Prop where
  depth_eq (d : Int) : depth op cl d s = d
  within (d : Int) : ∀ m ∈ markFrom op cl d s,
    d ≤ m.2 ∧ (cl m.1 = true → d < m.2) ∧ (m.2 = d → top m.1)

variable {op cl} {top other : Char → Prop} {s t : List Char}

theorem Balanced.nil : Balanced op cl top [] where
  depth_eq _ := rfl
  within d m hm := by cases hm

theorem Balanced.mono (h : Balanced op cl top s) (ho : ∀ c, top c → other c) :
    Balanced op cl other s where
  depth_eq := h.depth_eq
  within d m hm := by
    obtain ⟨hd, hc, ht⟩ := h.within d m hm
    exact ⟨hd, hc, fun e => ho _ (ht e)⟩

theorem Balanced.append (hs : Balanced op cl top s) (ht : Balanced op cl top t) :
    Balanced op cl top (s ++ t) where
  depth_eq d := by rw [depth_append, hs.depth_eq, ht.depth_eq]
  within d m hm := by
    rw [markFrom_append, hs.depth_eq] at hm
    rcases List.mem_append.1 hm with hm | hm
    · exact hs.within d m hm
    · exact ht.within d m hm

theorem Balanced.single {c : Char} (ho : op c = false) (hc : cl c = false) (ht : top c) :
    Balanced op cl top [c] where
  depth_eq d := by simp [depth, deepen, ho, hc]
  within d m hm := by
    rw [markFrom_cons, markFrom_nil, List.mem_singleton] at hm
    subst hm
    simp [hc, ht]

theorem Balanced.plain (h : ∀ c ∈ s, op c = false ∧ cl c = false ∧ top c) :
    Balanced op cl top s := by
  induction s with
  | nil => exact .nil
  | cons c s ih =>
    obtain ⟨ho, hc, ht⟩ := h c List.mem_cons_self
    exact (Balanced.single ho hc ht).append (ih fun d hd => h d (List.mem_cons_of_mem _ hd))

theorem Balanced.group {o c : Char} (ho : op o = true) (hc : cl c = true) (hoc : op c = false)
    (hco : cl o = false) (ht : top o) (h : Balanced op cl (fun _ => True) s) :
    Balanced op cl top (o :: (s ++ [c])) where
  depth_eq d := by
    have e : depth op cl d (o :: (s ++ [c])) = depth op cl (depth op cl (d + 1) s) [c] := by
      rw [← depth_append]
      simp [depth, deepen, ho]
    rw [e, h.depth_eq]
    simp [depth, deepen, hoc, hc]
  within d m hm := by
    have ed : deepen op cl d o = d + 1 := by simp [deepen, ho]
    rw [markFrom_cons, ed, markFrom_append, h.depth_eq, List.mem_cons, List.mem_append,
      markFrom_cons, markFrom_nil, List.mem_singleton] at hm
    rcases hm with rfl | hm | rfl
    · simp [hco, ht]
    · obtain ⟨hd, hcl, -⟩ := h.within (d + 1) m hm
      exact ⟨by omega, fun e => by have := hcl e; omega, fun e => by omega⟩
    · show d ≤ d + 1 ∧ (_ → d < d + 1) ∧ (d + 1 = d → top c)
      exact ⟨by omega, fun _ => by omega, fun e => by omega⟩

end Marks

def brackets : List Char := ['[', ']', '(', ')']

def cuts : List Char := brackets ++ ['|', '/']

def signs : List Char := cuts ++ ['@', '"', '\'']

theorem blank_notMem_signs {c : Char} (h : isBlank c = true) : c ∉ signs := by
  have none : signs.all (fun d => !isBlank d) = true := rfl
  intro hc
  simpa [h] using List.all_eq_true.1 none c hc

/-- The two ways of counting: with and without the parentheses. -/
inductive Counting : (Char → Bool) → (Char → Bool) → Prop
  | both : Counting isOpener isCloser
  | brackets : Counting (· == '[') (· == ']')

section Counting

variable {op cl : Char → Bool} (h : Counting op cl) {top : Char → Prop} {s : List Char}

include h

theorem Counting.plain (hs : ∀ c ∈ s, c ∉ Pattern.brackets ∧ top c) : Balanced op cl top s := by
  refine .plain fun c hc => ?_
  obtain ⟨hc, ht⟩ := hs c hc
  simp only [Pattern.brackets, List.mem_cons, List.not_mem_nil, or_false, not_or] at hc
  cases h with
  | both => simp [isOpener, isCloser, hc, ht]
  | brackets => simp [hc, ht]

theorem Counting.uncut (hs : ∀ c ∈ s, c ∉ cuts) (ht : ∀ c, c ∉ cuts → top c) :
    Balanced op cl top s :=
  h.plain fun c hc => ⟨fun hb => hs c hc (List.mem_append_left _ hb), ht c (hs c hc)⟩

theorem Counting.blank (hs : Blank s) (ht : ∀ c, c ∉ cuts → top c) : Balanced op cl top s :=
  h.uncut (fun c hc hm => blank_notMem_signs (hs c hc) (List.mem_append_left _ hm)) ht

theorem Counting.bracketed (hs : Balanced op cl (fun _ => True) s) (ht : top '[') :
    Balanced op cl top ('[' :: (s ++ [']'])) := by
  cases h with
  | both => exact .group rfl rfl rfl rfl ht hs
  | brackets => exact .group rfl rfl rfl rfl ht hs

theorem Counting.parenthesized (hs : Balanced op cl top s) (ht : top '(') (ht' : top ')') :
    Balanced op cl top ('(' :: (s ++ [')'])) := by
  cases h with
  | both => exact .group rfl rfl rfl rfl ht (hs.mono fun c _ => trivial)
  | brackets => exact .append (s := ['(']) (.single rfl rfl ht) (hs.append (.single rfl rfl ht'))

end Counting

section Outside

variable {sep : Char} {s t : List Char}

theorem splitOutside_append_cons (h : depth isOpener isCloser 0 s = 0) (ho : isOpener sep = false)
    (hc : isCloser sep = false) :
    splitOutside sep (s ++ sep :: t) = splitOutside sep s ++ splitOutside sep t := by
  have e : deepen isOpener isCloser 0 sep = 0 := by simp [deepen, ho, hc]
  simp only [splitOutside, mark_eq, markFrom_append, h, markFrom_cons, e]
  rw [List.splitOnP_append_cons _ _ (by simp), List.map_append]

theorem splitOutside_of_balanced (h : Balanced isOpener isCloser (· ≠ sep) s) :
    splitOutside sep s = [s] := by
  rw [splitOutside, mark_eq, List.splitOnP_eq_singleton, List.map_singleton, unmark_markFrom]
  intro m hm
  obtain ⟨-, -, ht⟩ := h.within 0 m hm
  rw [Bool.and_eq_false_iff, beq_eq_false_iff_ne, beq_eq_false_iff_ne]
  by_cases e : m.2 = 0
  · exact .inl (ht e)
  · exact .inr e

end Outside

section Predicates

variable {s : List Char}

abbrev Matched (s : List Char) : Prop := Balanced (· == '[') (· == ']') (fun _ => True) s

def Unbracketed (s : List Char) : Prop := ∀ c ∈ s, c ≠ '[' ∧ c ≠ ']'

theorem Unbracketed.matched (h : Unbracketed s) : Matched s := by
  refine .plain fun c hc => ?_
  obtain ⟨ho, hc⟩ := h c hc
  simp [ho, hc]

theorem Unbracketed.marksFrom (h : Unbracketed s) {d : Int} {m : Marked}
    (hm : m ∈ markFrom (· == '[') (· == ']') d s) :
    opensPredicate m = false ∧ closesPredicate m = false := by
  obtain ⟨ho, hc⟩ := h m.1 (List.of_mem_zip hm).1
  simp [opensPredicate, closesPredicate, ho, hc]

theorem Unbracketed.marks (h : Unbracketed s) {m : Marked} (hm : m ∈ markBrackets s) :
    opensPredicate m = false ∧ closesPredicate m = false :=
  h.marksFrom hm

theorem markBrackets_append (h : Matched s) (t : List Char) :
    markBrackets (s ++ t) = markBrackets s ++ markBrackets t := by
  rw [markBrackets, mark_eq, markFrom_append, h.depth_eq]
  rfl

end Predicates

section Blanks

variable {b : List Char}

theorem unbracketed_of_blank (hb : Blank b) : Unbracketed b := by
  intro c hc
  have h := blank_notMem_signs (hb c hc)
  constructor <;> rintro rfl <;> exact h (by decide)

theorem predicates_blank_append (hb : Blank b) (s : List Char) :
    predicates (b ++ s) = predicates s := by
  have hu := unbracketed_of_blank hb
  have part (y : List Marked) : ((markBrackets b ++ y).dropWhile fun m => !opensPredicate m)
      = y.dropWhile fun m => !opensPredicate m :=
    List.dropWhile_append_of_pos fun m hm => by simp [(hu.marks hm).1]
  rw [predicates, markBrackets_append hu.matched, splitOnP_append fun m hm => (hu.marks hm).2,
    predicates]
  cases (markBrackets s).splitOnP closesPredicate with
  | nil => rfl
  | cons y rest => cases rest <;> simp [part]

theorem predicates_append_blank (s : List Char) (hb : Blank b) :
    predicates (s ++ b) = predicates s := by
  rw [predicates, markBrackets, mark_eq, markFrom_append,
    dropLast_splitOnP_append _ fun m hm => ((unbracketed_of_blank hb).marksFrom hm).2]
  rfl

theorem nodeTest_blank_append (hb : Blank b) (s : List Char) :
    nodeTest (b ++ s) = b ++ nodeTest s := by
  have hu := unbracketed_of_blank hb
  rw [nodeTest, markBrackets_append hu.matched, List.takeWhile_append_of_pos]
  · rw [unmark, List.map_append]
    exact congrArg (· ++ nodeTest s) (unmark_markFrom ..)
  · intro m hm
    simp [(hu.marks hm).1]

theorem nodeTest_append_blank (s : List Char) (hb : Blank b) :
    ∃ b', Blank b' ∧ nodeTest (s ++ b) = nodeTest s ++ b' := by
  rw [nodeTest, nodeTest, markBrackets, mark_eq, markFrom_append, List.takeWhile_append]
  split
  next h =>
    have hs := (List.takeWhile_prefix _).eq_of_length h
    refine ⟨b, hb, ?_⟩
    rw [List.takeWhile_eq_self_iff.2, markBrackets, mark_eq, hs, unmark, List.map_append]
    · exact congrArg₂ (· ++ ·) rfl (unmark_markFrom ..)
    · intro m hm
      simp [((unbracketed_of_blank hb).marksFrom hm).1]
  next => exact ⟨[], blank_nil, (List.append_nil _).symm⟩

end Blanks

end Stylesheet.Pattern
