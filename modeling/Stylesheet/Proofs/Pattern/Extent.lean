import Mathlib
import Stylesheet.Proofs.Pattern.Sections

/-! The same cuts in one pass, as pieces of the text between two numbers of bytes. On the way only
the depth is known, without bounds as in `deepen`, and where the part began or the bracket opened
last. Still every piece lies between characters of the text, whatever its brackets are. -/

namespace Stylesheet.Pattern

open String (utf8Len)

/-- From one number of bytes to another. -/
structure Extent where
  start : Nat
  stop : Nat
  deriving DecidableEq

/-- What stands there in the text, if both ends are between characters and in order. -/
def Extent.slice? (s : String) (e : Extent) : Option String :=
  if e.start ≤ e.stop ∧ String.Pos.Raw.isValid s ⟨e.start⟩ ∧ String.Pos.Raw.isValid s ⟨e.stop⟩ then
    some (String.Pos.Raw.extract s ⟨e.start⟩ ⟨e.stop⟩)
  else none

/-- The parts from the byte `i` on, which is at the depth `d`; the first one began at `start`. -/
def extentsFrom (sep : Char) (i : Nat) (d : Int) (start : Nat) : List Char → List Extent
  | [] => [⟨start, i⟩]
  | c :: s =>
    let next := i + c.utf8Size
    if isOpener c then extentsFrom sep next (d + 1) start s
    else if isCloser c then extentsFrom sep next (d - 1) start s
    else if c == sep && d == 0 then ⟨start, i⟩ :: extentsFrom sep next d next s
    else extentsFrom sep next d start s

def extentsOutside (sep : Char) (s : String) : List Extent :=
  extentsFrom sep 0 0 0 s.toList

structure Scan where
  testStop : Option Nat
  predicates : List Extent

/-- The rest of a pass, from the byte `i` on, which is at the depth `d`. Before it the node test
came to its end, if it has one, and a predicate was opened last at `opened`. -/
def scan (i : Nat) (d : Int) (testStop : Option Nat) (opened : Nat) : List Char → Scan
  | [] => ⟨testStop, []⟩
  | c :: s =>
    let next := i + c.utf8Size
    if c == '[' then
      if d == 0 then scan next (d + 1) (testStop <|> some i) (i + 1) s
      else scan next (d + 1) testStop opened s
    else if c == ']' then
      let z := scan next (d - 1) testStop opened s
      if d - 1 == 0 then ⟨z.testStop, ⟨opened, i⟩ :: z.predicates⟩ else z
    else scan next d testStop opened s

def testExtent (s : String) : Extent :=
  ⟨0, (scan 0 0 none 0 s.toList).testStop.getD s.utf8ByteSize⟩

def predicateExtents (s : String) : List Extent :=
  (scan 0 0 none 0 s.toList).predicates

section Slices

theorem isValid_utf8Len (u v : List Char) :
    String.Pos.Raw.isValid (.ofList (u ++ v)) ⟨utf8Len u⟩ = true := by
  rw [String.Pos.Raw.isValid_eq_true_iff, String.Pos.Raw.isValid_iff_exists_append]
  refine ⟨.ofList u, .ofList v, String.ofList_append, ?_⟩
  rw [String.rawEndPos, String.utf8ByteSize_ofList]

theorem slice?_eq (u p v : List Char) :
    Extent.slice? (.ofList (u ++ (p ++ v))) ⟨utf8Len u, utf8Len u + utf8Len p⟩
      = some (.ofList p) := by
  have start := isValid_utf8Len u (p ++ v)
  have stop := isValid_utf8Len (u ++ p) v
  rw [String.utf8Len_append, List.append_assoc] at stop
  rw [Extent.slice?, if_pos ⟨Nat.le_add_right .., start, stop⟩, ← List.append_assoc,
    String.extract_of_valid]

end Slices

section Parts

variable {sep c : Char} {d : Int} {s : List Char}

def partsFrom (sep : Char) (d : Int) (s : List Char) : List (List Char) :=
  ((markFrom isOpener isCloser d s).splitOn (sep, 0)).map unmark

theorem partsFrom_cons_of_cut (c : Char) (s : List Char) : partsFrom c 0 (c :: s)
    = [] :: partsFrom c (deepen isOpener isCloser 0 c) s := by
  rw [partsFrom, markFrom_cons, List.splitOn, List.splitOnP_cons_eq_if_modifyHead, if_pos (by simp)]
  rfl

theorem partsFrom_cons_of_ne (h : (c, d) ≠ (sep, 0)) : partsFrom sep d (c :: s)
    = (partsFrom sep (deepen isOpener isCloser d c) s).modifyHead (c :: ·) := by
  rw [partsFrom, markFrom_cons, List.splitOn, List.splitOnP_cons_eq_if_modifyHead,
    if_neg (mt beq_iff_eq.1 h), partsFrom, List.splitOn]
  cases List.splitOnP _ (markFrom isOpener isCloser (deepen isOpener isCloser d c) s) <;> rfl

def extentsOf (sep : Char) (i : Nat) : List (List Char) → List Extent
  | [] => []
  | p :: ps => ⟨i, i + utf8Len p⟩ :: extentsOf sep (i + utf8Len p + sep.utf8Size) ps

theorem modifyHead_nil (ps : List (List Char)) : ps.modifyHead ([] ++ ·) = ps := by
  cases ps <;> rfl

/-- When a pass has come to the end of `u`, the part that it is in began with `u`. -/
theorem extentsFrom_eq (ho : isOpener sep = false) (hc : isCloser sep = false) (d : Int)
    (start : Nat) (u s : List Char) : extentsFrom sep (start + utf8Len u) d start s
      = extentsOf sep start ((partsFrom sep d s).modifyHead (u ++ ·)) := by
  induction s generalizing d start u with
  | nil =>
    show [Extent.mk start (start + utf8Len u)] = [⟨start, start + utf8Len (u ++ [])⟩]
    rw [List.append_nil]
  | cons c s ih =>
    have goesOn (d' : Int) (hd : deepen isOpener isCloser d c = d') (h : (c, d) ≠ (sep, 0)) :
        extentsFrom sep (start + utf8Len u + c.utf8Size) d' start s
          = extentsOf sep start ((partsFrom sep d (c :: s)).modifyHead (u ++ ·)) := by
      have longer : start + utf8Len u + c.utf8Size = start + utf8Len (u ++ [c]) := by
        simp [String.utf8Len_append, Nat.add_assoc]
      rw [longer, ih, partsFrom_cons_of_ne h, hd, List.modifyHead_modifyHead]
      simp only [List.append_assoc, List.singleton_append]
      rfl
    simp only [extentsFrom]
    split
    next h =>
      apply goesOn (d + 1)
      · rw [deepen, if_pos h]
      · rintro ⟨⟩
        exact absurd h (Bool.eq_false_iff.1 ho)
    next h =>
      split
      next h' =>
        apply goesOn (d - 1)
        · rw [deepen, if_neg h, if_pos h']
        · rintro ⟨⟩
          exact absurd h' (Bool.eq_false_iff.1 hc)
      next h' =>
        have flat : deepen isOpener isCloser d c = d := by rw [deepen, if_neg h, if_neg h']
        split
        next cut =>
          rw [Bool.and_eq_true, beq_iff_eq, beq_iff_eq] at cut
          obtain ⟨rfl, rfl⟩ := cut
          have rest := ih 0 (start + utf8Len u + c.utf8Size) []
          rw [modifyHead_nil, String.utf8Len_nil, Nat.add_zero] at rest
          rw [partsFrom_cons_of_cut, flat, List.modifyHead_cons, extentsOf, List.append_nil, rest]
        next cut =>
          apply goesOn d flat
          rintro ⟨⟩
          simp at cut

theorem extentsOutside_eq (ho : isOpener sep = false) (hc : isCloser sep = false) (s : String) :
    extentsOutside sep s = extentsOf sep 0 (splitOutside sep s.toList) := by
  have pass := extentsFrom_eq ho hc 0 0 [] s.toList
  rw [modifyHead_nil, String.utf8Len_nil] at pass
  exact pass

theorem slices_extentsOf (sep : Char) (u : List Char) (ps : List (List Char)) :
    (extentsOf sep (utf8Len u) ps).map (Extent.slice? (.ofList (u ++ [sep].intercalate ps)))
      = ps.map fun p => some (String.ofList p) := by
  induction ps generalizing u with
  | nil => rfl
  | cons p ps ih =>
    have first := slice?_eq u p (ps.flatMap (sep :: ·))
    rw [extentsOf, List.map_cons, List.map_cons, intercalate_cons, first]
    cases ps with
    | nil => rfl
    | cons q ps =>
      have rest := ih (u ++ p ++ [sep])
      have text : u ++ p ++ [sep] ++ [sep].intercalate (q :: ps)
          = u ++ (p ++ (q :: ps).flatMap (sep :: ·)) := by
        simp [intercalate_cons]
      have size : utf8Len (u ++ p ++ [sep]) = utf8Len u + utf8Len p + sep.utf8Size := by
        simp [String.utf8Len_append, Nat.add_assoc]
      rw [text, size] at rest
      rw [rest]

end Parts

section Predicates

variable {d : Int} {c : Char} {s g p r : List Char}

theorem scan_cons_quiet (ho : ¬(c = '[' ∧ d = 0)) (hc : ¬(c = ']' ∧ d = 1)) (i : Nat)
    (stop : Option Nat) (opened : Nat) (t : List Char) : scan i d stop opened (c :: t)
      = scan (i + c.utf8Size) (deepen (· == '[') (· == ']') d c) stop opened t := by
  simp only [scan, deepen, beq_iff_eq]
  split
  next h => rw [if_neg fun hd => ho ⟨h, hd⟩]
  next =>
    split
    next h =>
      rw [if_neg]
      intro hd
      exact hc ⟨h, by omega⟩
    next => rfl

theorem scan_quiet (h : Quiet d s) (i : Nat) (stop : Option Nat) (opened : Nat) (t : List Char) :
    scan i d stop opened (s ++ t)
      = scan (i + utf8Len s) (depth (· == '[') (· == ']') d s) stop opened t := by
  induction s generalizing d i with
  | nil => rfl
  | cons c s ih =>
    obtain ⟨⟨ho, hc⟩, hs⟩ := quiet_cons.1 h
    rw [List.cons_append, scan_cons_quiet ho hc, ih hs, String.utf8Len_cons, Nat.add_assoc,
      Nat.add_comm c.utf8Size]
    rfl

theorem scan_open (i : Nat) (stop : Option Nat) (opened : Nat) (s : List Char) :
    scan i 0 stop opened ('[' :: s) = scan (i + 1) 1 (stop <|> some i) (i + 1) s := rfl

theorem scan_close (i : Nat) (stop : Option Nat) (opened : Nat) (s : List Char) :
    scan i 1 stop opened (']' :: s) = ⟨(scan (i + 1) 0 stop opened s).testStop,
      ⟨opened, i⟩ :: (scan (i + 1) 0 stop opened s).predicates⟩ := rfl

theorem scan_none (h : Quiet 0 s) (i : Nat) (stop : Option Nat) (opened : Nat) :
    scan i 0 stop opened s = ⟨stop, []⟩ := by
  have pass := scan_quiet h i stop opened []
  rwa [List.append_nil] at pass

theorem scan_unclosed (hg : Gap g) (hr : Quiet 1 r) (i : Nat) (stop : Option Nat) (opened : Nat) :
    (scan i 0 stop opened (g ++ '[' :: r)).predicates = [] := by
  have pass := scan_quiet hr (i + utf8Len g + 1) (stop <|> some (i + utf8Len g))
    (i + utf8Len g + 1) []
  rw [List.append_nil] at pass
  rw [scan_quiet hg.quiet, hg.depth_eq, scan_open, pass]
  rfl

theorem scan_predicate (hg : Gap g) (hp : Inner p) (i : Nat) (stop : Option Nat) (opened : Nat)
    (s : List Char) : (scan i 0 stop opened (g ++ '[' :: (p ++ ']' :: s))).predicates
      = ⟨i + utf8Len g + 1, i + utf8Len g + 1 + utf8Len p⟩ ::
        (scan (i + utf8Len g + 1 + utf8Len p + 1) 0 (stop <|> some (i + utf8Len g))
          (i + utf8Len g + 1) s).predicates := by
  rw [scan_quiet hg.quiet, hg.depth_eq, scan_open, scan_quiet hp.quiet, hp.depth_eq, scan_close]

theorem testStop_scan (i : Nat) (d : Int) (n opened : Nat) (s : List Char) :
    (scan i d (some n) opened s).testStop = some n := by
  induction s generalizing i d opened with
  | nil => rfl
  | cons c s ih =>
    simp only [scan]
    repeat' split
    all_goals apply ih

theorem testStop_gap (hg : Gap g) (i opened : Nat) (r : List Char) :
    (scan i 0 none opened (g ++ '[' :: r)).testStop = some (i + utf8Len g) := by
  rw [scan_quiet hg.quiet, hg.depth_eq, scan_open]
  exact testStop_scan ..

theorem scan_append (i : Nat) (d : Int) (stop : Option Nat) (opened : Nat) (s : List Char) :
    ∃ stop' opened' es, ∀ t, (scan i d stop opened (s ++ t)).predicates = es ++
      (scan (i + utf8Len s) (depth (· == '[') (· == ']') d s) stop' opened' t).predicates := by
  induction s generalizing i d stop opened with
  | nil => exact ⟨stop, opened, [], fun t => rfl⟩
  | cons c s ih =>
    have size : i + utf8Len (c :: s) = i + c.utf8Size + utf8Len s := by
      rw [String.utf8Len_cons, Nat.add_assoc, Nat.add_comm c.utf8Size]
    rw [size]
    by_cases ho : c = '[' ∧ d = 0
    · obtain ⟨rfl, rfl⟩ := ho
      exact ih (i + 1) 1 (stop <|> some i) (i + 1)
    · by_cases hc : c = ']' ∧ d = 1
      · obtain ⟨rfl, rfl⟩ := hc
        obtain ⟨stop', opened', es, h⟩ := ih (i + 1) 0 stop opened
        exact ⟨stop', opened', ⟨opened, i⟩ :: es, fun t => congrArg (_ :: ·) (h t)⟩
      · simp only [List.cons_append, scan_cons_quiet ho hc]
        exact ih (i + c.utf8Size) (deepen (· == '[') (· == ']') d c) stop opened

theorem mem_scan (hg : depth (· == '[') (· == ']') 0 g = 0) (hp : Inner p) (i : Nat)
    (stop : Option Nat) (opened : Nat) (s : List Char) :
    ⟨i + utf8Len g + 1, i + utf8Len g + 1 + utf8Len p⟩ ∈
      (scan i 0 stop opened (g ++ '[' :: (p ++ ']' :: s))).predicates := by
  obtain ⟨stop', opened', es, h⟩ := scan_append i 0 stop opened g
  rw [h, hg, scan_open, scan_quiet hp.quiet, hp.depth_eq, scan_close]
  exact List.mem_append_right _ List.mem_cons_self

section Sections

variable {ps : List (List Char)} (h : Sections ps s) (i : Nat) (stop : Option Nat) (opened : Nat)

include h

theorem Sections.slices (u : List Char) :
    (scan (utf8Len u) 0 stop opened s).predicates.map (Extent.slice? (.ofList (u ++ s)))
      = ps.map fun p => some (String.ofList p) := by
  induction h generalizing u stop opened with
  | none h =>
    rw [scan_none h]
    rfl
  | unclosed hg hr =>
    rw [scan_unclosed hg hr]
    rfl
  | @cons g p s ps hg hp h ih =>
    have first := slice?_eq (u ++ g ++ ['[']) p (']' :: s)
    have rest := ih (stop <|> some (utf8Len u + utf8Len g)) (utf8Len u + utf8Len g + 1)
      (u ++ g ++ ['['] ++ p ++ [']'])
    have size : utf8Len (u ++ g ++ ['[']) = utf8Len u + utf8Len g + 1 := by
      rw [String.utf8Len_append, String.utf8Len_append]
      rfl
    have size' : utf8Len (u ++ g ++ ['['] ++ p ++ [']'])
        = utf8Len u + utf8Len g + 1 + utf8Len p + 1 := by
      rw [String.utf8Len_append, String.utf8Len_append, size]
      rfl
    have text : u ++ g ++ ['['] ++ (p ++ ']' :: s) = u ++ (g ++ '[' :: (p ++ ']' :: s)) := by simp
    have text' : u ++ g ++ ['['] ++ p ++ [']'] ++ s = u ++ (g ++ '[' :: (p ++ ']' :: s)) := by simp
    rw [size, text] at first
    rw [size', text'] at rest
    rw [scan_predicate hg hp, List.map_cons, List.map_cons, first, rest]

omit h in
theorem testStop_getD (s : List Char) :
    (scan 0 0 none 0 s).testStop.getD (utf8Len s) = utf8Len (nodeTest s) := by
  rcases exists_gap s with hs | ⟨g, r, rfl, hg⟩
  · rw [scan_none hs, hs.nodeTest_eq]
    rfl
  · rw [testStop_gap hg, hg.nodeTest_append, Nat.zero_add]
    rfl

theorem Sections.spread : (∀ e ∈ (scan i 0 stop opened s).predicates, i < e.start) ∧
    (scan i 0 stop opened s).predicates.Pairwise fun a b => a.stop < b.start := by
  induction h generalizing i stop opened with
  | none h =>
    rw [scan_none h]
    exact ⟨nofun, .nil⟩
  | unclosed hg hr =>
    rw [scan_unclosed hg hr]
    exact ⟨nofun, .nil⟩
  | @cons g p s ps hg hp h ih =>
    obtain ⟨after, spread⟩ := ih (i + utf8Len g + 1 + utf8Len p + 1)
      (stop <|> some (i + utf8Len g)) (i + utf8Len g + 1)
    rw [scan_predicate hg hp]
    rw [List.forall_mem_cons, List.pairwise_cons]
    refine ⟨⟨by simp only; omega, fun e he => ?_⟩, fun e he => ?_, spread⟩
    · have := after e he
      omega
    · have := after e he
      simp only
      omega

theorem Sections.after_test :
    ∀ e ∈ (scan 0 0 Option.none 0 s).predicates, utf8Len (nodeTest s) < e.start := by
  cases h with
  | none h =>
    rw [scan_none h]
    exact nofun
  | unclosed hg hr =>
    rw [scan_unclosed hg hr]
    exact nofun
  | @cons g p s ps hg hp h =>
    have after := (h.spread (utf8Len g + 1 + utf8Len p + 1) (some (utf8Len g)) (utf8Len g + 1)).1
    rw [scan_predicate hg hp, hg.nodeTest_append, List.forall_mem_cons, Nat.zero_add]
    refine ⟨Nat.lt_succ_self _, fun e he => ?_⟩
    have := after e he
    omega

theorem Sections.exists_of_mem {e : Extent} (he : e ∈ (scan i 0 stop opened s).predicates) :
    ∃ g p r, s = g ++ '[' :: (p ++ ']' :: r) ∧ depth (· == '[') (· == ']') 0 g = 0 ∧ Inner p ∧
      e = ⟨i + utf8Len g + 1, i + utf8Len g + 1 + utf8Len p⟩ := by
  induction h generalizing i stop opened with
  | none h =>
    rw [scan_none h] at he
    cases he
  | unclosed hg hr =>
    rw [scan_unclosed hg hr] at he
    cases he
  | @cons g p s ps hg hp h ih =>
    rw [scan_predicate hg hp] at he
    rcases List.mem_cons.1 he with rfl | he
    · exact ⟨g, p, s, rfl, hg.depth_eq, hp, rfl⟩
    · obtain ⟨g', p', r, rfl, hg', hp', rfl⟩ := ih _ _ _ he
      refine ⟨g ++ '[' :: (p ++ ']' :: g'), p', r, by simp, ?_, hp', ?_⟩
      · have closed : depth (· == '[') (· == ']') 1 (p ++ ']' :: g') = 0 := by
          rw [depth_append, hp.depth_eq]
          exact hg'
        rw [depth_append, hg.depth_eq]
        exact closed
      · have size : utf8Len (g ++ '[' :: (p ++ ']' :: g'))
            = utf8Len g + 1 + utf8Len p + 1 + utf8Len g' := by
          simp [String.utf8Len_append, Char.utf8Size]
          omega
        rw [size, Extent.mk.injEq]
        omega

end Sections

end Predicates

/-! ### Both passes -/

/-- How a text is cut at a separator: each part is a piece of it, together they are all of it, and
the cuts are the separators that have as many brackets closed before them as opened. -/
structure CutAt (sep : Char) (s : String) : Prop where
  slices : (extentsOutside sep s).map (Extent.slice? s)
    = (splitOutside sep s.toList).map fun p => some (.ofList p)
  joined : [sep].intercalate (splitOutside sep s.toList) = s.toList
  isCut_iff (u v : List Char) : s.toList = u ++ sep :: v →
    (IsCut sep u v ↔ u.countP isOpener = u.countP isCloser)

/-- How the predicates are told from the node test: all of them are pieces of the text, one after
another. The predicates are what stands in a pair of brackets that is in none, and the node test
is what stands before the first bracket that is in none, closed or not. -/
structure ToldApart (s : String) : Prop where
  test_slice : (testExtent s).slice? s = some (.ofList (nodeTest s.toList))
  slices : (predicateExtents s).map (Extent.slice? s)
    = (predicates s.toList).map fun p => some (.ofList p)
  disjoint : (testExtent s :: predicateExtents s).Pairwise fun a b => a.stop < b.start
  mem_iff (e : Extent) : e ∈ predicateExtents s ↔ ∃ u p v,
    s.toList = u ++ '[' :: (p ++ ']' :: v) ∧
      e = ⟨utf8Len u + 1, utf8Len u + 1 + utf8Len p⟩ ∧ u.count '[' = u.count ']' ∧
      p.count '[' = p.count ']' ∧ ∀ q r, p = q ++ r → q.count ']' ≤ q.count '['
  test : ∃ r, s.toList = nodeTest s.toList ++ r ∧
    (r = [] ∨ ∃ v, r = '[' :: v ∧ (nodeTest s.toList).count '[' = (nodeTest s.toList).count ']') ∧
      ∀ u v, nodeTest s.toList = u ++ '[' :: v → u.count '[' ≠ u.count ']'

theorem cutAt {sep : Char} (h : sep ∉ brackets) (s : String) : CutAt sep s := by
  simp only [brackets, List.mem_cons, List.not_mem_nil, or_false, not_or] at h
  have ho : isOpener sep = false := by simp [isOpener, h]
  have hc : isCloser sep = false := by simp [isCloser, h]
  constructor
  case slices =>
    have slices := slices_extentsOf sep [] (splitOutside sep s.toList)
    rw [List.nil_append, intercalate_splitOutside, String.ofList_toList] at slices
    rw [extentsOutside_eq ho hc]
    exact slices
  case joined => exact intercalate_splitOutside sep s.toList
  case isCut_iff => exact fun u v _ => Pattern.isCut_iff ho hc

theorem exists_rest (s : List Char) : ∃ r, s = nodeTest s ++ r ∧
    (r = [] ∨ ∃ v, r = '[' :: v ∧ (nodeTest s).count '[' = (nodeTest s).count ']') ∧
      ∀ u v, nodeTest s = u ++ '[' :: v → u.count '[' ≠ u.count ']' := by
  rcases exists_gap s with hs | ⟨g, r, rfl, hg⟩
  · rw [hs.nodeTest_eq]
    exact ⟨[], (List.append_nil s).symm, .inl rfl, quiet_zero_iff.1 hs⟩
  · have level := hg.depth_eq
    rw [depth_brackets] at level
    rw [hg.nodeTest_append]
    exact ⟨'[' :: r, rfl, .inr ⟨r, rfl, by omega⟩, quiet_zero_iff.1 hg.quiet⟩

theorem mem_predicateExtents {s : String} {e : Extent} : e ∈ predicateExtents s ↔ ∃ u p v,
    s.toList = u ++ '[' :: (p ++ ']' :: v) ∧
      e = ⟨utf8Len u + 1, utf8Len u + 1 + utf8Len p⟩ ∧ u.count '[' = u.count ']' ∧
      p.count '[' = p.count ']' ∧ ∀ q r, p = q ++ r → q.count ']' ≤ q.count '[' := by
  constructor
  · intro he
    obtain ⟨ps, h⟩ := exists_sections s.toList
    obtain ⟨u, p, v, hs, level, hp, rfl⟩ := h.exists_of_mem 0 none 0 he
    rw [depth_brackets] at level
    rw [Nat.zero_add]
    exact ⟨u, p, v, hs, rfl, by omega, inner_iff.1 hp⟩
  · rintro ⟨u, p, v, hs, rfl, level, hp⟩
    have found := mem_scan (g := u) (by rw [depth_brackets]; omega) (inner_iff.2 hp) 0 none 0 v
    rwa [← hs, Nat.zero_add] at found

theorem toldApart (s : String) : ToldApart s := by
  obtain ⟨ps, h⟩ := exists_sections s.toList
  obtain ⟨r, hr, -⟩ := exists_rest s.toList
  have test : testExtent s = ⟨0, utf8Len (nodeTest s.toList)⟩ := by
    rw [testExtent, ← testStop_getD, ← String.utf8ByteSize_ofList, String.ofList_toList]
  constructor
  case test_slice =>
    have slice := slice?_eq [] (nodeTest s.toList) r
    rw [List.nil_append, ← hr, String.ofList_toList, String.utf8Len_nil, Nat.zero_add] at slice
    rw [test, slice]
  case slices =>
    have slices := h.slices none 0 []
    rw [List.nil_append, String.ofList_toList] at slices
    rw [h.predicates_eq]
    exact slices
  case disjoint =>
    rw [List.pairwise_cons, test]
    exact ⟨h.after_test, (h.spread 0 none 0).2⟩
  case mem_iff => exact fun e => mem_predicateExtents
  case test => exact exists_rest s.toList

/-- Whatever brackets a text has, each of its pieces is there, between characters and in order. -/
theorem pieces_of_text (s : String) : (∀ sep ∉ brackets, CutAt sep s) ∧ ToldApart s :=
  ⟨fun _ h => cutAt h s, toldApart s⟩

/-- A bracket that closes too early and one that it takes with it, next to letters of two bytes. -/
theorem pieces_of_text_unbalanced :
    let s := "]ö[[é]ü/[/]["
    '/' ∉ brackets ∧ CutAt '/' s ∧ ToldApart s ∧
      splitOutside '/' s.toList = ["]ö[[é]ü".toList, "[/][".toList] ∧
      nodeTest s.toList = "]ö[".toList ∧ predicates s.toList = ["é".toList, "/".toList] ∧
      predicateExtents s = [⟨5, 7⟩, ⟨12, 13⟩] := by
  intro s
  have slash : '/' ∉ brackets := by decide
  obtain ⟨cut, told⟩ := pieces_of_text s
  exact ⟨slash, cut '/' slash, told, by decide, by decide, by decide, by decide⟩

end Stylesheet.Pattern
