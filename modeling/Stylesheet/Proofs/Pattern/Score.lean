import Stylesheet.Proofs.Pattern.Specificity
import Stylesheet.Proofs.Pattern.Sections

namespace Stylesheet

namespace Pattern

open Text

section Blanks

variable {b : List Char}

theorem bareTest_blank_append (hb : Blank b) (s : List Char) : bareTest (b ++ s) = bareTest s := by
  rw [bareTest, trim_blank_append hb]
  rfl

theorem bareTest_append_blank (s : List Char) (hb : Blank b) : bareTest (s ++ b) = bareTest s := by
  rw [bareTest, trim_append_blank s hb]
  rfl

theorem bareTest_nodeTest_blank_append (hb : Blank b) (s : List Char) :
    bareTest (nodeTest (b ++ s)) = bareTest (nodeTest s) := by
  rw [nodeTest_blank_append hb, bareTest_blank_append hb]

theorem bareTest_nodeTest_append_blank (s : List Char) (hb : Blank b) :
    bareTest (nodeTest (s ++ b)) = bareTest (nodeTest s) := by
  obtain ⟨b', hb', e⟩ := nodeTest_append_blank s hb
  rw [e, bareTest_append_blank _ hb']

end Blanks

theorem Score.ofStep_trim (s : List Char) : ofStep (trim s) = ofStep s := by
  obtain ⟨b, b', hb, hb', e⟩ := exists_trim s
  have ht : bareTest (nodeTest s) = bareTest (nodeTest (trim s)) := by
    rw [e, bareTest_nodeTest_blank_append hb, bareTest_nodeTest_append_blank _ hb', ← e]
  have hp : predicates s = predicates (trim s) := by
    rw [e, predicates_blank_append hb, predicates_append_blank _ hb', ← e]
  rw [ofStep, ofStep, ofTest, ofTest, TestClass.of, TestClass.of, ht, hp]

/-- Predicates in brackets, with blanks before, between and after them. -/
inductive Bracketed : List (List Char) → List Char → Prop
  | nil {b : List Char} (hb : Blank b) : Bracketed [] b
  | cons {q : List Char} {qs : List (List Char)} {b r : List Char} (hb : Blank b)
      (hq : Matched q) (h : Bracketed qs r) :
      Bracketed (q :: qs) (b ++ '[' :: (q ++ ']' :: r))

section Bracketed

variable {t r : List Char} {qs : List (List Char)}

theorem Unbracketed.append {u : List Char} (ht : Unbracketed t) (hu : Unbracketed u) :
    Unbracketed (t ++ u) := by
  intro c hc
  rcases List.mem_append.1 hc with hc | hc
  · exact ht c hc
  · exact hu c hc

theorem Bracketed.sections (ht : Unbracketed t) (h : Bracketed qs r) : Sections qs (t ++ r) := by
  induction h generalizing t with
  | nil hb => exact .none ((ht.append (unbracketed_of_blank hb)).quiet 0)
  | cons hb hq h ih =>
    rw [← List.append_assoc]
    exact .cons (ht.append (unbracketed_of_blank hb)).gap hq.inner (ih (t := []) nofun)

theorem bareTest_bracketed (ht : Unbracketed t) (h : Bracketed qs r) :
    bareTest (nodeTest (t ++ r)) = bareTest t := by
  cases h with
  | nil hb =>
    rw [((ht.append (unbracketed_of_blank hb)).quiet 0).nodeTest_eq, bareTest_append_blank t hb]
  | cons hb hq h =>
    rw [← List.append_assoc, (ht.append (unbracketed_of_blank hb)).gap.nodeTest_append,
      bareTest_append_blank t hb]

theorem Score.ofStep_bracketed (ht : Unbracketed t) (h : Bracketed qs r) :
    ofStep (t ++ r) = ofTest t + sum (qs.map ofPredicate) := by
  rw [ofStep, (h.sections ht).predicates_eq, ofTest, ofTest, TestClass.of, TestClass.of,
    bareTest_bracketed ht h]

theorem Bracketed.blank_append {b : List Char} (hb : Blank b) (h : Bracketed qs r) :
    Bracketed qs (b ++ r) := by
  cases h with
  | nil hr => exact .nil (hb.append hr)
  | cons hr hq h =>
    rw [← List.append_assoc]
    exact .cons (hb.append hr) hq h

theorem Bracketed.append {ps : List (List Char)} {s : List Char} (h : Bracketed ps s)
    (hr : Bracketed qs r) : Bracketed (ps ++ qs) (s ++ r) := by
  induction h with
  | nil hb => exact hr.blank_append hb
  | cons hb hq h ih =>
    simpa using Bracketed.cons hb hq ih

end Bracketed

namespace Score

variable {s t : List Char}

theorem ofBranch_append_cons (h : depth isOpener isCloser 0 s = 0) (t : List Char) :
    ofBranch (s ++ '/' :: t) = ofBranch s + ofBranch t := by
  rw [ofBranch, splitOutside_append_cons h rfl rfl, List.map_append, List.filter_append,
    List.map_append, sum_append]
  rfl

theorem ofBranch_of_balanced (h : Balanced isOpener isCloser (· ≠ '/') s) (hs : trim s ≠ []) :
    ofBranch s = ofStep s := by
  rw [ofBranch, splitOutside_of_balanced h]
  simp [hs, ofStep_trim]

end Score

def branchScores (s : List Char) : List Specificity :=
  (splitOutside '|' s).map fun b => (Score.ofBranch b).specificity

theorem branchScores_append_cons {s : List Char} (h : depth isOpener isCloser 0 s = 0)
    (t : List Char) : branchScores (s ++ '|' :: t) = branchScores s ++ branchScores t := by
  rw [branchScores, splitOutside_append_cons h rfl rfl, List.map_append]
  rfl

theorem branchScores_of_balanced {s : List Char} (h : Balanced isOpener isCloser (· ≠ '|') s) :
    branchScores s = [(Score.ofBranch s).specificity] := by
  rw [branchScores, splitOutside_of_balanced h]
  rfl

end Pattern

theorem Specificity.of_eq (s : String) :
    of s = Pattern.weakest (Pattern.branchScores (Pattern.stripLiterals s.toList)) := by
  rw [of, Pattern.Score.of, Pattern.Score.ofChars, List.map_map]
  rfl

end Stylesheet
