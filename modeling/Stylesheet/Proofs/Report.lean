import Mathlib.Data.List.Count
import Stylesheet.Proofs.Preorder

namespace Stylesheet

namespace Report

/-! ### Escape sequences -/

/-- What follows an opening bracket, digits and the letter that ends the sequence. -/
def afterSequence? : List Char → Option (List Char)
  | '[' :: rest =>
    match rest.dropWhile Char.isDigit with
    | 'm' :: after => if rest.takeWhile Char.isDigit = [] then none else some after
    | _ => none
  | _ => none

theorem afterSequence?_length {s after : List Char} (h : afterSequence? s = some after) :
    after.length < s.length := by
  unfold afterSequence? at h
  split at h
  next rest =>
    split at h
    next r e =>
      have length := (List.dropWhile_sublist (l := rest) Char.isDigit).length_le
      split at h
      · cases h
      · cases h
        rw [e, List.length_cons] at length
        exact Nat.lt_succ_of_le (Nat.le_of_succ_le length)
    next => cases h
  next => cases h

def withoutColour (s : List Char) : List Char :=
  match s with
  | [] => []
  | c :: rest =>
    match _h : (if c = '\x1b' then afterSequence? rest else none) with
    | some after => withoutColour after
    | none => c :: withoutColour rest
termination_by s.length
decreasing_by
  · split at _h
    · exact Nat.lt_succ_of_lt (afterSequence?_length _h)
    · cases _h
  · exact Nat.lt_succ_self _

theorem withoutColour_append {u : List Char} (h : '\x1b' ∉ u) (s : List Char) :
    withoutColour (u ++ s) = u ++ withoutColour s := by
  induction u with
  | nil => rfl
  | cons c u ih =>
    obtain ⟨hc, hu⟩ := not_or.1 (mt List.mem_cons.2 h)
    rw [List.cons_append, withoutColour, if_neg (Ne.symm hc), ih hu]
    rfl

theorem toList_escape (code : Nat) :
    (Span.escape code).toList = '\x1b' :: '[' :: (Nat.toDigits 10 code ++ ['m']) := by
  rw [Span.escape, String.toList_append, String.toList_append, Nat.toString_eq_ofList_toDigits,
    String.toList_ofList (l := Nat.toDigits 10 code), List.append_assoc]
  rfl

theorem withoutColour_escape (code : Nat) (s : List Char) :
    withoutColour ((Span.escape code).toList ++ s) = withoutColour s := by
  have digits : ∀ c ∈ Nat.toDigits 10 code, c.isDigit = true :=
    fun c hc => Nat.isDigit_of_mem_toDigits (by decide) (by decide) hc
  have after : afterSequence? ('[' :: (Nat.toDigits 10 code ++ 'm' :: s)) = some s := by
    have stop : ('m' :: s).dropWhile Char.isDigit = 'm' :: s := rfl
    have taken : Nat.toDigits 10 code ++ ('m' :: s).takeWhile Char.isDigit ≠ [] :=
      List.append_ne_nil_of_left_ne_nil Nat.toDigits_ne_nil _
    simp only [afterSequence?, List.dropWhile_append_of_pos digits,
      List.takeWhile_append_of_pos digits, stop, if_neg taken]
  rw [toList_escape, List.cons_append, List.cons_append, List.append_assoc, List.singleton_append,
    withoutColour, if_pos rfl, after]

theorem withoutColour_styled {text : String} (h : '\x1b' ∉ text.toList) (styles : List Style)
    (s : List Char) :
    withoutColour ((Span.styled styles text).toList ++ s) = text.toList ++ withoutColour s := by
  induction styles generalizing s with
  | nil => exact withoutColour_append h s
  | cons style styles ih =>
    rw [Span.styled, String.toList_append, String.toList_append, List.append_assoc,
      List.append_assoc, withoutColour_escape, ih, withoutColour_escape]

/-! ### The spans together -/

theorem withoutColour_spans {spans : List Span} (h : ∀ s ∈ spans, '\x1b' ∉ s.text.toList) :
    withoutColour (String.join (spans.map (Span.render true))).toList
      = (String.join (spans.map (Span.render false))).toList := by
  induction spans with
  | nil => simp [withoutColour]
  | cons s spans ih =>
    obtain ⟨hs, hspans⟩ := List.forall_mem_cons.1 h
    rw [List.map_cons, String.join_cons, String.toList_append, List.map_cons, String.join_cons,
      String.toList_append, ← ih hspans]
    exact withoutColour_styled hs s.styles _

theorem not_mem_text {c : Char} {spans : List Span}
    (h : c ∉ (String.join (spans.map (Span.render false))).toList) :
    ∀ s ∈ spans, c ∉ s.text.toList := by
  intro s hs hc
  refine h ?_
  rw [String.toList_join]
  exact List.mem_flatMap.2 ⟨_, List.mem_map_of_mem hs, hc⟩

/-! ### The lines of the plain report -/

def summaryHeading : String := "━━━ Summary ━━━"

def traceHeading : String := "━━━ Trace ━━━"

def timingHeading : String := "━━━ Timing ━━━"

def countsLine (d : Summary) : String :=
  "  │  ".intercalate ["  Invocations: " ++ toString d.invocations,
    "Unmatched: " ++ toString d.unmatched, "Fallbacks: " ++ toString d.fallbacks,
    "Max depth: " ++ toString d.maxDepth]

/-- Two blanks and two more for each level, and then what the report tells of the entry. -/
def row (e : TraceEntry) : String :=
  String.ofList (List.replicate (2 + 2 * e.depth) ' ') ++ " ".intercalate
    [e.key, e.pattern, toString e.specificity, (modes e).text, e.kind.name, featureNames e.features]

def totalLine (total : Duration) : String := "  Total: " ++ total.text

def lines (d : Summary) (total : Duration) : List String :=
  [summaryHeading, countsLine d]
    ++ (if d.trace = [] then [] else ["", traceHeading] ++ d.trace.map row)
    ++ ["", timingHeading, totalLine total]

theorem render_false (s : Span) : s.render false = s.text := rfl

theorem count_text (n : Nat) : (count n).text = toString n := rfl

theorem line_eq_row (e : TraceEntry) : line false e = row e ++ "\n" := by
  have indent : indent e.depth = String.ofList (List.replicate (2 + 2 * e.depth) ' ') := by
    rw [Report.indent, Nat.add_comm]
  simp only [line, entry, indent, row, List.map_cons, List.map_nil, String.join_cons,
    String.join_nil, String.intercalate_cons_cons, String.intercalate_singleton,
    String.append_assoc, render_false, Span.plain]
  rw [String.append_empty (s := "\n")]

theorem plain_eq_lines (d : Summary) (total : Duration) :
    d.report total false = String.join ((lines d total).map (· ++ "\n")) := by
  have top : String.join ((counts d).map (Span.render false))
      = String.join ([summaryHeading, countsLine d].map (· ++ "\n")) := by
    simp only [counts, countsLine, List.map_cons, List.map_nil, String.join_cons, String.join_nil,
      String.append_assoc, render_false, Span.plain, count_text, String.intercalate_cons_cons,
      String.intercalate_singleton]
    rfl
  have middle : String.join ((trace d.trace).map (Span.render false))
      = String.join ((if d.trace = [] then []
          else ["", traceHeading] ++ d.trace.map row).map (· ++ "\n")) := by
    rw [trace]
    split
    next => rfl
    next =>
      rw [List.map_append, String.join_append, join_entries, List.map_append, String.join_append,
        List.map_map, List.map_congr_left fun e _ => line_eq_row e]
      rfl
  have bottom : String.join ((timing total).map (Span.render false))
      = String.join (["", timingHeading, totalLine total].map (· ++ "\n")) := by
    simp only [timing, totalLine, List.map_cons, List.map_nil, String.join_cons, String.join_nil,
      String.append_assoc, render_false, Span.plain]
    rfl
  rw [Summary.report, spans, List.map_append, List.map_append, String.join_append,
    String.join_append, top, middle, bottom, lines, List.map_append, List.map_append,
    String.join_append, String.join_append]

/-! ### Control characters -/

def Lacks (c : Char) (s : String) : Prop := c ∉ s.toList

instance (c : Char) (s : String) : Decidable (Lacks c s) :=
  inferInstanceAs (Decidable (c ∉ s.toList))

end Report

structure TraceEntry.Lacks (c : Char) (e : TraceEntry) : Prop where
  key : Report.Lacks c e.key
  pattern : Report.Lacks c e.pattern
  mode : Report.Lacks c e.mode.name
  ruleMode : Report.Lacks c e.ruleMode.name

open Report in
instance (c : Char) (e : TraceEntry) : Decidable (e.Lacks c) :=
  decidable_of_iff
    (Lacks c e.key ∧ Lacks c e.pattern ∧ Lacks c e.mode.name ∧ Lacks c e.ruleMode.name)
    ⟨fun ⟨key, pattern, mode, ruleMode⟩ => ⟨key, pattern, mode, ruleMode⟩,
      fun h => ⟨h.key, h.pattern, h.mode, h.ruleMode⟩⟩

namespace Report

namespace Lacks

variable {c : Char}

theorem append {s t : String} (hs : Lacks c s) (ht : Lacks c t) : Lacks c (s ++ t) := by
  intro h
  rw [String.toList_append, List.mem_append] at h
  exact h.elim hs ht

theorem intercalate {s : String} (hs : Lacks c s) {parts : List String}
    (h : ∀ t ∈ parts, Lacks c t) : Lacks c (s.intercalate parts) := by
  induction parts with
  | nil => exact List.not_mem_nil
  | cons t parts ih =>
    obtain ⟨ht, hparts⟩ := List.forall_mem_cons.1 h
    cases parts with
    | nil => rwa [String.intercalate_singleton]
    | cons u parts =>
      rw [String.intercalate_cons_cons]
      exact (ht.append hs).append (ih hparts)

section

variable (control : c.toNat < 32)

include control

theorem of_all {s : String} (h : s.toList.all (fun x => decide (32 ≤ x.toNat)) = true) :
    Lacks c s :=
  fun hc => Nat.not_lt.2 (of_decide_eq_true (List.all_eq_true.1 h c hc)) control

theorem digits {s : List Char} (h : ∀ x ∈ s, x.isDigit = true) : Lacks c (String.ofList s) := by
  intro hc
  rw [String.toList_ofList] at hc
  have digit : 48 ≤ c.toNat := (Char.isDigit_iff_toNat.1 (h c hc)).1
  omega

theorem number (n : Nat) : Lacks c (toString n) := by
  rw [Nat.toString_eq_ofList_toDigits]
  exact digits control fun x hx => Nat.isDigit_of_mem_toDigits (by decide) (by decide) hx

theorem specificity (s : Specificity) : Lacks c (toString s) := by
  have comma : Lacks c "," := of_all control (by decide)
  have parts : toString s = "(" ++ toString s.predicates.val ++ ","
      ++ toString s.attributePredicates.val ++ "," ++ toString s.nodeTests.val ++ ","
      ++ toString s.steps.val ++ ")" := rfl
  rw [parts]
  have first : Lacks c ("(" ++ toString s.predicates.val) :=
    (of_all control (by decide)).append (number control _)
  have more {t : String} (ht : Lacks c t) (n : Nat) : Lacks c (t ++ "," ++ toString n) :=
    (ht.append comma).append (number control n)
  exact (more (more (more first _) _) _).append (of_all control (by decide))

theorem features (f : Features) : Lacks c (featureNames f) := by
  rw [featureNames]
  split
  · exact of_all control (by decide)
  · refine intercalate (of_all control (by decide)) fun t ht => ?_
    obtain ⟨g, -, rfl⟩ := List.mem_map.1 ht
    cases g <;> exact of_all control (by decide)

theorem kind (k : NodeKind) : Lacks c k.name := by
  cases k <;> exact of_all control (by decide)

theorem scaled (n places : Nat) {unit : String} (h : Lacks c unit) :
    Lacks c (Duration.scaled n places unit) := by
  have zeros : ∀ x ∈ Duration.fraction (n % Nat.pow 10 places) places, x.isDigit = true := by
    intro x hx
    simp only [Duration.fraction, List.mem_reverse] at hx
    have hx := List.mem_reverse.1 ((List.dropWhile_sublist _).subset hx)
    rcases List.mem_append.1 hx with hx | hx
    · rw [List.eq_of_mem_replicate hx]
      decide
    · exact Nat.isDigit_of_mem_toDigits (by decide) (by decide) hx
  refine ((number control _).append ?_).append h
  split
  · exact List.not_mem_nil
  · exact append (of_all control (by decide)) (digits control zeros)

theorem duration (t : Duration) : Lacks c t.text := by
  rw [Duration.text]
  split
  · exact scaled control _ _ (of_all control (by decide))
  split
  · exact scaled control _ _ (of_all control (by decide))
  split
  · exact scaled control _ _ (of_all control (by decide))
  · exact scaled control _ _ (of_all control (by decide))

theorem counts (d : Summary) : Lacks c (countsLine d) := by
  have named (title : String) (n : Nat)
      (h : title.toList.all (fun x => decide (32 ≤ x.toNat)) = true) :
      Lacks c (title ++ toString n) := (of_all control h).append (number control n)
  refine intercalate (of_all control (by decide)) ?_
  simp only [List.forall_mem_cons]
  exact ⟨named _ _ (by decide), named _ _ (by decide), named _ _ (by decide),
    named _ _ (by decide), fun _ h => absurd h List.not_mem_nil⟩

theorem mode {m : Mode} (h : Lacks c m.name) : Lacks c m.text := by
  rw [Mode.text]
  split
  · exact of_all control (by decide)
  · exact h

theorem row {e : TraceEntry} (h : e.Lacks c) : Lacks c (row e) := by
  have blank : Lacks c " " := of_all control (by decide)
  have opened : Lacks c "[" := of_all control (by decide)
  have closing : Lacks c "]" := of_all control (by decide)
  have modes : Lacks c (modes e).text := by
    rw [Report.modes]
    split
    · exact (opened.append (mode control h.mode)).append closing
    · exact (((opened.append (mode control h.mode)).append (of_all control (by decide))).append
        (mode control h.ruleMode)).append closing
  refine append (fun hc => ?_) (intercalate blank ?_)
  · rw [String.toList_ofList] at hc
    rw [List.eq_of_mem_replicate hc] at control
    exact absurd control (by decide)
  · simp only [List.forall_mem_cons]
    exact ⟨h.key, h.pattern, specificity control _, modes, kind control _, features control _,
      fun _ h => absurd h List.not_mem_nil⟩

theorem line {d : Summary} (h : ∀ e ∈ d.trace, e.Lacks c) {total : Duration} {s : String}
    (hs : s ∈ lines d total) : Lacks c s := by
  simp only [lines, List.mem_append, List.mem_cons, List.not_mem_nil, or_false] at hs
  rcases hs with ((rfl | rfl) | hs) | rfl | rfl | rfl
  · exact of_all control (by decide)
  · exact counts control d
  · split at hs
    · exact absurd hs List.not_mem_nil
    · simp only [List.mem_append, List.mem_cons, List.not_mem_nil, or_false] at hs
      rcases hs with (rfl | rfl) | hs
      · exact List.not_mem_nil
      · exact of_all control (by decide)
      · obtain ⟨e, he, rfl⟩ := List.mem_map.1 hs
        exact row control (h e he)
  · exact List.not_mem_nil
  · exact of_all control (by decide)
  · exact (of_all control (by decide)).append (duration control total)

end

end Lacks

theorem lacks_join {c : Char} (hc : c ≠ '\n') {parts : List String} (h : ∀ s ∈ parts, Lacks c s) :
    Lacks c (String.join (parts.map (· ++ "\n"))) := by
  intro hj
  rw [String.toList_join] at hj
  obtain ⟨t, ht, hct⟩ := List.mem_flatMap.1 hj
  obtain ⟨s, hs, rfl⟩ := List.mem_map.1 ht
  rw [String.toList_append, List.mem_append] at hct
  exact hct.elim (h s hs) fun hct => hc (List.mem_singleton.1 hct)

theorem splitOn_join {parts : List String} (h : ∀ s ∈ parts, Lacks '\n' s) :
    (String.join (parts.map (· ++ "\n"))).toList.splitOn '\n'
      = (parts ++ [""]).map String.toList := by
  induction parts with
  | nil => rfl
  | cons s parts ih =>
    obtain ⟨hs, hparts⟩ := List.forall_mem_cons.1 h
    have text : (String.join ((s :: parts).map (· ++ "\n"))).toList
        = s.toList ++ '\n' :: (String.join (parts.map (· ++ "\n"))).toList := by
      rw [List.map_cons, String.join_cons, String.toList_append, String.toList_append,
        List.append_assoc]
      rfl
    rw [text, List.splitOn_append_cons_self_of_not_mem hs, ih hparts]
    rfl

/-! ### The headings among the lines -/

theorem row_ne {s : String} (h : s.toList.head? ≠ some ' ') (e : TraceEntry) : row e ≠ s := by
  rintro rfl
  refine h ?_
  rw [row, String.toList_append, String.toList_ofList, Nat.add_comm, List.replicate_succ]
  rfl

theorem indented_ne {s t : String} (ht : t.toList.head? = some ' ')
    (hs : s.toList.head? ≠ some ' ') (u : String) : t ++ u ≠ s := by
  rintro rfl
  rw [String.toList_append, List.head?_append, ht] at hs
  exact hs rfl

theorem countsLine_ne {s : String} (h : s.toList.head? ≠ some ' ') (d : Summary) :
    countsLine d ≠ s := by
  rw [countsLine, String.intercalate_cons_cons, String.append_assoc, String.append_assoc]
  exact indented_ne rfl h _

theorem totalLine_ne {s : String} (h : s.toList.head? ≠ some ' ') (total : Duration) :
    totalLine total ≠ s :=
  indented_ne rfl h _

/-- A line that is not indented is a heading or empty, so an entry never looks like one. -/
theorem count_lines {s : String} (h : s.toList.head? ≠ some ' ') (d : Summary) (total : Duration) :
    (lines d total).count s = ([summaryHeading, "", timingHeading]
      ++ if d.trace = [] then [] else ["", traceHeading]).count s := by
  have rows : (d.trace.map row).count s = 0 := by
    refine List.count_eq_zero.2 fun hs => ?_
    obtain ⟨e, -, he⟩ := List.mem_map.1 hs
    exact row_ne h e he
  have counts := countsLine_ne h d
  have total := totalLine_ne h total
  rw [lines]
  split
  · simp [List.count_cons, counts, total]
  · simp [List.count_cons, counts, total, rows]
    omega

end Report

open Report in
/-- Without its escape sequences the coloured report is the plain one, and the plain one has a line
for each entry of the trace, indented by its depth, between the two headings. -/
theorem Summary.report_uncoloured {d : Summary} (total : Duration)
    (h : ∀ e ∈ d.trace, e.Lacks '\x1b') :
    withoutColour (d.report total true).toList = (d.report total false).toList ∧
      '\x1b' ∉ (d.report total false).toList ∧
      ((∀ e ∈ d.trace, e.Lacks '\n') →
        let text := (d.report total false).toList.splitOn '\n'
        text = ([summaryHeading, countsLine d]
            ++ (if d.trace = [] then [] else ["", traceHeading] ++ d.trace.map row)
            ++ ["", timingHeading, totalLine total, ""]).map String.toList ∧
          text.count traceHeading.toList = (if d.trace = [] then 0 else 1) ∧
          text.count timingHeading.toList = 1) := by
  have plain : '\x1b' ∉ (d.report total false).toList := by
    rw [plain_eq_lines]
    exact lacks_join (by decide) fun s hs => .line (by decide) h hs
  refine ⟨withoutColour_spans (not_mem_text plain), plain, fun breaks => ?_⟩
  have text : (d.report total false).toList.splitOn '\n'
      = (lines d total ++ [""]).map String.toList := by
    rw [plain_eq_lines, splitOn_join fun s hs => .line (by decide) breaks hs]
  have heading {s : String} (hs : s.toList.head? ≠ some ' ') :
      ((d.report total false).toList.splitOn '\n').count s.toList
        = ([summaryHeading, "", timingHeading]
          ++ if d.trace = [] then [] else ["", traceHeading]).count s + [""].count s := by
    rw [text, List.count_map_of_injective _ _ fun _ _ => String.toList_inj.1, List.count_append,
      count_lines hs]
  refine ⟨?_, ?_, ?_⟩
  · rw [text, lines, List.append_assoc _ _ [""]]
    rfl
  · rw [heading (by decide)]
    split <;> decide
  · rw [heading (by decide)]
    split <;> decide

open Report in
/-- Two levels, one in a mode that has no rule for it, with a duration that is no whole number. -/
theorem Summary.report_uncoloured_nested :
    let outer : TraceEntry := ⟨"#", "/", .default, .default, ⟨0, 0, 0, 1⟩, .empty, .document, 0⟩
    let inner : TraceEntry := ⟨"a [x]", "é[0]|*", ⟨"m"⟩, .default, ⟨1, 0, 2, 1⟩,
      .single .predicate ∪ .single .union, .element, 1⟩
    let d : Summary := ⟨2, 0, 1, 1, [outer, inner]⟩
    (∀ e ∈ d.trace, e.Lacks '\x1b') ∧ (∀ e ∈ d.trace, e.Lacks '\n') ∧
      row inner = "    a [x] é[0]|* (1,0,2,1) [m -> #default] element PREDICATE|UNION" ∧
      totalLine ⟨12300⟩ = "  Total: 12.3µs" ∧
      withoutColour (d.report ⟨12300⟩ true).toList = (d.report ⟨12300⟩ false).toList ∧
      (d.report ⟨12300⟩ false).toList.splitOn '\n' = [summaryHeading, countsLine d, "",
        traceHeading, row outer, row inner, "", timingHeading, totalLine ⟨12300⟩, ""].map
        String.toList := by
  intro outer inner d
  have escape : ∀ e ∈ d.trace, e.Lacks '\x1b' := by decide
  have breaks : ∀ e ∈ d.trace, e.Lacks '\n' := by decide
  obtain ⟨uncoloured, -, text⟩ := report_uncoloured ⟨12300⟩ escape
  exact ⟨escape, breaks, by decide +kernel, by decide +kernel, uncoloured, (text breaks).1⟩

end Stylesheet
