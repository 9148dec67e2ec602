import Mathlib.Data.List.DropRight
import Stylesheet.Document.Node
import Stylesheet.Proofs.Unfolding
import Stylesheet.Report

/-! The trace of a run is the preorder of its invocations, and the depths alone give back the tree:
the nearest earlier entry one level up is the one that makes an invocation. The report, which
indents each entry by its depth, therefore shows an invocation under the one that makes it. -/

namespace Stylesheet

variable {ν : Type}

theorem Hop.segment_ne_nil (h : Hop) : h.segment ≠ [] := by
  cases h with
  | child index => exact Nat.toDigits_ne_nil
  | visit site position mode => simp [segment_visit]

namespace Key

/-- The path of a key, read off its text: what stands in the last brackets, or else all of it. -/
def pathOf (key : String) : List Char :=
  if '[' ∈ key.toList then (key.toList.rtakeWhile (· != '[')).dropLast else key.toList

def scopeOf (key : String) : Option String :=
  if '[' ∈ key.toList then some (String.ofList (key.toList.rdropWhile (· != '[')).dropLast)
  else none

theorem after_last_bracket (s : List Char) {path : List Char} (h : '[' ∉ path) :
    (s ++ '[' :: path).rtakeWhile (· != '[') = path ∧
      (s ++ '[' :: path).rdropWhile (· != '[') = s ++ ['['] := by
  have plain : ∀ c ∈ path.reverse, (c != '[') = true := by
    intro c hc
    rw [bne_iff_ne]
    rintro rfl
    exact h (List.mem_reverse.1 hc)
  have turned : (s ++ '[' :: path).reverse = path.reverse ++ '[' :: s.reverse := by simp
  constructor
  · rw [List.rtakeWhile, turned, List.takeWhile_append_of_pos plain]
    simp
  · rw [List.rdropWhile, turned, List.dropWhile_append_of_pos plain]
    simp

theorem text_eq_bracketed {k : Key} {identifier : String} (h : k.scope = some identifier) :
    k.text.toList = identifier.toList ++ '[' :: (k.path ++ [']']) := by
  simp [text, chars, h]

theorem text_eq_path {k : Key} (h : k.scope = none) : k.text.toList = k.path := by
  simp [text, chars, h]

theorem not_mem_closed (k : Key) : '[' ∉ k.path ++ [']'] := by
  simp [k.not_mem_path (.inl rfl)]

@[simp] theorem pathOf_text (k : Key) : pathOf k.text = k.path := by
  unfold pathOf
  cases h : k.scope with
  | none =>
    rw [text_eq_path h, if_neg (k.not_mem_path (.inl rfl))]
  | some identifier =>
    rw [text_eq_bracketed h, (after_last_bracket _ k.not_mem_closed).1]
    simp

@[simp] theorem scopeOf_text (k : Key) : scopeOf k.text = k.scope := by
  unfold scopeOf
  cases h : k.scope with
  | none =>
    rw [text_eq_path h, if_neg (k.not_mem_path (.inl rfl))]
  | some identifier =>
    rw [text_eq_bracketed h, (after_last_bracket _ k.not_mem_closed).2]
    simp

theorem path_descend (k : Key) (hop : Hop) (identifier : Option String) :
    (k.descend hop identifier).path = k.path ++ '/' :: hop.segment := by
  simp [path, descend, hop.text_eq]

end Key

variable [TreeNode ν]

def Step.invocation? (s : Step ν) : Option (Visit ν × TraceEntry) :=
  s.visit?.bind fun v => s.traceEntry?.map fun e => (v, e)

theorem Step.traceEntry?_eq (s : Step ν) : s.traceEntry? = s.invocation?.map Prod.snd := by
  cases s <;> rfl

theorem Step.tells_of_invocation {s : Step ν} {v : Visit ν} {e : TraceEntry}
    (h : s.invocation? = some (v, e)) : e.key = v.key.text ∧ e.depth = v.depth := by
  cases s with
  | invoke w rule fallback =>
    cases h
    exact ⟨rfl, rfl⟩
  | _ => cases h

theorem Registry.invocations_of_winner {ev : Evaluator ν} {g : Registry Body} {v : Visit ν}
    {log : List (Step ν)} {result : Except Halt (Option (Rule Body × Bool))}
    (h : ev.winner g v.node v.mode = ⟨log, result⟩) : log.filterMap Step.invocation? = [] := by
  apply List.filterMap_eq_nil_iff.2
  intro s hs
  rw [Step.invocation?, List.filterMap_eq_nil_iff.1 (visits_of_winner h) s hs]
  rfl

abbrev Invocation (ν : Type) := Visit ν × TraceEntry

/-- What the rule at work in a visit invokes, each invocation before those that it makes itself. -/
inductive Below : Visit ν → List (Invocation ν) → Prop
  | nil {w : Visit ν} : Below w []
  | cons {w : Visit ν} {hop : Hop} {mode : Mode} {node : ν} {e : TraceEntry}
      {below rest : List (Invocation ν)} : Below (w.descend hop mode node) below →
        Below w rest → Below w ((w.descend hop mode node, e) :: (below ++ rest))

/-- The last of the invocations that is less deep makes the visit. -/
def MadeIn (front : List (Invocation ν)) (v : Visit ν) : Prop :=
  ∃ before w e between hop mode node, front = before ++ (w, e) :: between ∧
    v = w.descend hop mode node ∧ ∀ x ∈ between, v.depth ≤ x.1.depth

def MadeInTurn (front : List (Invocation ν)) : List (Invocation ν) → Prop
  | [] => True
  | x :: rest => MadeIn front x.1 ∧ MadeInTurn (front ++ [x]) rest

theorem madeInTurn_append {front l m : List (Invocation ν)} :
    MadeInTurn front (l ++ m) ↔ MadeInTurn front l ∧ MadeInTurn (front ++ l) m := by
  induction l generalizing front with
  | nil => simp [MadeInTurn]
  | cons x l ih => simp [MadeInTurn, ih, and_assoc]

namespace Below

variable {w : Visit ν} {l m : List (Invocation ν)}

theorem append (hl : Below w l) (hm : Below w m) : Below w (l ++ m) := by
  induction hl with
  | nil => exact hm
  | cons below rest ihb ihr =>
    rw [List.cons_append, List.append_assoc]
    exact .cons below (ihr hm)

theorem depth_lt (h : Below w l) : ∀ x ∈ l, w.depth < x.1.depth := by
  induction h with
  | nil => exact List.forall_mem_nil _
  | @cons w hop mode node e below rest _ _ ihb ihr =>
    have step : w.depth < (w.descend hop mode node).depth := Nat.lt_succ_self _
    refine List.forall_mem_cons.2 ⟨step, List.forall_mem_append.2 ⟨?_, ihr⟩⟩
    exact fun x hx => step.trans (ihb x hx)

theorem madeInTurn (h : Below w l) (before : List (Invocation ν)) (e : TraceEntry)
    (between : List (Invocation ν)) (deep : ∀ x ∈ between, w.depth < x.1.depth) :
    MadeInTurn (before ++ (w, e) :: between) l := by
  induction h generalizing before e between with
  | nil => trivial
  | @cons w hop mode node f below rest hb _ ihb ihr =>
    have first : Below w ((w.descend hop mode node, f) :: (below ++ [])) := .cons hb .nil
    rw [List.append_nil] at first
    refine ⟨⟨before, w, e, between, hop, mode, node, rfl, rfl, deep⟩, madeInTurn_append.2 ⟨?_, ?_⟩⟩
    · exact ihb _ f [] (List.forall_mem_nil _)
    · have := ihr before e (between ++ (w.descend hop mode node, f) :: below)
        (List.forall_mem_append.2 ⟨deep, first.depth_lt⟩)
      simpa using this

end Below

namespace Registry

theorem invocations_of_visit (g : Registry Body) (ev : Evaluator ν) (policy : UnmatchedPolicy)
    (limit : Nat) (v : Visit ν) :
    (g.visit ev policy limit v).log.filterMap Step.invocation? = [] ∨
      ∃ e below, (g.visit ev policy limit v).log.filterMap Step.invocation? = (v, e) :: below ∧
        Below v below := by
  refine visit_induction
    (P := fun _ v log => log.filterMap Step.invocation? = [] ∨
      ∃ e below, log.filterMap Step.invocation? = (v, e) :: below ∧ Below v below)
    (Q := fun _ v log => Below v (log.filterMap Step.invocation?))
    ?exhausted ?failed ?unmatched ?invoked ?nil ?append ?query ?entered limit v
  case exhausted => exact fun v => .inl rfl
  case failed => exact fun h => .inl (invocations_of_winner h)
  case unmatched =>
    intro limit v log h
    rw [List.filterMap_append, invocations_of_winner h]
    exact .inl rfl
  case invoked =>
    intro limit v log rule fallback below h _ hb
    rw [List.filterMap_append, invocations_of_winner h]
    exact .inr ⟨_, _, rfl, hb⟩
  case nil => exact .nil
  case append =>
    intro limit v l m hl hm
    rw [List.filterMap_append]
    exact hl.append hm
  case query => exact fun path => .nil
  case entered =>
    intro limit v hop mode node h
    cases h with
    | inl h =>
      rw [h]
      exact .nil
    | inr h =>
      obtain ⟨e, below, h, hb⟩ := h
      have := Below.cons (e := e) hb (.nil (w := v))
      rwa [List.append_nil, ← h] at this

end Registry

/-- The rule at work of `e` makes the visit of `f`, whose key goes on from its key by one hop. -/
structure TraceEntry.Makes (log : List (Step ν)) (e f : TraceEntry) : Prop where
  depth : f.depth = e.depth + 1
  path : ∃ segment, segment ≠ [] ∧ '/' ∉ segment ∧
    Key.pathOf f.key = Key.pathOf e.key ++ '/' :: segment
  visit : ∃ w hop mode node, (w, e) ∈ log.filterMap Step.invocation? ∧
    (w.descend hop mode node, f) ∈ log.filterMap Step.invocation? ∧
    Key.scopeOf f.key = (TreeNode.identifier node).orElse fun _ => Key.scopeOf e.key

/-- The entries stand in the order of a tree, each after the one that makes it and what that one has
made before. -/
structure IsPreorder (root : Visit ν) (log : List (Step ν)) (trace : List TraceEntry) : Prop where
  first : ∀ e rest, trace = e :: rest →
    (root, e) ∈ log.filterMap Step.invocation? ∧ e.depth = 0 ∧ Key.pathOf e.key = ['#']
  descends : ∀ before e f rest, trace = before ++ e :: f :: rest →
    1 ≤ f.depth ∧ f.depth ≤ e.depth + 1
  maker : ∀ front f rest, trace = front ++ f :: rest → front ≠ [] →
    ∃ before e between, front = before ++ e :: between ∧ e.Makes log f ∧
      ∀ x ∈ between, f.depth ≤ x.depth

theorem TraceEntry.makes_of_mem {log : List (Step ν)} {w : Visit ν} {e f : TraceEntry} {hop : Hop}
    {mode : Mode} {node : ν} (he : (w, e) ∈ log.filterMap Step.invocation?)
    (hf : (w.descend hop mode node, f) ∈ log.filterMap Step.invocation?) : e.Makes log f := by
  obtain ⟨s, -, hs⟩ := List.mem_filterMap.1 he
  obtain ⟨t, -, ht⟩ := List.mem_filterMap.1 hf
  obtain ⟨ekey, edepth⟩ := Step.tells_of_invocation hs
  obtain ⟨fkey, fdepth⟩ := Step.tells_of_invocation ht
  refine ⟨?_, ⟨_, hop.segment_ne_nil, hop.not_mem_segment rfl, ?_⟩,
    ⟨w, hop, mode, node, he, hf, ?_⟩⟩
  · rw [fdepth, edepth]
    rfl
  · rw [fkey, ekey, Key.pathOf_text, Key.pathOf_text]
    exact w.key.path_descend hop _
  · rw [fkey, ekey, Key.scopeOf_text, Key.scopeOf_text]
    rfl

theorem filterMap_traceEntry_eq (log : List (Step ν)) :
    log.filterMap Step.traceEntry? = (log.filterMap Step.invocation?).map Prod.snd := by
  rw [List.map_filterMap]
  exact List.filterMap_congr fun s _ => s.traceEntry?_eq

section

variable {root : Visit ν} {log : List (Step ν)} {e : TraceEntry} {below : List (Invocation ν)}
  (h : log.filterMap Step.invocation? = (root, e) :: below) (hb : Below root below)

include h hb

theorem exists_maker {front rest : List TraceEntry} {f : TraceEntry}
    (hf : log.filterMap Step.traceEntry? = front ++ f :: rest) (hne : front ≠ []) :
    ∃ before e between, front = before ++ e :: between ∧ e.Makes log f ∧
      ∀ x ∈ between, f.depth ≤ x.depth := by
  rw [filterMap_traceEntry_eq] at hf
  obtain ⟨front, last, hi, rfl, hl⟩ := List.map_eq_append_iff.1 hf
  obtain ⟨⟨v, f⟩, rest, rfl, rfl, rfl⟩ := List.map_eq_cons_iff.1 hl
  have made : MadeIn front v := by
    cases front with
    | nil => exact absurd rfl hne
    | cons x front =>
      rw [h] at hi
      obtain ⟨rfl, rfl⟩ := List.cons.inj hi
      have := hb.madeInTurn [] e [] (List.forall_mem_nil _)
      exact (madeInTurn_append.1 this).2.1
  obtain ⟨before, w, d, between, hop, mode, node, rfl, rfl, deep⟩ := made
  have mem : ∀ x ∈ before ++ (w, d) :: between, x ∈ log.filterMap Step.invocation? := by
    rw [hi]
    exact fun x hx => List.mem_append_left _ hx
  have depth {x : Invocation ν} (hx : x ∈ log.filterMap Step.invocation?) :
      x.2.depth = x.1.depth :=
    let ⟨s, _, hs⟩ := List.mem_filterMap.1 hx
    (Step.tells_of_invocation hs).2
  have hf : (w.descend hop mode node, f) ∈ log.filterMap Step.invocation? := by
    rw [hi]
    exact List.mem_append_right _ List.mem_cons_self
  refine ⟨before.map Prod.snd, d, between.map Prod.snd, by simp, ?_, ?_⟩
  · exact TraceEntry.makes_of_mem (mem (w, d) (by simp)) hf
  · intro y hy
    obtain ⟨x, hx, rfl⟩ := List.mem_map.1 hy
    have hm := mem x (List.mem_append_right _ (List.mem_cons_of_mem _ hx))
    calc f.depth
        = (w.descend hop mode node).depth := depth hf
      _ ≤ x.1.depth := deep x hx
      _ = x.2.depth := (depth hm).symm

theorem isPreorder_of_below (hops : root.key.hops = []) (depth : root.depth = 0) :
    IsPreorder root log (log.filterMap Step.traceEntry?) where
  first := by
    intro f rest hf
    rw [filterMap_traceEntry_eq, h] at hf
    obtain ⟨rfl, -⟩ := List.cons.inj hf
    have mem : (root, e) ∈ log.filterMap Step.invocation? := by
      rw [h]
      exact List.mem_cons_self
    obtain ⟨s, -, hs⟩ := List.mem_filterMap.1 mem
    obtain ⟨key, deep⟩ := Step.tells_of_invocation hs
    refine ⟨mem, deep.trans depth, ?_⟩
    show Key.pathOf e.key = _
    rw [key, Key.pathOf_text, Key.path, hops]
    rfl
  descends := by
    intro before e f rest hf
    rw [List.append_cons] at hf
    obtain ⟨before', d, between, hd, made, deep⟩ := exists_maker h hb hf (by simp)
    have he : e ∈ d :: between := by
      have last := congrArg List.getLast? hd
      rw [List.getLast?_concat, List.getLast?_append_cons] at last
      exact List.mem_of_getLast? last.symm
    have hdepth := made.depth
    refine ⟨by omega, ?_⟩
    cases he with
    | head => exact Nat.le_of_eq hdepth
    | tail _ he => exact Nat.le_succ_of_le (deep e he)
  maker front f rest hf hne := exists_maker h hb hf hne

end

theorem isPreorder_nil (root : Visit ν) (log : List (Step ν)) : IsPreorder root log [] where
  first e rest h := by cases h
  descends before e f rest h := by simp at h
  maker front f rest h := by simp at h

namespace Report

def line (color : Bool) (e : TraceEntry) : String :=
  String.join ((entry e).map (Span.render color))

theorem line_eq (color : Bool) (e : TraceEntry) : ∃ rest,
    line color e = indent e.depth ++ Span.render color ⟨[.bold, .cyan], e.key⟩ ++ rest := by
  have plain (text : String) : Span.render color (.plain text) = text := by
    cases color <;> rfl
  refine ⟨String.join (((entry e).drop 2).map (Span.render color)), ?_⟩
  rw [line, entry, List.map_cons, List.map_cons, String.join_cons, String.join_cons, plain,
    String.append_assoc]
  rfl

theorem join_entries (color : Bool) (entries : List TraceEntry) :
    String.join ((entries.flatMap entry).map (Span.render color))
      = String.join (entries.map (line color)) := by
  induction entries with
  | nil => rfl
  | cons e entries ih =>
    rw [List.flatMap_cons, List.map_append, String.join_append, ih, List.map_cons,
      String.join_cons]
    rfl

theorem exists_report_eq (s : Summary) (total : Duration) (color : Bool) : ∃ top bottom,
    s.report total color = top ++ String.join (s.trace.map (line color)) ++ bottom := by
  have middle : ∃ top, String.join ((trace s.trace).map (Span.render color))
      = top ++ String.join (s.trace.map (line color)) := by
    rw [trace]
    split
    next h =>
      rw [h]
      exact ⟨"", rfl⟩
    next =>
      rw [List.map_append, String.join_append, join_entries]
      exact ⟨_, rfl⟩
  obtain ⟨top, middle⟩ := middle
  refine ⟨String.join ((counts s).map (Span.render color)) ++ top,
    String.join ((timing total).map (Span.render color)), ?_⟩
  rw [Summary.report, spans, List.map_append, List.map_append, String.join_append,
    String.join_append, middle, String.append_assoc, String.append_assoc, String.append_assoc,
    String.append_assoc]

end Report

/-- The entries of the trace stand in the order of the tree that the invocations make, and so do the
lines of the report, indented by the depths. -/
theorem Registry.trace_isPreorder {g : Registry Body} {ev : Evaluator ν} {root : ν}
    {options : Options} {limit : Nat} {output : Option String} {s : Summary}
    (traced : options.trace = true)
    (h : renderDetailed g ev root options limit = .ok (output, s)) :
    IsPreorder (.root root options.mode) (g.run ev root options limit).log s.trace ∧
      ∀ total color, ∃ top bottom,
        s.report total color = top ++ String.join (s.trace.map (Report.line color)) ++ bottom ∧
        ∀ e ∈ s.trace, ∃ rest, Report.line color e
          = Report.indent e.depth ++ Span.render color ⟨[.bold, .cyan], e.key⟩ ++ rest := by
  have trace : s.trace = (g.run ev root options limit).log.filterMap Step.traceEntry? := by
    cases hr : (g.run ev root options limit).result with
    | error e =>
      rw [renderDetailed, hr] at h
      cases h
    | ok found =>
      rw [renderDetailed, hr, traced] at h
      cases h
      rfl
  constructor
  · rw [trace]
    rcases g.invocations_of_visit ev options.unmatched limit (.root root options.mode)
      with hi | ⟨e, below, hi, hb⟩
    · rw [filterMap_traceEntry_eq, run, hi]
      exact isPreorder_nil ..
    · exact isPreorder_of_below hi hb rfl rfl
  · intro total color
    obtain ⟨top, bottom, hs⟩ := Report.exists_report_eq s total color
    exact ⟨top, bottom, hs, fun e _ => Report.line_eq color e⟩

/-- A list in a list beside a text that no rule matches, entered by a body that fails late and is
recovered from, and then once more: the depths go up and down again. -/
theorem Registry.trace_isPreorder_lists :
    let d := Document.empty.append Document.empty.root (.element "list" [("id", "a[")])
    let d := d.append ⟨1, by decide⟩ (.text "x")
    let d := d.append ⟨1, by decide⟩ (.element "list" [])
    let late : Body := .seq (.traverse none (.enter ⟨"m"⟩) .count) (.fail "late")
    let start : Registration Body :=
      ⟨.default, "/", .seq (.attempt late) (.traverse none .keep .count)⟩
    let list : Registration Body := ⟨.default, "list", .traverse none .keep .count⟩
    let ev : Evaluator d.Node :=
      .ofTables [("/", .nodes [d.root]), ("list", .nodes [⟨1, by decide⟩, ⟨3, by decide⟩])] []
    let run := (ofList [start, list]).run ev d.root { trace := true } 5
    let s := run.summary true
    renderDetailed (ofList [start, list]) ev d.root { trace := true } 5
        = .ok (some "!rule failed: late!1", s) ∧
      s.trace.map (fun e => (e.depth, e.key)) = [(0, "#"), (1, "a[[#/0.0@m]"),
        (2, "a[[#/0.0@m/0.1@m]"), (1, "a[[#/0]"), (2, "a[[#/0/1]")] ∧
      IsPreorder (.root d.root .default) run.log s.trace := by
  intro d₁ d₂ d late start list ev run s
  have result : run.result = .ok (some "!rule failed: late!1") := by decide +kernel
  have h : renderDetailed (ofList [start, list]) ev d.root { trace := true } 5
      = .ok (some "!rule failed: late!1", s) := by
    show run.result.map _ = _
    rw [result]
    rfl
  exact ⟨h, by decide +kernel, (trace_isPreorder rfl h).1⟩

end Stylesheet
