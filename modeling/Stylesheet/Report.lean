import Stylesheet.Duration
import Stylesheet.Summary

/-! The summary of a run as text for a terminal. -/

namespace Stylesheet

inductive Style
  | bold
  | dim
  | green
  | yellow
  | blue
  | magenta
  | cyan
  | gray
  deriving DecidableEq

def Style.code : Style → Nat
  | bold => 1
  | dim => 2
  | green => 32
  | yellow => 33
  | blue => 34
  | magenta => 35
  | cyan => 36
  | gray => 90

/-- Text in styles, the outermost first. -/
structure Span where
  styles : List Style
  text : String
  deriving DecidableEq

namespace Span

def plain (text : String) : Span := ⟨[], text⟩

def escape (code : Nat) : String := "\x1b[" ++ toString code ++ "m"

def styled : List Style → String → String
  | [], text => text
  | s :: rest, text => escape s.code ++ styled rest text ++ escape 0

def render (color : Bool) (s : Span) : String :=
  if color then styled s.styles s.text else s.text

end Span

namespace Report

def heading (title : String) : Span := ⟨[.gray], "━━━ " ++ title ++ " ━━━"⟩

def count (n : Nat) : Span := ⟨[if n = 0 then .dim else .yellow], toString n⟩

def modes (e : TraceEntry) : Span :=
  if e.mode = e.ruleMode then ⟨[.dim], "[" ++ e.mode.text ++ "]"⟩
  else ⟨[.yellow], "[" ++ e.mode.text ++ " -> " ++ e.ruleMode.text ++ "]"⟩

def featureNames (f : Features) : String :=
  if f = .empty then "-" else "|".intercalate (f.toList.map Feature.name)

def indent (depth : Nat) : String :=
  String.ofList (List.replicate (2 * depth + 2) ' ')

def entry (e : TraceEntry) : List Span :=
  [.plain (indent e.depth), ⟨[.bold, .cyan], e.key⟩, .plain " ", ⟨[.blue], e.pattern⟩, .plain " ",
    ⟨[.magenta], toString e.specificity⟩, .plain " ", modes e, .plain " ",
    ⟨[.dim], e.kind.name⟩, .plain " ", ⟨[.gray], featureNames e.features⟩, .plain "\n"]

def counts (d : Summary) : List Span :=
  [heading "Summary", .plain "\n  Invocations: ", ⟨[.green], toString d.invocations⟩,
    .plain "  │  Unmatched: ", count d.unmatched, .plain "  │  Fallbacks: ", count d.fallbacks,
    .plain "  │  Max depth: ", ⟨[.blue], toString d.maxDepth⟩, .plain "\n"]

def trace (entries : List TraceEntry) : List Span :=
  if entries = [] then []
  else [.plain "\n", heading "Trace", .plain "\n"] ++ entries.flatMap entry

def timing (total : Duration) : List Span :=
  [.plain "\n", heading "Timing", .plain "\n  Total: ", ⟨[.green], total.text⟩, .plain "\n"]

def spans (d : Summary) (total : Duration) : List Span :=
  counts d ++ trace d.trace ++ timing total

end Report

def Summary.report (d : Summary) (total : Duration) (color : Bool) : String :=
  String.join ((Report.spans d total).map (Span.render color))

end Stylesheet
