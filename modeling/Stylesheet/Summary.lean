import Stylesheet.Event
import Stylesheet.Transformation

/-! What a run tells of itself, and the ways to render a node. -/

namespace Stylesheet

/-- A rule at work. -/
structure TraceEntry where
  key : String
  pattern : String
  mode : Mode
  ruleMode : Mode
  specificity : Specificity
  features : Features
  kind : NodeKind
  depth : Nat
  deriving DecidableEq

structure Summary where
  invocations : Nat
  unmatched : Nat
  fallbacks : Nat
  maxDepth : Nat
  trace : List TraceEntry
  deriving DecidableEq

variable {ν : Type} [TreeNode ν]

namespace Step

def call? : Step ν → Option (Call ν)
  | call c => some c
  | _ => none

def traceEntry? : Step ν → Option TraceEntry
  | invoke v rule _ =>
    some ⟨v.key.text, rule.pattern, v.mode, rule.mode, rule.score.specificity, rule.score.features,
      TreeNode.kind v.node, v.depth⟩
  | _ => none

def isInvoke : Step ν → Bool
  | invoke .. => true
  | _ => false

def isFallback : Step ν → Bool
  | invoke _ _ fallback => fallback
  | _ => false

def isUnmatched : Step ν → Bool
  | unmatched _ => true
  | _ => false

/-- The depth of an invocation; other steps count as the root. -/
def depth : Step ν → Nat
  | invoke v .. => v.depth
  | _ => 0

end Step

namespace Run

variable {α : Type}

def calls (r : Run ν α) : List (Call ν) := r.log.filterMap Step.call?

def events (r : Run ν α) (policy : UnmatchedPolicy) : List Event :=
  r.log.filterMap (Event.ofStep? policy)

def summary (r : Run ν α) (trace : Bool) : Summary where
  invocations := r.log.countP Step.isInvoke
  unmatched := r.log.countP Step.isUnmatched
  fallbacks := r.log.countP Step.isFallback
  maxDepth := (r.log.map Step.depth).foldl max 0
  trace := if trace then r.log.filterMap Step.traceEntry? else []

end Run

/-- The output, `none` if no rule matches the root, and a summary of the run. -/
def renderDetailed (g : Registry Body) (ev : Evaluator ν) (root : ν) (options : Options)
    (limit : Nat) : Except Halt (Option String × Summary) :=
  let r := g.run ev root options limit
  r.result.map fun output => (output, r.summary options.trace)

def renderUsing (g : Registry Body) (ev : Evaluator ν) (root : ν) (options : Options)
    (limit : Nat) : Except Halt (Option String) :=
  (g.run ev root options limit).result

def render (g : Registry Body) (ev : Evaluator ν) (root : ν) (limit : Nat) :
    Except Halt (Option String) :=
  renderUsing g ev root {} limit

end Stylesheet
