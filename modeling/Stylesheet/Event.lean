import Stylesheet.Options
import Stylesheet.Run

/-! What a log shows of a transformation. -/

namespace Stylesheet

inductive Level
  | trace
  | debug
  | warn
  deriving DecidableEq

def Level.name : Level → String
  | trace => "TRACE"
  | debug => "DEBUG"
  | warn => "WARN"

inductive Value
  | text (s : String)
  | flag (b : Bool)
  | number (n : Nat)
  deriving DecidableEq

/-- An omission is a warning if the options say so. -/
inductive Event
  | registering (pattern : String) (mode : Mode) (specificity : Specificity) (sequence : Nat)
  | fallingBack (mode : Mode)
  | invoking (key pattern : String) (mode : Mode) (specificity : Specificity) (fallback : Bool)
  | omitting (warns : Bool) (key : String) (mode : Mode) (kind : NodeKind)
  | badPolicy (text : String)
  deriving DecidableEq

namespace Event

def level : Event → Level
  | registering .. | fallingBack _ => .trace
  | invoking .. => .debug
  | omitting warns .. => if warns then .warn else .trace
  | badPolicy _ => .warn

def message : Event → String
  | registering .. => "registering rule"
  | fallingBack _ => "no rule in mode, falling back to default mode"
  | invoking .. => "invoking rule"
  | omitting .. => "no rule matches, omitting node"
  | badPolicy text => UnmatchedPolicy.complaint text

def fields : Event → List (String × Value)
  | registering pattern mode specificity sequence =>
    [("pattern", .text pattern), ("mode", .text mode.text),
      ("specificity", .text (toString specificity)), ("sequence", .number sequence)]
  | fallingBack mode => [("mode", .text mode.text)]
  | invoking key pattern mode specificity fallback =>
    [("key", .text key), ("pattern", .text pattern), ("mode", .text mode.text),
      ("specificity", .text (toString specificity)), ("fallback", .flag fallback)]
  | omitting _ key mode kind =>
    [("key", .text key), ("mode", .text mode.text), ("kind", .text kind.name)]
  | badPolicy _ => []

def ofRule {β : Type} (r : Rule β) : Event :=
  registering r.head.pattern r.head.mode r.specificity r.sequence

variable {ν : Type} [TreeNode ν]

/-- Calls show nothing, and neither does an unmatched node that is a failure. -/
def ofStep? (policy : UnmatchedPolicy) : Step ν → Option Event
  | .call _ => none
  | .fallBack mode => some (fallingBack mode)
  | .invoke v rule fallback =>
    some (invoking v.key.text rule.pattern v.mode rule.score.specificity fallback)
  | .unmatched v =>
    match policy with
    | .ignore => some (omitting false v.key.text v.mode (TreeNode.kind v.node))
    | .warn => some (omitting true v.key.text v.mode (TreeNode.kind v.node))
    | .error => none

end Event

end Stylesheet
