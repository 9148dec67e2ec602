import Stylesheet.Mode
import Stylesheet.Text.Blank

namespace Stylesheet

/-- What becomes of a node that no rule matches. -/
inductive UnmatchedPolicy
  | ignore
  | warn
  | error
  deriving DecidableEq

namespace UnmatchedPolicy

def name : UnmatchedPolicy → String
  | ignore => "ignore"
  | warn => "warn"
  | error => "error"

/-- Blanks around the name and the case of ASCII letters do not matter; a text that is no name comes
back in lower case. -/
def ofText (s : String) : Except String UnmatchedPolicy :=
  match String.ofList ((Text.trim s.toList).map Char.toLower) with
  | "" | "ignore" => .ok ignore
  | "warn" => .ok warn
  | "error" => .ok error
  | other => .error other

def complaint (text : String) : String :=
  s!"invalid unmatched policy '{text}' (expected ignore, warn or error)"

end UnmatchedPolicy

structure Options where
  mode : Mode := .default
  unmatched : UnmatchedPolicy := .ignore
  trace : Bool := false
  deriving DecidableEq

namespace Options

/-- Options from two settings, and the text of the policy if it is none. Any trace setting turns the
trace on. -/
def ofSettings (unmatched trace : Option String) : Options × Option String :=
  let options : Options := { trace := trace.isSome }
  match unmatched.map UnmatchedPolicy.ofText with
  | none => (options, none)
  | some (.ok policy) => ({ options with unmatched := policy }, none)
  | some (.error text) => (options, some text)

end Options

end Stylesheet
