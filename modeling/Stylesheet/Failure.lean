import Stylesheet.Evaluator
import Stylesheet.Mode
import Stylesheet.TreeNode

namespace Stylesheet

inductive Failure
  | evaluation (e : EvaluationError)
  | rule (message : String)
  | unmatched (key : String) (mode : Mode) (kind : NodeKind)
  deriving DecidableEq

namespace Failure

def text : Failure → String
  | evaluation e => e.text
  | rule message => s!"rule failed: {message}"
  | unmatched key mode kind => s!"no rule matches {kind.name} node `{key}` in mode {mode.text}"

/-- The message of the cause, where there is one behind the failure. -/
def source? : Failure → Option String
  | rule message => some message
  | _ => none

end Failure

end Stylesheet
