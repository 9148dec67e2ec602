import Stylesheet.Mode

/-! Rule bodies, which print text and send the traversal on. -/

namespace Stylesheet

inductive Field
  | key
  | mode
  | depth
  | kind
  | name
  | value
  | identifier
  | number
  | renderer
  deriving DecidableEq

/-- What becomes of the outputs of a traversal. -/
inductive Gather
  | join (separator : String)
  | count
  deriving DecidableEq

def Gather.text (outputs : List String) : Gather → String
  | join separator => separator.intercalate outputs
  | count => toString outputs.length

/-- `attempt` prints a failure of its body in place of all output of the body; `within` skips its
body from the given depth on. -/
inductive Body
  | skip
  | lit (text : String)
  | field (f : Field)
  | attr (name : String)
  | traverse (query : Option String) (next : NextMode) (gather : Gather)
  | attempt (body : Body)
  | fail (message : String)
  | within (depth : Nat) (body : Body)
  | seq (first second : Body)
  deriving DecidableEq

def Body.ofList (bodies : List Body) : Body :=
  bodies.foldr seq skip

end Stylesheet
