/-! The language of patterns and paths, as a transformation uses it. -/

namespace Stylesheet

structure EvaluationError where
  expression : String
  message : String
  deriving DecidableEq

def EvaluationError.text (e : EvaluationError) : String :=
  s!"cannot evaluate `{e.expression}`: {e.message}"

structure Evaluator (ν : Type) where
  accepts (pattern : String) (node : ν) : Except EvaluationError Bool
  select (path : String) (context : ν) : Except EvaluationError (List ν)

/-- What a table answers for an expression. -/
inductive Answer (ν : Type)
  | nodes (ns : List ν)
  | all
  | fail (message : String)

/-- Looks the expression up; the first entry counts, and a missing one stands for no nodes. -/
def Evaluator.ofTables {ν : Type} [DecidableEq ν] (patterns paths : List (String × Answer ν)) :
    Evaluator ν where
  accepts pattern node :=
    match patterns.lookup pattern with
    | some (.nodes ns) => .ok (ns.contains node)
    | some .all => .ok true
    | some (.fail message) => .error ⟨pattern, message⟩
    | none => .ok false
  select path _ :=
    match paths.lookup path with
    | some (.nodes ns) => .ok ns
    | some .all | none => .ok []
    | some (.fail message) => .error ⟨path, message⟩

end Stylesheet
