import Stylesheet.Run

namespace Stylesheet.Evaluator

variable {ν β : Type}

def ask (ev : Evaluator ν) (pattern : String) (node : ν) : Run ν Bool :=
  .ofReply (.accepts pattern node) (ev.accepts pattern node)

def query (ev : Evaluator ν) (path : String) (context : ν) : Run ν (List ν) :=
  .ofReply (.select path context) (ev.select path context)

/-- Tries every rule; the first that matches counts. -/
def firstMatch (ev : Evaluator ν) (node : ν) : List (Rule β) → Run ν (Option (Rule β))
  | [] => pure none
  | r :: rest => do
    let matched ← ev.ask r.head.pattern node
    let later ← firstMatch ev node rest
    return if matched then some r else later

/-- The rule for a node, and whether it had to be found in the default mode instead. -/
def winner (ev : Evaluator ν) (g : Registry β) (node : ν) (mode : Mode) :
    Run ν (Option (Rule β × Bool)) := do
  match ← ev.firstMatch node (g.ranked mode) with
  | some r => return some (r, false)
  | none =>
    if mode.isDefault then return none
    else
      Run.note (.fallBack mode)
      return (← ev.firstMatch node (g.ranked .default)).map (·, true)

end Stylesheet.Evaluator
