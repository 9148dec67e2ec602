import Stylesheet.Text.Quoted

/-! Modes, each with rules of its own. -/

namespace Stylesheet

/-- A mode is its name. The empty name is that of the default mode, so that no named mode has it. -/
structure Mode where
  name : String
  deriving DecidableEq

namespace Mode

def default : Mode := ⟨""⟩

def isDefault (m : Mode) : Bool := m == default

def name? (m : Mode) : Option String := if m.isDefault then none else some m.name

def text (m : Mode) : String := if m.isDefault then "#default" else m.name

def label (m : Mode) : String :=
  if m.isDefault then "Default" else s!"Named({Text.quoted m.name})"

end Mode

/-- The mode to go on in, seen from the mode of the rule that sends the traversal on. -/
inductive NextMode
  | keep
  | reset
  | enter (mode : Mode)
  deriving DecidableEq

def NextMode.after (current : Mode) : NextMode → Mode
  | keep => current
  | reset => .default
  | enter mode => mode

end Stylesheet
