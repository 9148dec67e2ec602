import Stylesheet.Mode
import Stylesheet.Pattern.Score

/-! Rules by mode, ranked as they come in. -/

namespace Stylesheet

/-- What can be told of a rule without its body. -/
structure RuleHead where
  pattern : String
  mode : Mode
  score : Pattern.Score
  deriving DecidableEq

/-- The sequence number counts the rules of all modes that came before. -/
structure Rule (β : Type) where
  head : RuleHead
  sequence : Nat
  body : β

variable {β : Type}

def Rule.specificity (r : Rule β) : Specificity := r.head.score.specificity

/-- The more specific rule comes first, and of equals the later one. -/
def Rule.outranks (a b : Rule β) : Bool :=
  b.specificity < a.specificity || (a.specificity == b.specificity && b.sequence < a.sequence)

def insertRanked (r : Rule β) : List (Rule β) → List (Rule β)
  | [] => [r]
  | s :: rest => if s.outranks r then s :: insertRanked r rest else r :: s :: rest

/-- The rules of one mode, as they came and by rank. -/
structure Shelf (β : Type) where
  arrivals : Array (Rule β)
  ranked : List (Rule β)

namespace Shelf

def empty : Shelf β := ⟨#[], []⟩

def insert (s : Shelf β) (r : Rule β) : Shelf β :=
  ⟨s.arrivals.push r, insertRanked r s.ranked⟩

end Shelf

structure Registration (β : Type) where
  mode : Mode
  pattern : String
  body : β

/-- The default mode has the first shelf; the others follow by name once they have a rule. -/
structure Registry (β : Type) where
  shelves : List (Mode × Shelf β)
  registered : Nat

namespace Registry

def empty : Registry β := ⟨[(.default, .empty)], 0⟩

def place (r : Rule β) : List (Mode × Shelf β) → List (Mode × Shelf β)
  | [] => [(r.head.mode, Shelf.empty.insert r)]
  | (m, s) :: rest =>
    if r.head.mode = m then (m, s.insert r) :: rest
    else if r.head.mode.name < m.name then
      (r.head.mode, Shelf.empty.insert r) :: (m, s) :: rest
    else (m, s) :: place r rest

def nextRule (g : Registry β) (r : Registration β) : Rule β :=
  ⟨⟨r.pattern, r.mode, .of r.pattern⟩, g.registered, r.body⟩

def register (g : Registry β) (r : Registration β) : Registry β :=
  ⟨place (g.nextRule r) g.shelves, g.registered + 1⟩

def ofList (history : List (Registration β)) : Registry β :=
  history.foldl register empty

def shelf (g : Registry β) (m : Mode) : Shelf β :=
  (g.shelves.lookup m).getD .empty

/-- The rules of a mode in the order of registration. -/
def rules (g : Registry β) (m : Mode) : List (Rule β) :=
  (g.shelf m).arrivals.toList

/-- The rules of a mode by rank. -/
def ranked (g : Registry β) (m : Mode) : List (Rule β) :=
  (g.shelf m).ranked

def modes (g : Registry β) : List Mode :=
  g.shelves.map Prod.fst

def size (g : Registry β) : Nat :=
  g.shelves.foldr (fun e n => e.2.arrivals.size + n) 0

def isEmpty (g : Registry β) : Bool :=
  g.size == 0

end Registry

end Stylesheet
