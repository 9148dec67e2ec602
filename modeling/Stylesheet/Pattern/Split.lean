/-! Cutting a text apart outside its brackets. Brackets are counted, not matched: the depth of a
place is the number of openers before it less the number of closers, below zero if need be. -/

namespace Stylesheet.Pattern

abbrev Marked := Char × Int

/-- The depth after a character. It has no bounds; in a text of less than `2 ^ 31` characters it
fits into 32 bits. -/
def deepen (isOpener isCloser : Char → Bool) (depth : Int) (c : Char) : Int :=
  if isOpener c then depth + 1 else if isCloser c then depth - 1 else depth

/-- Each character with the depth before it. -/
def mark (isOpener isCloser : Char → Bool) (s : List Char) : List Marked :=
  s.zip (s.scanl (deepen isOpener isCloser) 0)

def unmark (s : List Marked) : List Char :=
  s.map Prod.fst

def isOpener (c : Char) : Bool := c == '[' || c == '('

def isCloser (c : Char) : Bool := c == ']' || c == ')'

/-- The parts of `s` between the separators at depth zero of brackets and parentheses. -/
def splitOutside (separator : Char) (s : List Char) : List (List Char) :=
  ((mark isOpener isCloser s).splitOnP fun m => m.1 == separator && m.2 == 0).map unmark

def markBrackets (s : List Char) : List Marked :=
  mark (· == '[') (· == ']') s

def opensPredicate (m : Marked) : Bool := m.1 == '[' && m.2 == 0

def closesPredicate (m : Marked) : Bool := m.1 == ']' && m.2 == 1

/-- The text before the first bracket that opens at depth zero. -/
def nodeTest (step : List Char) : List Char :=
  unmark ((markBrackets step).takeWhile fun m => !opensPredicate m)

/-- The texts between a bracket that opens at depth zero and the one that closes it. -/
def predicates (step : List Char) : List (List Char) :=
  ((markBrackets step).splitOnP closesPredicate).dropLast.map fun part =>
    unmark (part.dropWhile fun m => !opensPredicate m).tail

end Stylesheet.Pattern
