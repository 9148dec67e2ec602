import Stylesheet.Mode

/-! Keys of visits. A key holds the way from the root of the traversal, hop by hop, and the
identifier that is nearest on this way. -/

namespace Stylesheet

/-- From one visit to the next: to a child by its index, or to a node by the call that selected it,
its position there, and the mode. -/
inductive Hop
  | child (index : Nat)
  | visit (site position : Nat) (mode : Mode)
  deriving DecidableEq

structure Key where
  hops : List Hop
  scope : Option String
  deriving DecidableEq

/-- Hides the characters that divide a path. -/
def escapeMode (c : Char) : List Char :=
  match c with
  | '%' => ['%', '2', '5']
  | '/' => ['%', '2', 'F']
  | '[' => ['%', '5', 'B']
  | ']' => ['%', '5', 'D']
  | c => [c]

def Hop.text : Hop → List Char
  | child index => '/' :: Nat.toDigits 10 index
  | visit site position mode =>
    '/' :: Nat.toDigits 10 site ++ '.' :: Nat.toDigits 10 position
      ++ if mode.isDefault then [] else '@' :: mode.name.toList.flatMap escapeMode

namespace Key

def root (identifier : Option String) : Key := ⟨[], identifier⟩

def descend (k : Key) (hop : Hop) (identifier : Option String) : Key :=
  ⟨k.hops ++ [hop], identifier.orElse fun _ => k.scope⟩

def path (k : Key) : List Char :=
  '#' :: k.hops.flatMap Hop.text

def chars (k : Key) : List Char :=
  match k.scope with
  | none => k.path
  | some identifier => identifier.toList ++ '[' :: k.path ++ [']']

def text (k : Key) : String := String.ofList k.chars

end Key

end Stylesheet
