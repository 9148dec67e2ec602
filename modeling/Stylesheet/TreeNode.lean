import Stylesheet.Text.Quoted

namespace Stylesheet

inductive NodeKind
  | document
  | element
  | text
  | comment
  | processingInstruction
  deriving DecidableEq

def NodeKind.name : NodeKind → String
  | document => "document"
  | element => "element"
  | text => "text"
  | comment => "comment"
  | processingInstruction => "processing-instruction"

class TreeNode (ν : Type) where
  number : ν → Nat
  kind : ν → NodeKind
  name : ν → Option String
  value : ν → Option String
  attr : ν → String → Option String
  children : ν → List ν

namespace TreeNode

variable {ν : Type} [TreeNode ν]

def identifier (n : ν) : Option String :=
  (attr n "id").orElse fun _ => attr n "xml:id"

def label (n : ν) : String :=
  let name := (name n).getD ""
  match kind n with
  | .element => s!"<{name}>#{number n}"
  | .processingInstruction => s!"<?{name}?>#{number n}"
  | k => s!"{k.name}#{number n}"

end TreeNode

end Stylesheet
