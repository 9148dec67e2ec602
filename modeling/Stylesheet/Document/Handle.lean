import Stylesheet.Document.Basic

/-! Nodes of several documents side by side. -/

namespace Stylesheet

/-- A copy of a document is a document of its own, with a label of its own. -/
structure Handle where
  document : Nat
  node : Nat
  deriving DecidableEq

def Document.Node.handle {d : Document} (n : d.Node) (document : Nat) : Handle := ⟨document, n.val⟩

end Stylesheet
