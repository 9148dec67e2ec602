/-! Sets of characters given as closed ranges of code points. -/

namespace Stylesheet.Text

abbrev Ranges := List (Nat × Nat)

def Ranges.contains (r : Ranges) (c : Char) : Bool :=
  r.any fun (low, high) => low ≤ c.toNat && c.toNat ≤ high

end Stylesheet.Text
