namespace Stylesheet

structure Duration where
  nanos : Nat
  deriving DecidableEq

namespace Duration

def ofParts (seconds nanos : Nat) : Duration := ⟨seconds * 1000000000 + nanos⟩

/-- The digits of `part`, at least so many places, without zeros at the end. -/
def fraction (part places : Nat) : List Char :=
  let digits := Nat.toDigits 10 part
  let padded := List.replicate (places - digits.length) '0' ++ digits
  (padded.reverse.dropWhile (· == '0')).reverse

/-- `n` in a unit that has so many decimal places, with a point only before digits. -/
def scaled (n places : Nat) (unit : String) : String :=
  let one := Nat.pow 10 places
  let digits := fraction (n % one) places
  toString (n / one) ++ (if digits.isEmpty then "" else "." ++ String.ofList digits) ++ unit

/-- The largest unit of which there is one at least, down to nanoseconds. -/
def text (t : Duration) : String :=
  if 1000000000 ≤ t.nanos then scaled t.nanos 9 "s"
  else if 1000000 ≤ t.nanos then scaled t.nanos 6 "ms"
  else if 1000 ≤ t.nanos then scaled t.nanos 3 "µs"
  else scaled t.nanos 0 "ns"

end Duration

end Stylesheet
