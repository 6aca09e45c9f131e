import DerivedTables.Decimal.Shortest

namespace DerivedTables

namespace Decimal

/-- Positional notation at every size: zeros fill up to the point, and no point is written when
nothing stands behind it. -/
def positional (d : Decimal) : String :=
  let digits := Nat.toDigits 10 d.digits
  match d.exponent with
  | .ofNat n => String.ofList (digits ++ if d.digits = 0 then [] else List.replicate n '0')
  | .negSucc n =>
    let places := n + 1
    let padded := List.replicate (places + 1 - digits.length) '0' ++ digits
    let whole := padded.take (padded.length - places)
    let tail := (padded.drop (padded.length - places)).reverse.dropWhile (· == '0')
    String.ofList (if tail.isEmpty then whole else whole ++ '.' :: tail.reverse)

end Decimal

/-- How a number is written: the fewest digits that read back, positionally. The sign of zero is
kept. -/
def numberText (x : Float) : String :=
  match Binary.ofFloat? x with
  | some b => (if b.negative then "-" else "") ++ b.shortest.positional
  | none => if x.isNaN then "NaN" else if x < 0 then "-inf" else "inf"

end DerivedTables
