import DerivedTables.Decimal.Binary

/-!
The fewest decimal digits that read back as a given double. All comparisons are between naturals:
a magnitude is a fraction `num / den`, a decimal is `digits * 10 ^ exponent`.
-/

namespace DerivedTables

structure Decimal where
  digits : Nat
  exponent : Int
  deriving DecidableEq, Repr

structure Fraction where
  num : Nat
  den : Nat
  deriving DecidableEq, Repr

namespace Fraction

def scale (base : Nat) (f : Fraction) : Int → Fraction
  | .ofNat n => ⟨f.num * base.pow n, f.den⟩
  | .negSucc n => ⟨f.num, f.den * base.pow (n + 1)⟩

def less (f g : Fraction) : Bool := f.num * g.den < g.num * f.den

def atMost (f g : Fraction) : Bool := f.num * g.den ≤ g.num * f.den

end Fraction

namespace Decimal

def fraction (d : Decimal) : Fraction := Fraction.scale 10 ⟨d.digits, 1⟩ d.exponent

end Decimal

namespace Binary

def fraction (b : Binary) : Fraction := Fraction.scale 2 ⟨b.mantissa, 1⟩ b.exponent

def lower (b : Binary) : Fraction :=
  if b.narrowBelow then Fraction.scale 2 ⟨4 * b.mantissa - 1, 4⟩ b.exponent
  else Fraction.scale 2 ⟨2 * b.mantissa - 1, 2⟩ b.exponent

def upper (b : Binary) : Fraction :=
  Fraction.scale 2 ⟨2 * b.mantissa + 1, 2⟩ b.exponent

/-- The decimals that round to a double lie between its two halfway points, which belong to it
exactly when the mantissa is even. -/
def readsBack (b : Binary) (d : Decimal) : Bool :=
  if b.mantissa % 2 = 0 then
    b.lower.atMost d.fraction && d.fraction.atMost b.upper
  else
    b.lower.less d.fraction && d.fraction.less b.upper

/-- The value's two neighbours on the grid of multiples of `10 ^ exponent`, the nearer of those
that read back; a value halfway between them takes the upper one. -/
def onGrid? (b : Binary) (exponent : Int) : Option Decimal :=
  let scaled := Fraction.scale 10 b.fraction (-exponent)
  let below : Decimal := ⟨scaled.num / scaled.den, exponent⟩
  let above : Decimal := ⟨scaled.num / scaled.den + 1, exponent⟩
  match b.readsBack below, b.readsBack above with
  | true, true =>
    if 2 * (scaled.num % scaled.den) < scaled.den then some below else some above
  | true, false => some below
  | false, true => some above
  | false, false => none

/-- The least power of ten above the value, searched upwards from an estimate that is not too
large. -/
def magnitudeFrom (b : Binary) : Nat → Int → Int
  | 0, k => k
  | fuel + 1, k =>
    if b.fraction.less (Fraction.scale 10 ⟨1, 1⟩ k) then k else magnitudeFrom b fuel (k + 1)

def magnitude (b : Binary) : Int :=
  magnitudeFrom b 4 (((b.mantissa.log2 : Int) + b.exponent) * 30103 / 100000 - 1)

/-- Every double reads back from seventeen digits; the exact value stands in after that. -/
def exactDecimal (b : Binary) : Decimal :=
  match b.exponent with
  | .ofNat n => ⟨b.mantissa * Nat.pow 2 n, 0⟩
  | .negSucc n => ⟨b.mantissa * Nat.pow 5 (n + 1), .negSucc n⟩

def shortest (b : Binary) : Decimal :=
  if b.mantissa = 0 then ⟨0, 0⟩
  else
    let k := b.magnitude
    ((List.range 17).findSome? fun n => b.onGrid? (k - (n + 1 : Nat))).getD b.exactDecimal

end Binary

end DerivedTables
