/-!
Finite doubles as exact numbers: a sign and a magnitude `mantissa * 2 ^ exponent`.
-/

namespace DerivedTables

structure Binary where
  negative : Bool
  mantissa : Nat
  exponent : Int
  deriving DecidableEq, Repr

namespace Binary

/-- The leading bit of a normal mantissa, which is not stored. -/
def leadingBit : Nat := 4503599627370496

/-- The exact number a double stands for; infinities and NaN stand for none. -/
def ofFloat? (x : Float) : Option Binary :=
  let bits := x.toBits.toNat
  let negative := bits.testBit 63
  let biased : Nat := bits / leadingBit % 2048
  let fraction : Nat := bits % leadingBit
  if biased = 2047 then none
  else if biased = 0 then some ⟨negative, fraction, -1074⟩
  else some ⟨negative, leadingBit + fraction, (biased : Int) - 1075⟩

/-- The gap below a power of two is half the gap above it, the least exponent apart. -/
def narrowBelow (b : Binary) : Bool :=
  b.mantissa == leadingBit && decide (-1074 < b.exponent)

end Binary

end DerivedTables
