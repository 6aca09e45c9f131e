import DerivedTables.Eval.Value
import Mathlib.Algebra.Order.Field.Rat
import Mathlib.Tactic.FieldSimp
import Mathlib.Tactic.Ring

/-!
Evaluation in the exact rationals, where nothing is rounded.
-/

namespace DerivedTables

def Binary.toRat (b : Binary) : ℚ :=
  mkRat ((if b.negative then -1 else 1) * b.mantissa * 2 ^ b.exponent.toNat) (2 ^ (-b.exponent).toNat)

/-- Literals are finite; one that is not counts as zero. -/
def exactLiteral (x : Float) : ℚ := ((Binary.ofFloat? x).map Binary.toRat).getD 0

instance : Arithmetic ℚ where
  literal := exactLiteral
  add x y := x + y
  sub x y := x - y
  mul x y := x * y
  div x y := x / y
  less x y := x < y
  same x y := x == y

@[simp] theorem exactLiteral_zero : exactLiteral 0 = 0 := by
  decide +kernel

@[simp] theorem exactLiteral_one : exactLiteral 1 = 1 := by
  decide +kernel

/-- Numbers that count without error. -/
class ExactCounting (N : Type) [Arithmetic N] where
  count : ℤ → N
  literal_zero : Arithmetic.literal (0 : Float) = count 0
  literal_one : Arithmetic.literal (1 : Float) = count 1
  add_count : ∀ i j, Arithmetic.add (count i) (count j) = count (i + j)
  sub_count : ∀ i j, Arithmetic.sub (count i) (count j) = count (i - j)
  same_count : ∀ i j, Arithmetic.same (count i) (count j) = decide (i = j)

instance : ExactCounting ℚ where
  count i := i
  literal_zero := by simp [Arithmetic.literal]
  literal_one := by simp [Arithmetic.literal]
  add_count i j := (Int.cast_add i j).symm
  sub_count i j := (Int.cast_sub i j).symm
  same_count i j := by
    change ((i : ℚ) == (j : ℚ)) = decide (i = j)
    rw [Bool.eq_iff_iff]
    simp

end DerivedTables
