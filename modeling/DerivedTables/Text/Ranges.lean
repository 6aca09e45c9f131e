/-!
Classes of characters, by their code points: a few ranges, or the lengths of the runs in which the
code points are outside the class and in it by turns.
-/

namespace DerivedTables.Text

/-- Whether a character lies in one of the ranges; both ends belong to a range. -/
def within (ranges : List (Nat × Nat)) (c : Char) : Bool :=
  ranges.any fun (low, high) => low ≤ c.toNat && c.toNat ≤ high

/-- Whether a code point counted from the start of the first run belongs to the class. -/
def insideRuns (inside : Bool) : List Nat → Nat → Bool
  | [], _ => false
  | size :: rest, point => if point < size then inside else insideRuns (!inside) rest (point - size)

/-- The first run is outside the class, and so is what comes after the last one. -/
def inRuns (runs : List Nat) (c : Char) : Bool := insideRuns false runs c.toNat

end DerivedTables.Text
