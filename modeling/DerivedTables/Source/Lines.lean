namespace DerivedTables

/-- Where the lines of a text start, in bytes. A line ends after its newline byte. -/
structure Lines where
  starts : List UInt32
  deriving Repr

namespace Lines

def startsAfter : Nat → List UInt8 → List UInt32
  | _, [] => []
  | offset, byte :: rest =>
    if byte = 10 then UInt32.ofNat (offset + 1) :: startsAfter (offset + 1) rest
    else startsAfter (offset + 1) rest

def ofText (text : String) : Lines := ⟨0 :: startsAfter 0 text.toUTF8.data.toList⟩

/-- A trailing newline opens one more, empty line. -/
def count (lines : Lines) : Nat := lines.starts.length

structure Position where
  line : UInt32
  column : UInt32
  deriving DecidableEq, Repr

/-- Lines and columns count from one, columns in bytes. Past the end the last line goes on. -/
def position (lines : Lines) (offset : UInt32) : Position :=
  let reached := lines.starts.takeWhile (· ≤ offset)
  ⟨UInt32.ofNat reached.length, offset - reached.getLastD 0 + 1⟩

end Lines

end DerivedTables
