namespace DerivedTables

/-- A stretch of the source text: byte offsets, the end not included. -/
@[ext] structure Span where
  start : UInt32
  stop : UInt32
  deriving DecidableEq, Repr

namespace Span

def length (s : Span) : UInt32 := s.stop - s.start

def isEmpty (s : Span) : Bool := s.start == s.stop

def cover (s t : Span) : Span := ⟨min s.start t.start, max s.stop t.stop⟩

/-- The offsets to underline in a text of the given length: inside the text, and one byte wide
where the span is empty and a byte is left. -/
def range (s : Span) (length : Nat) : Nat × Nat :=
  let low := min s.start.toNat length
  let high := max (min s.stop.toNat length) low
  if low = high then (low, min (high + 1) length) else (low, high)

end Span

end DerivedTables
