import DerivedTables.Text.Attached
import DerivedTables.Text.Unassigned

/-!
Characters that leave no mark of their own on a page: controls, format characters, separators,
private use, fillers, code points without a character, and marks that attach to the character
before them. The space is the one separator that counts as visible.
-/

namespace DerivedTables.Text

/-- Controls, format characters, separators and private use, above the visible ASCII. -/
def blankRanges : List (Nat × Nat) :=
  [(0x7f, 0xa0), (0xad, 0xad), (0x600, 0x605), (0x61c, 0x61c), (0x6dd, 0x6dd), (0x70f, 0x70f),
   (0x890, 0x891), (0x8e2, 0x8e2), (0x1680, 0x1680), (0x180e, 0x180e), (0x2000, 0x200f),
   (0x2028, 0x202f), (0x205f, 0x2064), (0x2066, 0x206f), (0x3000, 0x3000), (0xe000, 0xf8ff),
   (0xfeff, 0xfeff), (0xfff9, 0xfffb), (0x110bd, 0x110bd), (0x110cd, 0x110cd), (0x13430, 0x1343f),
   (0x1bca0, 0x1bca3), (0x1d173, 0x1d17a), (0xe0001, 0xe0001), (0xe0020, 0xe007f),
   (0xf0000, 0xffffd), (0x100000, 0x10fffd)]

/-- Letters that only keep a place in a Hangul syllable. -/
def fillers : List Char := ['\u115f', '\u1160', '\u3164', '\uffa0']

def hidden (c : Char) : Bool :=
  if c.toNat < 0x7f then c.toNat < 0x20
  else within blankRanges c || fillers.contains c || attached c || unassigned c

end DerivedTables.Text
