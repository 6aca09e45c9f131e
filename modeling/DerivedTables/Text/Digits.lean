namespace DerivedTables.Text

def hexDigit? (c : Char) : Option Nat :=
  if c.isDigit then some (c.toNat - 48)
  else if 'a' ≤ c ∧ c ≤ 'f' then some (c.toNat - 87)
  else if 'A' ≤ c ∧ c ≤ 'F' then some (c.toNat - 55)
  else none

def digit? (base : Nat) (c : Char) : Option Nat := (hexDigit? c).filter (· < base)

def isDigitIn (base : Nat) (c : Char) : Bool := (digit? base c).isSome

/-- The number that digits spell; a character that is no digit counts as zero. -/
def digitsValue (base : Nat) (digits : List Char) : Nat :=
  digits.foldl (fun total c => base * total + (hexDigit? c).getD 0) 0

/-- The double nearest to mantissa times a power of ten. -/
def scientific (negative : Bool) (mantissa : Nat) (exponent : Int) : Float :=
  let x := match exponent with
    | .ofNat e => Float.ofScientific mantissa false e
    | .negSucc e => Float.ofScientific mantissa true (e + 1)
  if negative then -x else x

end DerivedTables.Text
