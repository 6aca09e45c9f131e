import DerivedTables.Text.Digits
import DerivedTables.Toml.Basic

/-!
Dates and times of day. A day has to be one of the calendar, a second may be a leap second, and
only a date with a time of day has an offset.
-/

namespace DerivedTables.Toml

/-- A number of so many digits, from `low` to `high`. -/
def readField (count low high : Nat) (text : List Char) : Option (Nat × List Char) :=
  let digits := text.take count
  let n := Text.digitsValue 10 digits
  if digits.length = count ∧ digits.all (Text.isDigitIn 10) ∧ low ≤ n ∧ n ≤ high then
    some (n, text.drop count)
  else none

def skipMark (mark : Char) : List Char → Option (List Char)
  | c :: rest => if c = mark then some rest else none
  | [] => none

def isLeapYear (year : Nat) : Bool :=
  year % 4 == 0 && (year % 100 != 0 || year % 400 == 0)

def daysInMonth (year month : Nat) : Nat :=
  if month = 2 then if isLeapYear year then 29 else 28
  else if month ∈ [4, 6, 9, 11] then 30
  else 31

def skipDate (text : List Char) : Option (List Char) := do
  let (year, text) ← readField 4 0 9999 text
  let (month, text) ← readField 2 1 12 (← skipMark '-' text)
  let (_, text) ← readField 2 1 (daysInMonth year month) (← skipMark '-' text)
  return text

def skipClock (text : List Char) : Option (List Char) := do
  let (_, text) ← readField 2 0 23 text
  let (_, text) ← readField 2 0 59 (← skipMark ':' text)
  return text

def skipTime (text : List Char) : Option (List Char) := do
  let (_, text) ← readField 2 0 60 (← skipMark ':' (← skipClock text))
  match text with
  | '.' :: rest =>
    if rest.head?.any (Text.isDigitIn 10) then some (rest.dropWhile (Text.isDigitIn 10)) else none
  | text => some text

def skipOffset : List Char → Option (List Char)
  | 'Z' :: rest | 'z' :: rest => some rest
  | '+' :: rest | '-' :: rest => skipClock rest
  | text => some text

/-- A blank after a date belongs to it only if a time of day follows. -/
def skipMoment (text : List Char) : Option (List Char) :=
  match skipDate text with
  | some rest =>
    match rest with
    | 'T' :: time | 't' :: time => (skipTime time).bind skipOffset
    | ' ' :: time => some (((skipTime time).bind skipOffset).getD rest)
    | _ => some rest
  | none => skipTime text

def readMoment (text : List Char) : Option (Toml × List Char) :=
  (skipMoment text).map fun rest =>
    (moment (String.ofList (text.take (text.length - rest.length))), rest)

end DerivedTables.Toml
