import DerivedTables.Text.Digits
import DerivedTables.Toml.Basic

namespace DerivedTables.Toml

/-- Tabs and everything that is no control character. -/
def isPlain (c : Char) : Bool := c == '\t' || (0x20 ≤ c.toNat && c.toNat != 0x7f)

def isBlank (c : Char) : Bool := c == ' ' || c == '\t'

structure Quoting where
  quote : Char
  escapes : Bool
  long : Bool

def readCodePoint (count : Nat) (text : List Char) : Option (List Char × List Char) :=
  let digits := text.take count
  let n := Text.digitsValue 16 digits
  if digits.length = count ∧ digits.all (Text.isDigitIn 16) ∧ n.isValidChar then
    some ([Char.ofNat n], text.drop count)
  else none

def dropSpace : List Char → List Char
  | '\n' :: rest | '\r' :: '\n' :: rest => dropSpace rest
  | c :: rest => if isBlank c then dropSpace rest else c :: rest
  | [] => []

/-- A backslash at the end of a line takes the line end and all blank space after it away. -/
def readLineEnd (text : List Char) : Option (List Char × List Char) :=
  match text.dropWhile isBlank with
  | '\n' :: rest | '\r' :: '\n' :: rest => some ([], dropSpace rest)
  | _ => none

def readEscape (long : Bool) : List Char → Option (List Char × List Char)
  | 'b' :: rest => some (['\x08'], rest)
  | 't' :: rest => some (['\t'], rest)
  | 'n' :: rest => some (['\n'], rest)
  | 'f' :: rest => some (['\x0c'], rest)
  | 'r' :: rest => some (['\r'], rest)
  | '"' :: rest => some (['"'], rest)
  | '\\' :: rest => some (['\\'], rest)
  | 'u' :: rest => readCodePoint 4 rest
  | 'U' :: rest => readCodePoint 8 rest
  | text => if long then readLineEnd text else none

/-- Each step uses up a character, so the length is fuel enough. -/
def unquote (q : Quoting) : Nat → List Char → Option (List Char)
  | _, [] => some []
  | 0, _ => none
  | fuel + 1, '\r' :: '\n' :: rest => if q.long then (unquote q fuel rest).map ('\n' :: ·) else none
  | fuel + 1, c :: rest =>
    if q.escapes ∧ c = '\\' then do
      let (chars, rest) ← readEscape q.long rest
      return chars ++ (← unquote q fuel rest)
    else if isPlain c ∨ (q.long ∧ c = '\n') then (unquote q fuel rest).map (c :: ·)
    else none

/-- What stands before the closing quote, escapes still in place. -/
def splitShort (q : Quoting) : List Char → Option (List Char × List Char)
  | [] => none
  | [c] => if c = q.quote then some ([], []) else none
  | c :: d :: rest =>
    if c = q.quote then some ([], d :: rest)
    else if q.escapes ∧ c = '\\' then
      (splitShort q rest).map fun (body, rest) => (c :: d :: body, rest)
    else (splitShort q (d :: rest)).map fun (body, rest) => (c :: body, rest)

/-- The same for three closing quotes; up to two more belong to the string. -/
def splitLong (q : Quoting) : List Char → Option (List Char × List Char)
  | c :: d :: e :: rest =>
    if c = q.quote ∧ d = q.quote ∧ e = q.quote then
      let more := (rest.takeWhile (· == q.quote)).take 2
      some (more, rest.drop more.length)
    else if q.escapes ∧ c = '\\' then
      (splitLong q (e :: rest)).map fun (body, rest) => (c :: d :: body, rest)
    else (splitLong q (d :: e :: rest)).map fun (body, rest) => (c :: body, rest)
  | _ => none

def readQuoted (q : Quoting) (text : List Char) : Option (String × List Char) := do
  let text := match q.long, text with
    | true, '\n' :: rest | true, '\r' :: '\n' :: rest => rest
    | _, text => text
  let (body, rest) ← if q.long then splitLong q text else splitShort q text
  return (String.ofList (← unquote q body.length body), rest)

def readShort : List Char → Option (String × List Char)
  | '"' :: rest => readQuoted ⟨'"', true, false⟩ rest
  | '\x27' :: rest => readQuoted ⟨'\x27', false, false⟩ rest
  | _ => none

def readString : List Char → Option (String × List Char)
  | '"' :: '"' :: '"' :: rest => readQuoted ⟨'"', true, true⟩ rest
  | '\x27' :: '\x27' :: '\x27' :: rest => readQuoted ⟨'\x27', false, true⟩ rest
  | text => readShort text

/-- Digits; an underscore stands between two of them only. -/
def grouped? (base : Nat) : List Char → Option (List Char)
  | [] => none
  | [c] => if Text.isDigitIn base c then some [c] else none
  | c :: '_' :: rest => if Text.isDigitIn base c then (grouped? base rest).map (c :: ·) else none
  | c :: rest => if Text.isDigitIn base c then (grouped? base rest).map (c :: ·) else none

/-- Integers fill a signed word. -/
def bounded? (n : Int) : Option Toml :=
  if Int64.minValue.toInt ≤ n ∧ n ≤ Int64.maxValue.toInt then some (integer n) else none

def signed (text : List Char) : Bool × List Char :=
  match text with
  | '-' :: rest => (true, rest)
  | '+' :: rest => (false, rest)
  | _ => (false, text)

/-- No zero stands in front of other digits. -/
def whole? (text : List Char) : Option (List Char) := do
  let digits ← grouped? 10 text
  if digits.length > 1 ∧ digits.head? = some '0' then none else some digits

def exponent? (text : List Char) : Option Int := do
  let (negative, digits) := signed text
  let n := Text.digitsValue 10 (← grouped? 10 digits)
  return if negative then -(n : Int) else n

/-- A float that is too large upwards is refused. -/
def float? (negative : Bool) (whole fraction : List Char) (exponent : Int) : Option Toml :=
  let x := Text.scientific negative (Text.digitsValue 10 (whole ++ fraction))
    (exponent - fraction.length)
  if x == 1 / 0 then none else some (float x)

def isExponentMark (c : Char) : Bool := c == 'e' || c == 'E'

def decimal? (text : List Char) : Option Toml := do
  let (negative, text) := signed text
  let (mantissa, power) := text.span (!isExponentMark ·)
  let (front, back) := mantissa.span (· != '.')
  let whole ← whole? front
  let n := (Text.digitsValue 10 whole : Int)
  match back, power with
  | [], [] => bounded? (if negative then -n else n)
  | [], _ :: power => float? negative whole [] (← exponent? power)
  | _ :: fraction, [] => float? negative whole (← grouped? 10 fraction) 0
  | _ :: fraction, _ :: power =>
    float? negative whole (← grouped? 10 fraction) (← exponent? power)

def special? (text : List Char) : Option Toml :=
  let (negative, name) := signed text
  if name = ['i', 'n', 'f'] then some (float (if negative then -1 / 0 else 1 / 0))
  else if name = ['n', 'a', 'n'] then some (float (0 / 0))
  else none

def inBase? (base : Nat) (digits : List Char) : Option Toml := do
  bounded? (Text.digitsValue base (← grouped? base digits))

/-- A boolean or number, from all its characters. -/
def scalar? : List Char → Option Toml
  | ['t', 'r', 'u', 'e'] => some (boolean true)
  | ['f', 'a', 'l', 's', 'e'] => some (boolean false)
  | '0' :: 'x' :: digits => inBase? 16 digits
  | '0' :: 'o' :: digits => inBase? 8 digits
  | '0' :: 'b' :: digits => inBase? 2 digits
  | text => (special? text).or (decimal? text)

end DerivedTables.Toml
