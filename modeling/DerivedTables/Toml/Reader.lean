import DerivedTables.Toml.Moment
import DerivedTables.Toml.Scalar

namespace DerivedTables.Toml

def skipTrivia (inComment : Bool) : List Char → Option (List Char)
  | [] => some []
  | '\n' :: rest => skipTrivia false rest
  | '\r' :: '\n' :: rest => skipTrivia false rest
  | c :: rest =>
    if inComment then
      if isPlain c then skipTrivia true rest else none
    else if isBlank c then skipTrivia false rest
    else if c = '#' then skipTrivia true rest
    else some (c :: rest)

def endLine (text : List Char) : Option (List Char) :=
  let text := match text.dropWhile isBlank with
    | '#' :: rest => rest.dropWhile isPlain
    | text => text
  match text with
  | [] => some []
  | '\n' :: rest | '\r' :: '\n' :: rest => some rest
  | _ => none

def isBare (c : Char) : Bool := c.isAlphanum || c == '_' || c == '-'

def readPart (text : List Char) : Option (String × List Char) :=
  match text.takeWhile isBare with
  | [] => readShort text
  | part => some (String.ofList part, text.dropWhile isBare)

/-- Values are nested, and keys dotted, less deep than this. -/
def depthLimit : Nat := 79

/-- A key: all its parts but the last, and the last. -/
def readKey : Nat → List Char → Option ((List String × String) × List Char)
  | 0, _ => none
  | depth + 1, text => do
    let (part, rest) ← readPart (text.dropWhile isBlank)
    match rest.dropWhile isBlank with
    | '.' :: rest => do
      let ((path, key), rest) ← readKey depth rest
      return ((part :: path, key), rest)
    | rest => return (([], part), rest)

def isScalar (c : Char) : Bool := c.isAlphanum || c == '_' || c == '+' || c == '-' || c == '.'

mutual
/-- Each step uses up a character, so the length is fuel enough. -/
def readValue (depth : Nat) : Nat → List Char → Option (Toml × List Char)
  | 0, _ => none
  | fuel + 1, text =>
    match text with
    | '[' :: rest =>
      if depth = 0 then none
      else (readItems (depth - 1) fuel rest).map fun (items, rest) => (array items, rest)
    | '\x7b' :: rest =>
      if depth = 0 then none
      else
        match rest.dropWhile isBlank with
        | '\x7d' :: rest => some (table .inline [], rest)
        | rest =>
          (readPairs (depth - 1) fuel [] rest).map fun (entries, rest) =>
            (table .inline entries, rest)
    | '"' :: _ | '\x27' :: _ => (readString text).map fun (s, rest) => (string s, rest)
    | _ =>
      (readMoment text).or <|
        (scalar? (text.takeWhile isScalar)).map fun value => (value, text.dropWhile isScalar)
/-- The last item may be followed by a comma. -/
def readItems (depth : Nat) : Nat → List Char → Option (List Toml × List Char)
  | 0, _ => none
  | fuel + 1, text => do
    match ← skipTrivia false text with
    | ']' :: rest => return ([], rest)
    | text => do
      let (item, rest) ← readValue depth fuel text
      match ← skipTrivia false rest with
      | ',' :: rest => do
        let (items, rest) ← readItems depth fuel rest
        return (item :: items, rest)
      | ']' :: rest => return ([item], rest)
      | _ => none
/-- Everything stands on one line, and no comma follows the last pair. -/
def readPairs (depth : Nat) : Nat → Entries → List Char → Option (Entries × List Char)
  | 0, _, _ => none
  | fuel + 1, entries, text => do
    let ((path, key), rest) ← readKey depthLimit text
    match rest with
    | '=' :: rest => do
      let (value, rest) ← readValue depth fuel (rest.dropWhile isBlank)
      let entries ← add? path key value .inline entries
      match rest.dropWhile isBlank with
      | ',' :: rest => readPairs depth fuel entries rest
      | '\x7d' :: rest => return (entries, rest)
      | _ => none
    | _ => none
end

/-- Reads on inside the table that the last header opened. -/
def readLines : Nat → List String → Entries → List Char → Option Entries
  | 0, _, _, _ => none
  | fuel + 1, header, root, text => do
    match ← skipTrivia false text with
    | [] => return root
    | '[' :: '[' :: rest => do
      let ((path, key), rest) ← readKey depthLimit rest
      match rest with
      | ']' :: ']' :: rest => do
        readLines fuel (path ++ [key]) (← openNext? path key root) (← endLine rest)
      | _ => none
    | '[' :: rest => do
      let ((path, key), rest) ← readKey depthLimit rest
      match rest with
      | ']' :: rest => do
        readLines fuel (path ++ [key]) (← openTable? path key root) (← endLine rest)
      | _ => none
    | text => do
      let ((path, key), rest) ← readKey depthLimit text
      match rest with
      | '=' :: rest => do
        let rest := rest.dropWhile isBlank
        let (value, rest) ← readValue depthLimit rest.length.succ rest
        let root ← changeAt? false (add? path key value) header .header root
        readLines fuel header root (← endLine rest)
      | _ => none

def parse? (text : String) : Option Entries :=
  let chars := match text.toList with
    | '\ufeff' :: rest => rest
    | chars => chars
  readLines (chars.length + 1) [] [] chars

end DerivedTables.Toml
