import DerivedTables.Decimal.Text
import DerivedTables.Json.Basic

namespace DerivedTables.Json

def escapeChar (c : Char) : List Char :=
  if c = '"' then ['\\', '"']
  else if c = '\\' then ['\\', '\\']
  else if c.toNat < 0x20 then
    let digits := Nat.toDigits 16 c.toNat
    ['\\', 'u'] ++ List.replicate (4 - digits.length) '0' ++ digits
  else [c]

def stringText (s : String) : String :=
  String.ofList ('"' :: s.toList.flatMap escapeChar ++ ['"'])

/-- A double is written so that it is read as a double again; what is not finite has no text. -/
def Number.text : Number → String
  | .integer n => toString n
  | .real x =>
    match Binary.ofFloat? x with
    | none => "null"
    | some _ =>
      let digits := numberText x
      if digits.contains '.' then digits else digits ++ ".0"

mutual
def text : Json → String
  | .null => "null"
  | .bool true => "true"
  | .bool false => "false"
  | .number n => n.text
  | .string s => stringText s
  | .array items => "[" ++ String.intercalate "," (itemTexts items) ++ "]"
  | .object fields => "\x7b" ++ String.intercalate "," (fieldTexts fields) ++ "\x7d"
def itemTexts : List Json → List String
  | [] => []
  | item :: rest => item.text :: itemTexts rest
def fieldTexts : List (String × Json) → List String
  | [] => []
  | (name, value) :: rest => (stringText name ++ ":" ++ value.text) :: fieldTexts rest
end

end DerivedTables.Json
