import DerivedTables.Decimal.Text
import DerivedTables.Text.Quoted

namespace DerivedTables

/-- The numbers an evaluation computes with. -/
class Arithmetic (N : Type) where
  literal : Float → N
  add : N → N → N
  sub : N → N → N
  mul : N → N → N
  div : N → N → N
  less : N → N → Bool
  same : N → N → Bool

instance : Arithmetic Float where
  literal x := x
  add x y := x + y
  sub x y := x - y
  mul x y := x * y
  div x y := x / y
  less x y := x < y
  same x y := x == y

inductive Value (N : Type) where
  | null
  | number (n : N)
  | boolean (b : Bool)
  | string (s : String)
  | object (fields : List (String × Value N))

namespace Value

variable {N : Type}

def typeName : Value N → String
  | null => "null"
  | number _ => "number"
  | boolean _ => "boolean"
  | string _ => "string"
  | object _ => "object"

/-- Keeps the names in order; a name that is there already takes the new value. -/
def insertField (name : String) (value : Value N) :
    List (String × Value N) → List (String × Value N)
  | [] => [(name, value)]
  | (other, held) :: rest =>
    if name = other then (name, value) :: rest
    else if name < other then (name, value) :: (other, held) :: rest
    else (other, held) :: insertField name value rest

def ofFields (fields : List (String × Value N)) : Value N :=
  object (fields.foldl (fun held (name, value) => insertField name value held) [])

section
variable [Arithmetic N]

mutual
/-- Values of different types differ; numbers are compared as numbers, so one that is not equal to
itself makes everything around it differ too. -/
def same : Value N → Value N → Bool
  | null, null => true
  | number x, number y => Arithmetic.same x y
  | boolean x, boolean y => x == y
  | string x, string y => x == y
  | object xs, object ys => sameFields xs ys
  | _, _ => false
def sameFields : List (String × Value N) → List (String × Value N) → Bool
  | [], [] => true
  | (x, v) :: xs, (y, w) :: ys => x == y && same v w && sameFields xs ys
  | _, _ => false
end

end

mutual
def text : Value Float → String
  | null => "null"
  | number n => numberText n
  | boolean true => "true"
  | boolean false => "false"
  | string s => Text.quoted s
  | object fields => "\x7b" ++ String.intercalate "," (fieldTexts fields) ++ " \x7d"
def fieldTexts : List (String × Value Float) → List String
  | [] => []
  | (name, value) :: rest => (" " ++ name ++ ": " ++ text value) :: fieldTexts rest
end

end Value

end DerivedTables
