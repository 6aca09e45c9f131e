namespace DerivedTables

/-- A number written without fraction and exponent keeps its exact value; any other is a double. -/
inductive Json.Number where
  | integer (n : Int)
  | real (x : Float)

inductive Json where
  | null
  | bool (b : Bool)
  | number (n : Json.Number)
  | string (s : String)
  | array (items : List Json)
  | object (fields : List (String × Json))

namespace Json

def Number.toFloat : Number → Float
  | .integer n => Float.ofInt n
  | .real x => x

def nat (n : Nat) : Json := .number (.integer n)

def asBool? : Json → Option Bool
  | .bool b => some b
  | _ => none

def asString? : Json → Option String
  | .string s => some s
  | _ => none

def asFloat? : Json → Option Float
  | .number n => some n.toFloat
  | _ => none

def asNat? : Json → Option Nat
  | .number (.integer (.ofNat n)) => some n
  | _ => none

def asArray? : Json → Option (List Json)
  | .array items => some items
  | _ => none

def asObject? : Json → Option (List (String × Json))
  | .object fields => some fields
  | _ => none

def field? (j : Json) (name : String) : Option Json :=
  match j with
  | .object fields => fields.lookup name
  | _ => none

/-- An absent field and a null one both mean that nothing is given. -/
def optional? {α : Type} (j : Json) (name : String) (read : Json → Option α) :
    Option (Option α) :=
  match j.field? name with
  | none => some none
  | some .null => some none
  | some value => (read value).map some

mutual
def depth : Json → Nat
  | .array items => depthItems items + 1
  | .object fields => depthFields fields + 1
  | _ => 1
def depthItems : List Json → Nat
  | [] => 0
  | item :: rest => max item.depth (depthItems rest)
def depthFields : List (String × Json) → Nat
  | [] => 0
  | (_, value) :: rest => max value.depth (depthFields rest)
end

end Json

end DerivedTables
