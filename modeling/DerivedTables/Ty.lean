namespace DerivedTables

mutual
/-- The type of a node. A `named` type stands for the rows of a table and is expanded only when it
is compared; a `binding` is the type of a let, which has a value and goes on. -/
inductive Ty where
  | string
  | number
  | boolean
  | named (table : String)
  | context (name : String)
  | function (params : Fields) (returns : Ty)
  | object (fields : Fields)
  | array (element : Ty)
  | binding (value next : Ty)
  | unknown
  | void
inductive Fields where
  | nil
  | cons (name : String) (ty : Ty) (rest : Fields)
end

deriving instance DecidableEq, Repr for Ty, Fields

instance : Inhabited Ty := ⟨.unknown⟩

namespace Fields

def toList : Fields → List (String × Ty)
  | nil => []
  | cons name ty rest => (name, ty) :: rest.toList

def ofList : List (String × Ty) → Fields
  | [] => nil
  | (name, ty) :: rest => cons name ty (ofList rest)

@[simp] theorem toList_ofList (fields : List (String × Ty)) : (ofList fields).toList = fields := by
  induction fields with
  | nil => rfl
  | cons field rest ih => simp [ofList, toList, ih]

@[simp] theorem ofList_toList (fields : Fields) : ofList fields.toList = fields :=
  match fields with
  | nil => rfl
  | cons _ _ rest => by simp [ofList, toList, ofList_toList rest]

/-- Keeps the names in order; a name that is there already takes the new type. -/
def insert (name : String) (ty : Ty) : Fields → Fields
  | nil => cons name ty nil
  | cons other held rest =>
    if name = other then cons name ty rest
    else if name < other then cons name ty (cons other held rest)
    else cons other held (insert name ty rest)

def sorted (fields : List (String × Ty)) : Fields :=
  fields.foldl (fun held (name, ty) => held.insert name ty) nil

def find? (fields : Fields) (name : String) : Option Ty := fields.toList.lookup name

def names (fields : Fields) : List String := fields.toList.map Prod.fst

end Fields

namespace Ty

/-- `number`, `string` and `boolean` name themselves, anything else names a table. -/
def ofDeclared (base : String) (isArray : Bool) : Ty :=
  let element :=
    if base = "string" then string
    else if base = "number" then number
    else if base = "boolean" then boolean
    else named base
  if isArray then array element else element

def isUnknown : Ty → Bool
  | unknown => true
  | _ => false

mutual
/-- Nothing inside is left open. -/
def isComplete : Ty → Bool
  | unknown => false
  | string | number | boolean | named _ | context _ | void => true
  | function params returns => allComplete params && returns.isComplete
  | object fields => allComplete fields
  | array element => element.isComplete
  | binding value next => value.isComplete && next.isComplete
def allComplete : Fields → Bool
  | .nil => true
  | .cons _ ty rest => ty.isComplete && allComplete rest
end

/-- What a node gives as an expression: a let gives what it goes on with. -/
def effective : Ty → Ty
  | binding _ next => next.effective
  | ty => ty

/-- What a reference to a node sees: of a let, the bound value. -/
def boundValue : Ty → Ty
  | binding value _ => value.effective
  | ty => ty

mutual
def namedTables : Ty → List String
  | named table => [table]
  | function params returns => fieldTables params ++ returns.namedTables
  | object fields => fieldTables fields
  | array element => element.namedTables
  | binding value next => value.namedTables ++ next.namedTables
  | _ => []
def fieldTables : Fields → List String
  | .nil => []
  | .cons _ ty rest => ty.namedTables ++ fieldTables rest
end

mutual
def text : Ty → String
  | string => "string"
  | number => "number"
  | boolean => "boolean"
  | named table => table
  | context name => "$" ++ name
  | function params returns =>
    "(" ++ String.intercalate ", " (fieldTexts params) ++ ") -> " ++ returns.text
  | object .nil => "\x7b\x7d"
  | object fields => "\x7b " ++ String.intercalate ", " (fieldTexts fields) ++ " \x7d"
  | array element => element.text ++ "[]"
  | binding value next => "let " ++ value.text ++ " in " ++ next.text
  | unknown => "?"
  | void => "none"
def fieldTexts : Fields → List String
  | .nil => []
  | .cons name ty rest => (name ++ ": " ++ ty.text) :: fieldTexts rest
end

end Ty

end DerivedTables
