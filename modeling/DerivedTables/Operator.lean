namespace DerivedTables

inductive Operator where
  | add | sub | mul | div
  | eq | ne | lt | gt
  | and | or
  deriving DecidableEq, Repr

namespace Operator

def symbol : Operator → String
  | add => "+"
  | sub => "-"
  | mul => "*"
  | div => "/"
  | eq => "=="
  | ne => "!="
  | lt => "<"
  | gt => ">"
  | and => "&&"
  | or => "||"

def all : List Operator := [add, sub, mul, div, eq, ne, lt, gt, and, or]

def ofSymbol? (symbol : String) : Option Operator :=
  all.find? fun op => op.symbol == symbol

@[simp] theorem ofSymbol?_symbol (op : Operator) : ofSymbol? op.symbol = some op := by
  cases op <;> decide

def isArithmetic : Operator → Bool
  | add | sub | mul | div => true
  | _ => false

def isLogical : Operator → Bool
  | and | or => true
  | _ => false

def isOrdering : Operator → Bool
  | lt | gt => true
  | _ => false

def isEquality : Operator → Bool
  | eq | ne => true
  | _ => false

/-- The operator that takes back what this one did to its left operand. -/
def inverse? : Operator → Option Operator
  | add => some sub
  | sub => some add
  | mul => some div
  | div => some mul
  | _ => none

end Operator

/-- What may be asked of the rows of a table. -/
inductive RowMember where
  | filter | includes | reduce
  deriving DecidableEq, Repr

namespace RowMember

def name : RowMember → String
  | filter => "filter"
  | includes => "include"
  | reduce => "reduce"

def all : List RowMember := [filter, includes, reduce]

def ofName? (name : String) : Option RowMember :=
  all.find? fun member => member.name == name

@[simp] theorem ofName?_name (member : RowMember) : ofName? member.name = some member := by
  cases member <;> decide

end RowMember

end DerivedTables
