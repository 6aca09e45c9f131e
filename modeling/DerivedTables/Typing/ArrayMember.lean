import DerivedTables.Operator
import DerivedTables.Ty

namespace DerivedTables

/-- The type of a member of an array; that of `reduce` waits for its accumulator. -/
inductive ArrayMember where
  | known (ty : Ty)
  | pending
  | missing
  deriving DecidableEq, Repr

namespace ArrayMember

def function (params : List (String × Ty)) (returns : Ty) : Ty :=
  .function (.ofList params) returns

def predicate (element : Ty) : Ty := function [("row", element)] .boolean

/-- `filter` keeps rows, `include` asks whether one satisfies the predicate, `reduce` folds them. -/
def of (element : Ty) (member : String) (accumulator : Option Ty) : ArrayMember :=
  match RowMember.ofName? member with
  | some .filter => known (function [("predicate", predicate element)] (.array element))
  | some .includes => known (function [("predicate", predicate element)] .boolean)
  | some .reduce =>
    match accumulator with
    | some acc =>
      let reducer := function [("acc", acc), ("row", element)] acc
      known (function [("reducer", reducer), ("initial", acc)] acc)
    | none => pending
  | none => missing

end ArrayMember

end DerivedTables
