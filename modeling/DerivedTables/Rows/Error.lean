import DerivedTables.Tree.Error

namespace DerivedTables

inductive RowsError where
  | tree (e : TreeError)
  | notATable (node : NodeId)
  | unknownMember (node : NodeId) (name : String)
  | chainAfterReduce (node : NodeId)
  | argumentCount (node : NodeId) (member : RowMember) (expected found : Nat)
  | argumentShape (node : NodeId) (member : RowMember) (index : Nat) (expected : String)
  | paramCount (node : NodeId) (found : Nat)
  | accumulatorUnused (node : NodeId)
  | accumulatorReused (node : NodeId) (count : Nat)
  | notInvertible (node : NodeId) (found : String)
  | unsupportedResult (node : NodeId) (ty : Option Ty)
  | booleanWithoutOperator (node : NodeId)
  | mixedChain (node : NodeId)
  | uncalled (node : NodeId) (member : RowMember)
  deriving DecidableEq, Repr

instance : OfTreeError RowsError := ⟨.tree⟩

namespace RowsError

def node? : RowsError → Option NodeId
  | tree e => e.node?
  | notATable node | unknownMember node _ | chainAfterReduce node | argumentCount node ..
  | argumentShape node .. | paramCount node _ | accumulatorUnused node | accumulatorReused node _
  | notInvertible node _ | unsupportedResult node _ | booleanWithoutOperator node
  | mixedChain node | uncalled node _ => some node

def spanIn (e : RowsError) (a : Arena) : Option Span :=
  match e with
  | tree e => e.spanIn a
  | e => e.node?.bind a.span?

def message : RowsError → String
  | tree e => e.message
  | notATable _ => "`[]` can only be applied to a table"
  | unknownMember _ name =>
    "`" ++ name ++ "` is not a dataset operation; expected filter, include or reduce"
  | chainAfterReduce _ => "nothing can be chained after `reduce`"
  | argumentCount _ member expected found =>
    "`" ++ member.name ++ "` takes " ++ toString expected ++ " argument(s), found " ++
      toString found
  | argumentShape _ member index expected =>
    "argument " ++ toString (index + 1) ++ " of `" ++ member.name ++ "` must be " ++ expected
  | paramCount _ found =>
    "a reducer takes an accumulator and a row, found " ++ toString found ++ " parameter(s)"
  | accumulatorUnused _ =>
    "reducer never uses its accumulator; information reducing folds are not supported"
  | accumulatorReused _ count =>
    "reducer uses its accumulator " ++ toString count ++ " times; it must be used exactly once"
  | notInvertible _ found => "cannot invert the reducer through " ++ found
  | unsupportedResult _ (some ty) => "cannot maintain a reducer returning " ++ ty.text
  | unsupportedResult _ none => "cannot maintain a reducer of unknown type"
  | booleanWithoutOperator _ =>
    "a boolean reducer must combine its accumulator with `||` or `&&`"
  | mixedChain _ => "a boolean reducer may use only `||` or only `&&` on its accumulator"
  | uncalled _ member => "`" ++ member.name ++ "` must be called"

def code : RowsError → String
  | tree _ => "E0001"
  | notATable _ => "E0301"
  | unknownMember .. => "E0302"
  | chainAfterReduce _ => "E0303"
  | argumentCount .. | argumentShape .. => "E0304"
  | paramCount .. => "E0305"
  | accumulatorUnused _ => "E0306"
  | accumulatorReused .. => "E0307"
  | notInvertible .. => "E0308"
  | unsupportedResult .. => "E0309"
  | booleanWithoutOperator _ | mixedChain _ => "E0310"
  | uncalled .. => "E0311"

end RowsError

end DerivedTables
