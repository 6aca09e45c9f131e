import DerivedTables.Rows.Error

namespace DerivedTables

/-- An operator between the result of a fold and its accumulator. -/
structure FoldStep where
  node : NodeId
  op : Operator
  accumulatorOnLeft : Bool
  /-- The operand the accumulator is not in. -/
  other : NodeId
  deriving DecidableEq, Repr

/-- A function of accumulator and row whose body uses the accumulator once, under operators only. -/
structure Fold where
  node : NodeId
  accumulator : NodeId
  row : NodeId
  body : NodeId
  /-- From the body inwards. -/
  steps : List FoldStep
  deriving DecidableEq, Repr

namespace Fold

/-- Paths from a node down to each reference to the target, left to right. -/
def pathsTo (a : Arena) (target : NodeId) : Nat → NodeId → List (List NodeId)
  | 0, _ => []
  | fuel + 1, id =>
    match a.kind? id with
    | some (.reference found _) => if found = target then [[id]] else []
    | some kind => (kind.children.flatMap (pathsTo a target fuel)).map (id :: ·)
    | none => []

/-- An operator is named by its symbol, anything else by what it is. -/
def stepAt (a : Arena) (ancestor inner : NodeId) : Except RowsError FoldStep := do
  match ← a.expect ancestor with
  | .binary op lhs rhs =>
    if op.isArithmetic || op.isLogical then
      if lhs = inner then return ⟨ancestor, op, true, rhs⟩
      else return ⟨ancestor, op, false, lhs⟩
    else throw (.notInvertible ancestor ("`" ++ op.symbol ++ "`"))
  | other => throw (.notInvertible ancestor ("a " ++ other.name))

def stepsAlong (a : Arena) (path : List NodeId) : Except RowsError (List FoldStep) :=
  (path.zip path.tail).mapM fun (ancestor, inner) => stepAt a ancestor inner

def stepsTo (a : Arena) (node accumulator body : NodeId) : Except RowsError (List FoldStep) :=
  match pathsTo a accumulator (a.size + 1) body with
  | [] => .error (.accumulatorUnused node)
  | [path] => stepsAlong a path
  | paths => .error (.accumulatorReused node paths.length)

def of (a : Arena) (node : NodeId) : Except RowsError Fold := do
  match ← a.expect node with
  | .function _ [accumulator, row] body =>
    return ⟨node, accumulator, row, body, ← stepsTo a node accumulator body⟩
  | .function _ params _ => throw (.paramCount node params.length)
  | other => throw (.tree (.unexpected node "function" other.name))

end Fold

end DerivedTables
