import DerivedTables.Rows.Fold
import DerivedTables.Tree.Copy

/-!
A fold is maintained row by row through three functions over one accumulator: `forward` folds a row
in, `inverse` takes it out again, and `view` gives what the accumulator stands for. A number is
its own accumulator, and each operator is undone from the outside in. A boolean is kept as a count:
of the rows that make `||` true, or of those that make `&&` false.
-/

namespace DerivedTables

structure Slot where
  id : NodeId
  name : String
  ty : Ty

namespace Slot

variable {ω : Type}

def make (name : String) (ty : Ty) : Pass RowsError ω Slot := do
  return ⟨← Pass.allocTyped (.param name (some ty)) ty, name, ty⟩

def use (slot : Slot) : Pass RowsError ω NodeId :=
  Pass.allocTyped (.reference slot.id slot.name) slot.ty

def redirect (slot : Slot) : Redirect := ⟨slot.id, slot.name⟩

/-- A function over the slots, typed by them and by its body. -/
def function (name : Option String) (slots : List Slot) (body : NodeId) :
    Pass RowsError ω NodeId := do
  let returns := ((← Pass.arena).ty? body).getD .unknown
  Pass.allocTyped (.function name (slots.map Slot.id) body)
    (.function (.ofList (slots.map fun slot => (slot.name, slot.ty))) returns)

end Slot

namespace FoldStep

/-- Given what the operator gave and its other operand, what the accumulator side was. -/
def undone? (step : FoldStep) (result other : NodeId) : Option Kind :=
  if step.accumulatorOnLeft then
    step.op.inverse?.map fun inverse => .binary inverse result other
  else
    match step.op with
    | .add => some (.binary .sub result other)
    | .mul => some (.binary .div result other)
    | .sub | .div => some (.binary step.op other result)
    | _ => none

def stuck (step : FoldStep) : RowsError :=
  .notInvertible step.node ("`" ++ step.op.symbol ++ "`")

end FoldStep

namespace Fold

variable {ω : Type}

def number (value : Float) : Pass RowsError ω NodeId := Pass.allocTyped (.number value) .number

def copyForRow (fold : Fold) (row : Slot) (id : NodeId) : Pass RowsError ω NodeId :=
  Pass.deepCopy id (.ofList [(fold.row, row.redirect)])

def rowTy (fold : Fold) : Pass RowsError ω Ty := do
  return ((← Pass.arena).ty? fold.row).getD .unknown

/-- Its type is what the view gives. -/
def reduce (source initial forward inverse view : NodeId) : Pass RowsError ω NodeId := do
  let kind := .reduce source initial forward inverse view
  match (← Pass.arena).ty? view with
  | some (.function _ returns) => Pass.allocTyped kind returns
  | _ => Pass.alloc kind

def numericForward (fold : Fold) (rowTy : Ty) : Pass RowsError ω NodeId := do
  let acc ← Slot.make "accCur" .number
  let row ← Slot.make "newRow" rowTy
  let body ← Pass.deepCopy fold.body
    ((∅ : Redirects).insert fold.accumulator acc.redirect |>.insert fold.row row.redirect)
  Slot.function (some "forward") [acc, row] body

def undo (fold : Fold) (row : Slot) (result : NodeId) (step : FoldStep) :
    Pass RowsError ω NodeId := do
  let other ← fold.copyForRow row step.other
  match step.undone? result other with
  | some kind => Pass.allocTyped kind .number
  | none => throw step.stuck

def numericInverse (fold : Fold) (rowTy : Ty) : Pass RowsError ω NodeId := do
  let acc ← Slot.make "accNext" .number
  let row ← Slot.make "oldRow" rowTy
  let body ← fold.steps.foldlM (fold.undo row) (← acc.use)
  Slot.function (some "inverse") [acc, row] body

def numericView : Pass RowsError ω NodeId := do
  let acc ← Slot.make "accCur" .number
  Slot.function (some "view") [acc] (← acc.use)

/-- The initial number is the first accumulator. -/
def invertNumeric (fold : Fold) (source initial : NodeId) : Pass RowsError ω NodeId := do
  if let some step := fold.steps.find? fun step => !step.op.isArithmetic then
    throw step.stuck
  let rowTy ← fold.rowTy
  let forward ← fold.numericForward rowTy
  let inverse ← fold.numericInverse rowTy
  let view ← numericView
  reduce source initial forward inverse view

/-- What a row adds to the count when the chain holds of it, and when it does not. -/
structure Worth where
  hit : Float
  miss : Float

def Worth.of (chain : Operator) : Worth := if chain = .or then ⟨1, 0⟩ else ⟨0, 1⟩

def Worth.select (worth : Worth) (condition : NodeId) : Pass RowsError ω NodeId := do
  let hit ← number worth.hit
  let miss ← number worth.miss
  Pass.allocTyped (.conditional condition hit miss) .number

/-- The one operator of a boolean fold. -/
def chainOf (fold : Fold) : Except RowsError Operator :=
  match fold.steps with
  | [] => .error (.booleanWithoutOperator fold.node)
  | first :: _ => do
    if !first.op.isLogical then throw first.stuck
    fold.steps.forM fun step =>
      if step.op = first.op then return ()
      else if step.op.isLogical then throw (.mixedChain step.node)
      -- Below the body an operator of numbers is not named by its symbol.
      else throw (.notInvertible step.node "binary operator")
    return first.op

def matching (fold : Fold) (row : Slot) : List FoldStep → Pass RowsError ω NodeId
  | [] => throw (.booleanWithoutOperator fold.node)
  | [step] => fold.copyForRow row step.other
  | step :: rest => do
    let other ← fold.copyForRow row step.other
    let inner ← fold.matching row rest
    let kind :=
      if step.accumulatorOnLeft then .binary step.op inner other
      else .binary step.op other inner
    Pass.allocTyped kind .boolean

def counting (fold : Fold) (worth : Worth) (name accName rowName : String) (op : Operator)
    (rowTy : Ty) : Pass RowsError ω NodeId := do
  let acc ← Slot.make accName .number
  let row ← Slot.make rowName rowTy
  let condition ← fold.matching row fold.steps
  let change ← worth.select condition
  let count ← acc.use
  let body ← Pass.allocTyped (.binary op count change) .number
  Slot.function (some name) [acc, row] body

def countView (chain : Operator) : Pass RowsError ω NodeId := do
  let acc ← Slot.make "accCur" .number
  let count ← acc.use
  let nothing ← number 0
  let body ← Pass.allocTyped (.binary (if chain = .or then .ne else .eq) count nothing) .boolean
  Slot.function (some "view") [acc] body

/-- The initial boolean counts as one row of its own. -/
def invertBoolean (fold : Fold) (source initial : NodeId) : Pass RowsError ω NodeId := do
  let chain ← Pass.ofExcept fold.chainOf
  let worth := Worth.of chain
  let rowTy ← fold.rowTy
  let forward ← fold.counting worth "forward" "accCur" "newRow" .add rowTy
  let inverse ← fold.counting worth "inverse" "accNext" "oldRow" .sub rowTy
  let view ← countView chain
  let start ← worth.select initial
  reduce source start forward inverse view

end Fold

/-- Makes the fold at `node` into a reduce over the source. -/
def invertFold {ω : Type} (node source initial : NodeId) : Pass RowsError ω NodeId := do
  let a ← Pass.arena
  let fold ← Pass.ofExcept (Fold.of a node)
  let reduce ←
    match (a.ty? fold.body).map Ty.effective with
    | some .number => fold.invertNumeric source initial
    | some .boolean => fold.invertBoolean source initial
    | ty => throw (.unsupportedResult node ty)
  Pass.modifyArena (·.setSpan reduce (a.span? node))
  return reduce

end DerivedTables
