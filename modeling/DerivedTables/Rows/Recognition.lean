import DerivedTables.Rows.Inversion
import DerivedTables.Tree.Walk

/-!
Finding what programs do with the rows of tables. `T[]` is a dataset, `filter` adds a stage to it,
and `reduce` and `include` end it with an aggregate that can be maintained.
-/

namespace DerivedTables

structure RowsSummary where
  datasets : Nat
  filters : Nat
  reduces : Nat
  deriving DecidableEq, Repr

namespace RowsSummary

def empty : RowsSummary := ⟨0, 0, 0⟩

end RowsSummary

namespace Rows

abbrev Recognizing : Type → Type := Pass RowsError RowsSummary

def allocLike (like : NodeId) (kind : Kind) : Recognizing NodeId := do
  Pass.push ⟨kind, (← Pass.arena).ty? like, none⟩

def spanOf (id : NodeId) : Recognizing (Option Span) := do return (← Pass.arena).span? id

def dataset (node operand : NodeId) : Recognizing NodeId := do
  match (← Pass.arena).definitionOf? operand with
  | some (definition, name) => do
    let dataset ← Pass.push ⟨.dataset name definition, (← Pass.arena).ty? node, ← spanOf node⟩
    Pass.modifyNotes fun s => { s with datasets := s.datasets + 1 }
    return dataset
  | none => throw (.notATable node)

/-- A member of a dataset or pipeline is an intent until it is called. -/
def intent (node source property : NodeId) : Recognizing (Option NodeId) := do
  match ← Pass.kind source with
  | .dataset .. | .pipeline .. => do
    let name := ((← Pass.arena).identifier? property).getD ""
    match RowMember.ofName? name with
    | some member => return some (← Pass.allocSpanned (.intent member source) (← spanOf node))
    | none => throw (.unknownMember node name)
  | .reduce .. => throw (.chainAfterReduce node)
  | _ => return none

def filter (node source predicate : NodeId) : Recognizing NodeId := do
  let stage ← allocLike predicate (.filter predicate)
  -- Pipelines do not nest: a filter on one joins its stages.
  let (source, stages) ← match ← Pass.kind source with
    | .pipeline source stages => pure (source, stages)
    | _ => pure (source, [])
  Pass.modifyNotes fun s => { s with filters := s.filters + 1 }
  allocLike node (.pipeline source (stages ++ [stage]))

/-- `row => p` becomes `(acc, row) => acc || p`. -/
def anyRow (predicate param body : NodeId) : Recognizing NodeId := do
  let rowTy := ((← Pass.arena).ty? param).getD .unknown
  let acc ← Slot.make "acc" .boolean
  let row ← Slot.make "row" rowTy
  let holds ← Pass.deepCopy body (.ofList [(param, row.redirect)])
  let accUse ← acc.use
  let body ← Pass.allocTyped (.binary .or accUse holds) .boolean
  let fold ← Slot.function none [acc, row] body
  let span ← spanOf predicate
  Pass.modifyArena (·.setSpan fold span)
  return fold

def aggregate (fold source initial : NodeId) : Recognizing NodeId := do
  Pass.modifyNotes fun s => { s with reduces := s.reduces + 1 }
  invertFold fold source initial

def arity : RowMember → Nat
  | .filter | .includes => 1
  | .reduce => 2

def callOn (node : NodeId) (member : RowMember) (source : NodeId) (function : NodeId)
    (rest : List NodeId) : Recognizing NodeId := do
  match ← Pass.kind function with
  | .function _ params body =>
    match member, params, rest with
    | .filter, [_], _ => filter node source function
    | .includes, [param], _ => do
      let fold ← anyRow function param body
      let initial ← Pass.allocTyped (.boolean false) .boolean
      aggregate fold source initial
    | .reduce, [_, _], initial :: _ => aggregate function source initial
    | .reduce, params, _ => throw (.paramCount function params.length)
    | member, _, _ => throw (.argumentShape function member 0 "a lambda of one row")
  | _ => throw (.argumentShape function member 0 "a lambda")

/-- A call of an intent. What it makes takes the call's span unless it has one of its own. -/
def call (node : NodeId) (member : RowMember) (source : NodeId) (args : List NodeId) :
    Recognizing NodeId := do
  let wrongCount := throw (.argumentCount node member (arity member) args.length)
  match args with
  | [] => wrongCount
  | function :: rest =>
    if args.length ≠ arity member then wrongCount
    else
      let made ← callOn node member source function rest
      if (← spanOf made).isNone then
        let span ← spanOf node
        Pass.modifyArena (·.setSpan made span)
      return made

def leave (node : NodeId) (_ : Lineage) (_ : Unit) : Recognizing (Option NodeId) := do
  match ← Pass.kind node with
  | .rows operand => return some (← dataset node operand)
  | .access source property => intent node source property
  | .invoke callee args => do
    match ← Pass.kind callee with
    | .intent member source => return some (← call node member source args)
    | _ => return none
  | _ => return none

def firstIntent? (a : Arena) (root : NodeId) : Option (NodeId × RowMember) :=
  (a.descendants root).findSome? fun id =>
    match a.kind? id with
    | some (.intent member _) => some (id, member)
    | _ => none

/-- The root itself is not replaced; an intent that is left was never called. -/
def recognize (root : NodeId) : Recognizing Unit := do
  let root ← (Visitor.leaving leave).walk root ()
  if let some (node, member) := firstIntent? (← Pass.arena) root then
    throw (.uncalled node member)

end Rows

end DerivedTables
