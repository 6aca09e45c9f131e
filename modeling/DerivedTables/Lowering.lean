import DerivedTables.Surface.Program
import DerivedTables.Tree.Walk

/-!
From programs to trees. A block becomes a chain in which each statement holds the rest of the
block: a let scopes over it, an if without else goes on with it when the condition fails, and an
if with else binds it to a fresh name that the ends of its branches refer to.
-/

namespace DerivedTables

namespace Lowering

/-- The notes count the fresh names given so far. -/
abbrev LowerPass := Pass TreeError Nat

def freshName : LowerPass String := do
  let n ← Pass.notes
  Pass.modifyNotes (· + 1)
  return "$system_" ++ toString n

def declaredTy : Declared → Ty
  | .named base isArray => .ofDeclared base isArray
  | .context name => .context name

def lowerParams (params : List Param) : LowerPass (List NodeId) :=
  params.mapM fun param =>
    Pass.allocSpanned (.param param.name (param.declared.map declaredTy)) param.span

/-- A null that ends a branch: the else of a conditional, or what follows a let or an effect. -/
def endsBranch (parent : Kind) (node : NodeId) : Bool :=
  match parent with
  | .conditional _ _ elseBranch => elseBranch == node
  | .effect _ next | .binding _ _ next => next == node
  | _ => false

/-- Makes the ends of branches refer to `binding`; the state says whether the walk is inside a
function, where nothing ends the branch. -/
def fallThrough (binding : NodeId) (name : String) : Visitor TreeError Nat Bool where
  before node _ _ := do
    match ← Pass.kind node with
    | .function .. => return .withState true
    | _ => return .keep
  after node lineage inFunction := do
    match inFunction, ← Pass.kind node, lineage.head?.bind (← Pass.arena).kind? with
    | false, .null, some parent =>
      if endsBranch parent node then
        return some (← Pass.alloc (.reference binding name))
      else return none
    | _, _, _ => return none

mutual
def lowerExpr : Expr → LowerPass NodeId
  | .string span value => Pass.allocSpanned (.string value) span
  | .number span value => Pass.allocSpanned (.number value) span
  | .boolean span value => Pass.allocSpanned (.boolean value) span
  | .identifier span name => Pass.allocSpanned (.identifier name) span
  | .context span name => Pass.allocSpanned (.context name) span
  | .binary span op lhs rhs => do
    let lhs ← lowerExpr lhs
    let rhs ← lowerExpr rhs
    Pass.allocSpanned (.binary op lhs rhs) span
  | .member span object property => do
    let source ← lowerExpr object
    let property ← Pass.alloc (.identifier property)
    Pass.allocSpanned (.access source property) span
  | .lambda span params body => do
    let params ← lowerParams params
    let body ← lowerExpr body
    Pass.allocSpanned (.function none params body) span
  | .call span callee args => do
    let callee ← lowerExpr callee
    let args ← lowerArgs args
    Pass.allocSpanned (.invoke callee args) span
  | .ifThen span condition thenBranch => do
    let condition ← lowerExpr condition
    let thenBranch ← lowerExpr thenBranch
    let elseBranch ← Pass.alloc .null
    Pass.allocSpanned (.conditional condition thenBranch elseBranch) span
  | .ifElse span condition thenBranch elseBranch => do
    let condition ← lowerExpr condition
    let thenBranch ← lowerExpr thenBranch
    let elseBranch ← lowerExpr elseBranch
    Pass.allocSpanned (.conditional condition thenBranch elseBranch) span
  | .binding span _ _ => throw (.letOutsideBlock span)
  | .block _ exprs => lowerBlock exprs
  | .ret _ value => lowerExpr value
  | .rows span operand => do
    let operand ← lowerExpr operand
    Pass.allocSpanned (.rows operand) span
  | .paren _ inner => lowerExpr inner
def lowerArgs : List Expr → LowerPass (List NodeId)
  | [] => return []
  | arg :: rest => do
    let arg ← lowerExpr arg
    let rest ← lowerArgs rest
    return arg :: rest
/-- A block ends in the value of a trailing return, else in null. The rest of the block is made
before the statement in front of it. -/
def lowerBlock : List Expr → LowerPass NodeId
  | [] => Pass.alloc .null
  | [.ret _ value] => lowerExpr value
  | .ret span _ :: rest => do
    discard (lowerBlock rest)
    throw (.returnNotLast span)
  | .binding span name value :: rest => do
    let next ← lowerBlock rest
    let value ← lowerExpr value
    Pass.allocSpanned (.binding name value next) span
  | .ifThen span condition thenBranch :: rest => do
    let next ← lowerBlock rest
    let condition ← lowerExpr condition
    let thenBranch ← lowerExpr thenBranch
    Pass.allocSpanned (.conditional condition thenBranch next) span
  | .ifElse span condition thenBranch elseBranch :: rest => do
    let next ← lowerBlock rest
    let name ← freshName
    -- The let is made before the branches, which refer to it, and filled in after them.
    let binding ← Pass.allocSpanned .null span
    let condition ← lowerExpr condition
    let thenBranch ← lowerExpr thenBranch
    let elseBranch ← lowerExpr elseBranch
    let conditional ← Pass.allocSpanned (.conditional condition thenBranch elseBranch) span
    let conditional ← (fallThrough binding name).walk conditional false
    Pass.setKind binding (.binding name next conditional)
    return binding
  | expr :: rest => do
    let next ← lowerBlock rest
    let lowered ← lowerExpr expr
    Pass.allocSpanned (.effect lowered next) expr.span
end

def lowerMember : Member → LowerPass NodeId
  | .property name (.named base isArray) span =>
    Pass.allocSpanned (.column name (.ofDeclared base isArray)) span
  | .property name (.context _) span => throw (.contextColumn name span)
  | .derived name expr span => do
    let derivation ← lowerExpr expr
    Pass.allocSpanned (.derived name derivation) span
  | .method name params body span => do
    let params ← lowerParams params
    let body ← lowerExpr body
    let function ← Pass.allocSpanned (.function (some name) params body) span
    Pass.allocSpanned (.derived name function) span

/-- What the statements of a program become, each kind in order. -/
structure Items where
  definitions : List NodeId
  assignments : List NodeId
  exprs : List Expr

/-- Tables and assignments are lowered as they come; expressions wait for the end. -/
def lowerStatements : List Statement → LowerPass Items
  | [] => return ⟨[], [], []⟩
  | .definition name members span :: rest => do
    let properties ← members.mapM lowerMember
    let definition ← Pass.allocSpanned (.definition name properties) span
    let items ← lowerStatements rest
    return { items with definitions := definition :: items.definitions }
  | .assignment name value span :: rest => do
    let value ← lowerExpr value
    let assignment ← Pass.allocSpanned (.assignment name value) span
    let items ← lowerStatements rest
    return { items with assignments := assignment :: items.assignments }
  | .expression expr :: rest => do
    let items ← lowerStatements rest
    return { items with exprs := expr :: items.exprs }

def lowerProgram (program : Program) : LowerPass NodeId := do
  let items ← lowerStatements program.statements
  let expressions ← lowerBlock items.exprs
  Pass.alloc (.root items.definitions items.assignments expressions)

end Lowering

end DerivedTables
