import DerivedTables.Eval.Value
import DerivedTables.Tree.Error
import Std.Data.TreeMap

/-!
Evaluating expressions of a tree. Parameters, lets and writes are bound under their node's id, and
a binding stays until it is bound again. Rows of tables are maintained elsewhere and have no value
here.
-/

namespace DerivedTables

inductive Fault where
  | unbound (node : NodeId) (name : String)
  | mismatch (node : NodeId) (expected found : String)
  | missingField (node : NodeId) (field : String)
  | arity (node : NodeId) (expected found : Nat)
  | notEvaluable (node : NodeId) (kind : String)
  | dangling (node : NodeId)
  | tooDeep (node : NodeId)
  deriving DecidableEq, Repr

namespace Fault

def message : Fault → String
  | unbound node name => "`" ++ name ++ "` has no value at " ++ nodeText node
  | mismatch node expected found =>
    "expected " ++ expected ++ " at " ++ nodeText node ++ ", found " ++ found
  | missingField node field => "no field `" ++ field ++ "` at " ++ nodeText node
  | arity node expected found =>
    "function " ++ nodeText node ++ " takes " ++ toString expected ++ " argument(s), " ++
      toString found ++ " given"
  | notEvaluable node kind => kind ++ " at " ++ nodeText node ++ " cannot be evaluated"
  | dangling node => "node " ++ nodeText node ++ " does not exist"
  | tooDeep node => "evaluation at " ++ nodeText node ++ " is nested too deeply"

end Fault

/-- A tree and the values of its context names, such as the row at hand. -/
structure Setting (N : Type) where
  arena : Arena
  context : List (String × Value N)

/-- Values of parameters, lets and writes. -/
abbrev Bindings (N : Type) := Std.TreeMap NodeId (Value N)

/-- An evaluation that fails keeps what was bound on the way. -/
abbrev Evaluation (N : Type) : Type → Type := EStateM Fault (Bindings N)

namespace Setting

variable {N : Type} [Arithmetic N]

def bind (node : NodeId) (value : Value N) : Evaluation N Unit := modify (·.insert node value)

def kind (s : Setting N) (id : NodeId) : Evaluation N Kind :=
  match s.arena.kind? id with
  | some kind => return kind
  | none => throw (.dangling id)

def columnValue (s : Setting N) (node : NodeId) (name column : String) : Evaluation N (Value N) :=
  match s.context.lookup "row" with
  | some (.object fields) =>
    match fields.lookup column with
    | some value => return value
    | none => throw (.missingField node column)
  | _ => throw (.unbound node name)

def asNumber (node : NodeId) : Value N → Evaluation N N
  | .number n => return n
  | other => throw (.mismatch node "number" other.typeName)

def asBoolean (node : NodeId) : Value N → Evaluation N Bool
  | .boolean b => return b
  | other => throw (.mismatch node "boolean" other.typeName)

def numberAt (eval : NodeId → Evaluation N (Value N)) (id : NodeId) : Evaluation N N := do
  asNumber id (← eval id)

def booleanAt (eval : NodeId → Evaluation N (Value N)) (id : NodeId) : Evaluation N Bool := do
  asBoolean id (← eval id)

def numbersAt {α : Type} (eval : NodeId → Evaluation N (Value N)) (lhs rhs : NodeId)
    (combine : N → N → α) : Evaluation N α := do
  let x ← numberAt eval lhs
  let y ← numberAt eval rhs
  return combine x y

/-- The right operand is looked at only after the left one is found to be of the right type, and
by `&&` and `||` only if it decides. -/
def binary (op : Operator) (lhs rhs : NodeId) (eval : NodeId → Evaluation N (Value N)) :
    Evaluation N (Value N) := do
  match op with
  | .and =>
    if ← booleanAt eval lhs then return .boolean (← booleanAt eval rhs)
    else return .boolean false
  | .or =>
    if ← booleanAt eval lhs then return .boolean true
    else return .boolean (← booleanAt eval rhs)
  | .eq => do
    let x ← eval lhs
    let y ← eval rhs
    return .boolean (x.same y)
  | .ne => do
    let x ← eval lhs
    let y ← eval rhs
    return .boolean (!x.same y)
  | .lt => return .boolean (← numbersAt eval lhs rhs Arithmetic.less)
  | .gt => return .boolean (← numbersAt eval lhs rhs fun x y => Arithmetic.less y x)
  | .add => return .number (← numbersAt eval lhs rhs Arithmetic.add)
  | .sub => return .number (← numbersAt eval lhs rhs Arithmetic.sub)
  | .mul => return .number (← numbersAt eval lhs rhs Arithmetic.mul)
  | .div => return .number (← numbersAt eval lhs rhs Arithmetic.div)

mutual
/-- The value of a node; the fuel bounds how deep evaluation is nested. -/
def evalWithin (s : Setting N) : Nat → NodeId → Evaluation N (Value N)
  | 0, id => throw (.tooDeep id)
  | fuel + 1, id => do
    match ← s.kind id with
    | .string value => return .string value
    | .number value => return .number (Arithmetic.literal value)
    | .boolean value => return .boolean value
    | .null => return .null
    | .binary op lhs rhs => binary op lhs rhs (s.evalWithin fuel)
    | .conditional condition thenBranch elseBranch => do
      if ← asBoolean condition (← s.evalWithin fuel condition) then
        s.evalWithin fuel thenBranch
      else s.evalWithin fuel elseBranch
    | .binding _ value next => do
      bind id (← s.evalWithin fuel value)
      s.evalWithin fuel next
    | .effect expr next => do
      discard (s.evalWithin fuel expr)
      s.evalWithin fuel next
    | .access source property => do
      -- A bad member name is found before the source is evaluated.
      match ← s.kind property with
      | .identifier field => do
        match ← s.evalWithin fuel source with
        | .object fields =>
          match fields.lookup field with
          | some value => return value
          | none => throw (.missingField id field)
        | other => throw (.mismatch id "object" other.typeName)
      | other => throw (.mismatch property "identifier" other.name)
    | .context name =>
      match s.context.lookup name with
      | some value => return value
      | none => throw (.unbound id ("$" ++ name))
    | .reference target name => do
      -- A stored write, a let or a parameter wins over what its node says.
      match (← get)[target]? with
      | some value => return value
      | none =>
        match ← s.kind target with
        | .column column _ => s.columnValue id name column
        | .derived _ value | .assignment _ value => s.evalWithin fuel value
        | _ => throw (.unbound id name)
    | .invoke callee args => do
      let values ← args.mapM (s.evalWithin fuel)
      s.callWithin fuel callee values
    | .assignment _ value => s.evalWithin fuel value
    | .derived _ derivation => s.evalWithin fuel derivation
    | .split read writes => do
      writes.forM fun (_, write) => do bind write (← s.evalWithin fuel write)
      s.evalWithin fuel read
    | .param name _ => do
      match (← get)[id]? with
      | some value => return value
      | none => throw (.unbound id name)
    | other => throw (.notEvaluable id other.name)
def callWithin (s : Setting N) : Nat → NodeId → List (Value N) → Evaluation N (Value N)
  | 0, id, _ => throw (.tooDeep id)
  | fuel + 1, id, args => do
    let function ← s.calleeWithin fuel id id
    match ← s.kind function with
    | .function _ params body => do
      if params.length ≠ args.length then
        throw (.arity function params.length args.length)
      (params.zip args).forM fun (param, arg) => bind param arg
      s.evalWithin fuel body
    | other => throw (.mismatch function "function" other.name)
/-- The function a callee names: through references, assignments, lets and derived columns, whose
writes are evaluated on the way. -/
def calleeWithin (s : Setting N) : Nat → NodeId → NodeId → Evaluation N NodeId
  | 0, id, _ => throw (.tooDeep id)
  | fuel + 1, callee, current => do
    match ← s.kind current with
    | .function .. => return current
    | .reference target _ => s.calleeWithin fuel callee target
    | .derived _ derivation => s.calleeWithin fuel callee derivation
    | .assignment _ value | .binding _ value _ => s.calleeWithin fuel callee value
    | .split read writes => do
      writes.forM fun (_, write) => do bind write (← s.evalWithin fuel write)
      s.calleeWithin fuel callee read
    | other => throw (.mismatch callee "function" other.name)
end

def depthLimit : Nat := 4000000

def eval (s : Setting N) (id : NodeId) : Evaluation N (Value N) := s.evalWithin depthLimit id

def call (s : Setting N) (function : NodeId) (args : List (Value N)) : Evaluation N (Value N) :=
  s.callWithin depthLimit function args

/-- The outcome of an evaluation that starts with nothing bound. -/
def fresh {α : Type} (evaluation : Evaluation N α) : Except Fault α :=
  match evaluation.run ∅ with
  | .ok value _ => .ok value
  | .error fault _ => .error fault

end Setting

end DerivedTables
