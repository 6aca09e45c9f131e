import DerivedTables.Typing.ArrayMember
import DerivedTables.Typing.Compare
import DerivedTables.Typing.Error

/-!
The type a node should have, given the types its neighbours have so far. A rule that lacks one of
them gives nothing and is asked again later.
-/

namespace DerivedTables.Typing

/-- What a rule gives: a type, nothing yet, or an error. -/
abbrev Verdict := Except TypingError (Option Ty)

/-- The type of a node as an expression, unless it is open. -/
def known? (a : Arena) (id : NodeId) : Option Ty :=
  ((a.ty? id).map Ty.effective).filter fun ty => !ty.isUnknown

def complete? (a : Arena) (id : NodeId) : Option Ty := (known? a id).filter Ty.isComplete

def knownOrUnknown (a : Arena) (id : NodeId) : Ty := (known? a id).getD .unknown

variable (env : Resolution) (a : Arena)

def checkDeclared (node : NodeId) (declared : Ty) (scope : ScopeId) :
    Except TypingError Unit :=
  declared.namedTables.forM fun name =>
    match env.definition? a name scope with
    | some _ => return ()
    | none => throw (.unknownType node name)

def isDefinition (id : NodeId) : Bool :=
  match a.kind? id with
  | some (.definition ..) => true
  | _ => false

/-- `$row` is a row of the nearest table around it. -/
def contextRule (node : NodeId) (name : String) (lineage : Lineage) : Verdict :=
  if name ≠ "row" then throw (.unknownContext node name)
  else
    match lineage.find? (isDefinition a) with
    | some definition => return known? a definition
    | none => throw (.contextOutsideDefinition node)

def declaredRule (node : NodeId) (declared : Ty) (lineage : Lineage) : Verdict :=
  match declared with
  | .context name => contextRule a node name lineage
  | declared => do
    checkDeclared env a node declared (env.scopeAt node lineage)
    return some declared

/-- A parameter without annotation takes its type from the function its lambda is passed to. -/
def contextualParam? (param : NodeId) (lineage : Lineage) : Option Ty := do
  let lambda ← lineage[0]?
  let call ← lineage[1]?
  match a.kind? lambda, a.kind? call with
  | some (.function _ params _), some (.invoke callee args) => do
    let position ← params.idxOf? param
    let index ← args.idxOf? lambda
    match ← known? a callee with
    | .function expected _ =>
      match (← expected.toList[index]?).2 with
      | .function inner _ =>
        let ty := (← inner.toList[position]?).2
        if ty.isComplete then some ty else none
      | _ => none
    | _ => none
  | _, _ => none

def propertyField (property : NodeId) : Except TypingError (String × Ty) := do
  match ← a.expect property with
  | .column name _ | .derived name _ => return (name, knownOrUnknown a property)
  | other => throw (.tree (.unexpected property "property" other.name))

def paramField (param : NodeId) : Except TypingError (String × Ty) := do
  match ← a.expect param with
  | .param name _ => return (name, knownOrUnknown a param)
  | other => return (other.name, knownOrUnknown a param)

def require (node : NodeId) (op : Operator) (expected lhs rhs : Ty) : Except TypingError Unit :=
  [lhs, rhs].forM fun found =>
    if found = expected then return () else throw (.invalidOperand node op expected found)

def binaryRule (node : NodeId) (op : Operator) (lhs rhs : NodeId) (lineage : Lineage) :
    Verdict := do
  match complete? a lhs, complete? a rhs with
  | some l, some r =>
    if op.isArithmetic then
      require node op .number l r
      return some .number
    else if op.isOrdering then
      require node op .number l r
      return some .boolean
    else if op.isLogical then
      require node op .boolean l r
      return some .boolean
    else
      match env.compare a l r (env.scopeAt node lineage) with
      | .equal => return some .boolean
      | .undecided => return none
      | .different => throw (.operandMismatch node op l r)
  | _, _ => return none

/-- The accumulator of a `reduce` call: the annotated first parameter of the reducer, else the
initial value. -/
def accumulator? (access : NodeId) (lineage : Lineage) : Option Ty := do
  match a.kind? (← lineage.head?) with
  | some (.invoke callee args) =>
    if callee ≠ access then none
    else
      let annotated : Option Ty := do
        match a.kind? (← args.head?) with
        | some (.function _ params _) => do
          let acc ← params.head?
          match a.kind? acc with
          | some (.param _ (some _)) => complete? a acc
          | _ => none
        | _ => none
      annotated.or (do complete? a (← args[1]?))
  | _ => none

def accessRule (node source property : NodeId) (lineage : Lineage) : Verdict := do
  let field ← match ← a.expect property with
    | .identifier name => pure name
    | other => throw (.tree (.unexpected property "member name" other.name))
  match known? a source with
  | none => return none
  | some (.object fields) =>
    match fields.find? field with
    | some ty => return if ty.isUnknown then none else some ty
    | none => throw (.unknownField node field (.object fields))
  | some (.named table) =>
    match env.definition? a table (env.scopeAt node lineage) with
    | none => throw (.unknownType node table)
    | some definition =>
      match Resolution.column? a definition field with
      | some column => return known? a column
      | none => throw (.unknownField node field (.named table))
  | some (.array element) =>
    let accumulator := if field = "reduce" then accumulator? a node lineage else none
    match ArrayMember.of element field accumulator with
    | .known ty => return some ty
    | .pending => return none
    | .missing => throw (.unknownField node field (.array element))
  | some other => throw (.notAnObject node other)

def checkArguments (scope : ScopeId) : Nat → List (NodeId × Ty) → Except TypingError Bool
  | _, [] => return false
  | index, (arg, expected) :: rest => do
    match known? a arg with
    | none => do
      discard (checkArguments scope (index + 1) rest)
      return true
    | some found =>
      match env.compare a found expected scope with
      | .equal => checkArguments scope (index + 1) rest
      | .undecided => do
        discard (checkArguments scope (index + 1) rest)
        return true
      | .different => throw (.argumentMismatch arg index expected found)

def invokeRule (node callee : NodeId) (args : List NodeId) (lineage : Lineage) : Verdict := do
  match known? a callee with
  | none => return none
  | some (.function params returns) =>
    let expected := params.toList.map Prod.snd
    if expected.length ≠ args.length then
      throw (.arityMismatch node expected.length args.length)
    let isOpen ← checkArguments env a (env.scopeAt node lineage) 0 (args.zip expected)
    return if isOpen || returns.isUnknown then none else some returns
  | some other => throw (.notAFunction callee other)

def conditionalRule (node condition thenBranch elseBranch : NodeId) (lineage : Lineage) :
    Verdict := do
  match complete? a condition with
  | none => return none
  | some found =>
    if found ≠ .boolean then throw (.conditionNotBoolean condition found)
    match known? a thenBranch, known? a elseBranch with
    | some thenTy, some elseTy =>
      match env.compare a thenTy elseTy (env.scopeAt node lineage) with
      | .equal => return some thenTy
      | .undecided => return none
      | .different => throw (.branchMismatch node thenTy elseTy)
    | _, _ => return none

def infer (node : NodeId) (lineage : Lineage) : Verdict := do
  match ← a.expect node with
  | .root .. | .null => return some .void
  | .string _ => return some .string
  | .number _ => return some .number
  | .boolean _ => return some .boolean
  | .identifier name =>
    if a.isPropertyName node lineage.head? then return some .void
    else throw (.unresolvedIdentifier node name)
  | .context name => contextRule a node name lineage
  | .param _ (some declared) => declaredRule env a node declared lineage
  | .param _ none => return contextualParam? a node lineage
  | .column _ declared => do
    checkDeclared env a node declared (env.scopeAt node lineage)
    return some declared
  | .derived _ derivation => return known? a derivation
  | .split read _ => return known? a read
  | .assignment _ value => return known? a value
  | .effect _ next => return known? a next
  | .filter predicate => return known? a predicate
  | .pipeline source _ => return known? a source
  | .intent .. => return none
  | .definition _ properties => do
    return some (.object (.sorted (← properties.mapM (propertyField a))))
  | .function _ params body => do
    return some (.function (.ofList (← params.mapM (paramField a))) (knownOrUnknown a body))
  | .binding _ value next =>
    return some (.binding (knownOrUnknown a value) (knownOrUnknown a next))
  | .reference target _ => do
    discard (a.expect (ε := TypingError) target)
    return ((a.ty? target).map Ty.boundValue).filter fun ty => !ty.isUnknown
  | .rows operand =>
    match a.definitionOf? operand with
    | some (_, name) => return some (.array (.named name))
    | none => throw (.notATable node)
  | .dataset name _ => return some (.array (.named name))
  | .reduce _ _ _ _ view =>
    match a.ty? view with
    | some (.function _ returns) => return if returns.isUnknown then none else some returns
    | _ => return none
  | .binary op lhs rhs => binaryRule env a node op lhs rhs lineage
  | .access source property => accessRule env a node source property lineage
  | .invoke callee args => invokeRule env a node callee args lineage
  | .conditional condition thenBranch elseBranch =>
    conditionalRule env a node condition thenBranch elseBranch lineage

end DerivedTables.Typing
