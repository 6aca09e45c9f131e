import DerivedTables.Tree.Error

namespace DerivedTables

inductive TypingError where
  | tree (e : TreeError)
  | operandMismatch (node : NodeId) (op : Operator) (lhs rhs : Ty)
  | invalidOperand (node : NodeId) (op : Operator) (expected found : Ty)
  | conditionNotBoolean (node : NodeId) (found : Ty)
  | branchMismatch (node : NodeId) (thenTy elseTy : Ty)
  | unknownField (node : NodeId) (field : String) (ty : Ty)
  | notAnObject (node : NodeId) (ty : Ty)
  | notAFunction (node : NodeId) (ty : Ty)
  | arityMismatch (node : NodeId) (expected found : Nat)
  | argumentMismatch (node : NodeId) (index : Nat) (expected found : Ty)
  | unknownType (node : NodeId) (name : String)
  | contextOutsideDefinition (node : NodeId)
  | unknownContext (node : NodeId) (name : String)
  | notATable (node : NodeId)
  | unresolvedIdentifier (node : NodeId) (name : String)
  | noFixedPoint (passes : Nat)
  | unresolved (node : NodeId) (kind : String) (partialTy : Option Ty)
  deriving DecidableEq, Repr

instance : OfTreeError TypingError := ⟨.tree⟩

namespace TypingError

def node? : TypingError → Option NodeId
  | tree e => e.node?
  | noFixedPoint _ => none
  | operandMismatch node .. | invalidOperand node .. | conditionNotBoolean node _
  | branchMismatch node .. | unknownField node .. | notAnObject node _ | notAFunction node _
  | arityMismatch node .. | argumentMismatch node .. | unknownType node _
  | contextOutsideDefinition node | unknownContext node _ | notATable node
  | unresolvedIdentifier node _ | unresolved node .. => some node

def spanIn (e : TypingError) (a : Arena) : Option Span :=
  match e with
  | tree e => e.spanIn a
  | e => e.node?.bind a.span?

def message : TypingError → String
  | tree e => e.message
  | operandMismatch _ op lhs rhs =>
    "cannot compare " ++ lhs.text ++ " with " ++ rhs.text ++ " using `" ++ op.symbol ++ "`"
  | invalidOperand _ op expected found =>
    "`" ++ op.symbol ++ "` expects " ++ expected.text ++ " operands, found " ++ found.text
  | conditionNotBoolean _ found => "condition must be boolean, found " ++ found.text
  | branchMismatch _ thenTy elseTy =>
    "branches have different types: " ++ thenTy.text ++ " and " ++ elseTy.text
  | unknownField _ field ty => "no field `" ++ field ++ "` on type " ++ ty.text
  | notAnObject _ ty => "type " ++ ty.text ++ " has no fields"
  | notAFunction _ ty => "type " ++ ty.text ++ " is not a function"
  | arityMismatch _ expected found =>
    "expected " ++ toString expected ++ " argument(s), found " ++ toString found
  | argumentMismatch _ index expected found =>
    "argument " ++ toString (index + 1) ++ " expected " ++ expected.text ++ ", found " ++
      found.text
  | unknownType _ name => "unknown type `" ++ name ++ "`"
  | contextOutsideDefinition _ => "`$row` used outside of a table definition"
  | unknownContext _ name => "unknown context value `$" ++ name ++ "`"
  | notATable _ => "`[]` can only be applied to a table"
  | unresolvedIdentifier _ name => "`" ++ name ++ "` was never resolved"
  | noFixedPoint passes => "types did not settle after " ++ toString passes ++ " passes"
  | unresolved _ kind none => "could not infer the type of this " ++ kind
  | unresolved _ kind (some ty) =>
    "could not infer the type of this " ++ kind ++ " (got " ++ ty.text ++ ")"

def code : TypingError → String
  | tree _ => "E0001"
  | operandMismatch .. => "E0101"
  | invalidOperand .. => "E0102"
  | conditionNotBoolean .. => "E0103"
  | branchMismatch .. => "E0104"
  | unknownField .. | notAnObject .. => "E0105"
  | notAFunction .. => "E0106"
  | arityMismatch .. => "E0107"
  | argumentMismatch .. => "E0108"
  | unknownType .. => "E0109"
  | contextOutsideDefinition _ | unknownContext .. => "E0110"
  | notATable _ => "E0111"
  | unresolvedIdentifier .. => "E0112"
  | noFixedPoint _ => "E0113"
  | unresolved .. => "E0114"

/-- What to write at the underlined place, where the message would say too much. -/
def label? : TypingError → Option String
  | invalidOperand _ _ _ found => some ("this is " ++ found.text)
  | conditionNotBoolean _ found => some ("found " ++ found.text)
  | argumentMismatch _ _ expected _ => some ("expected " ++ expected.text)
  | unknownField _ _ ty => some ("on " ++ ty.text)
  | _ => none

end TypingError

end DerivedTables
