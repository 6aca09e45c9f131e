import DerivedTables.Operator
import DerivedTables.Source.Span

/-!
Programs as they are handed over: tables with columns, derived columns and methods, assignments,
and expressions. Everything may carry the span it was read from.
-/

namespace DerivedTables

inductive Declared where
  | named (base : String) (isArray : Bool)
  | context (name : String)
  deriving DecidableEq, Repr

structure Param where
  name : String
  declared : Option Declared
  span : Option Span
  deriving DecidableEq, Repr

inductive Expr where
  | string (span : Option Span) (value : String)
  | number (span : Option Span) (value : Float)
  | boolean (span : Option Span) (value : Bool)
  | identifier (span : Option Span) (name : String)
  | context (span : Option Span) (name : String)
  | binary (span : Option Span) (op : Operator) (lhs rhs : Expr)
  | member (span : Option Span) (object : Expr) (property : String)
  | lambda (span : Option Span) (params : List Param) (body : Expr)
  | call (span : Option Span) (callee : Expr) (args : List Expr)
  | ifThen (span : Option Span) (condition thenBranch : Expr)
  | ifElse (span : Option Span) (condition thenBranch elseBranch : Expr)
  | binding (span : Option Span) (name : String) (value : Expr)
  | block (span : Option Span) (exprs : List Expr)
  | ret (span : Option Span) (value : Expr)
  | rows (span : Option Span) (operand : Expr)
  | paren (span : Option Span) (inner : Expr)

namespace Expr

def span : Expr → Option Span
  | string s _ | number s _ | boolean s _ | identifier s _ | context s _ | binary s _ _ _
  | member s _ _ | lambda s _ _ | call s _ _ | ifThen s _ _ | ifElse s _ _ _ | binding s _ _
  | block s _ | ret s _ | rows s _ | paren s _ => s

def withSpan (s : Option Span) : Expr → Expr
  | string _ value => string s value
  | number _ value => number s value
  | boolean _ value => boolean s value
  | identifier _ name => identifier s name
  | context _ name => context s name
  | binary _ op lhs rhs => binary s op lhs rhs
  | member _ object property => member s object property
  | lambda _ params body => lambda s params body
  | call _ callee args => call s callee args
  | ifThen _ condition thenBranch => ifThen s condition thenBranch
  | ifElse _ condition thenBranch elseBranch => ifElse s condition thenBranch elseBranch
  | binding _ name value => binding s name value
  | block _ exprs => block s exprs
  | ret _ value => ret s value
  | rows _ operand => rows s operand
  | paren _ inner => paren s inner

@[simp] theorem span_withSpan (s : Option Span) (e : Expr) : (e.withSpan s).span = s := by
  cases e <;> rfl

end Expr

inductive Member where
  | property (name : String) (declared : Declared) (span : Option Span)
  | derived (name : String) (expr : Expr) (span : Option Span)
  | method (name : String) (params : List Param) (body : Expr) (span : Option Span)

namespace Member

def name : Member → String
  | property name _ _ | derived name _ _ | method name _ _ _ => name

end Member

inductive Statement where
  | definition (name : String) (members : List Member) (span : Option Span)
  | assignment (name : String) (value : Expr) (span : Option Span)
  | expression (expr : Expr)

structure Program where
  statements : List Statement

namespace Program

def memberPaths (program : Program) : List String :=
  program.statements.flatMap fun
    | .definition name members _ => members.map fun member => name ++ "." ++ member.name
    | _ => []

end Program

end DerivedTables
