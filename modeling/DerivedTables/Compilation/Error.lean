import DerivedTables.Rows.Error
import DerivedTables.Scope.Error
import DerivedTables.Source.Report
import DerivedTables.Typing.Error

namespace DerivedTables

/-- Why a program does not compile. The place is looked up while the tree is at hand. -/
inductive CompileError where
  | tree (e : TreeError)
  | scope (e : ScopeError) (span : Option Span)
  | typing (e : TypingError) (span : Option Span)
  | rows (e : RowsError) (span : Option Span)
  deriving DecidableEq, Repr

namespace CompileError

def span? : CompileError → Option Span
  | tree e => e.span?
  | scope _ span | typing _ span | rows _ span => span

def message : CompileError → String
  | tree e => e.message
  | scope e _ => e.message
  | typing e _ => e.message
  | rows e _ => e.message

def code : CompileError → String
  | tree _ => "E0001"
  | scope e _ => e.code
  | typing e _ => e.code
  | rows e _ => e.code

def line (e : CompileError) (source file : String) : String :=
  let place :=
    match e.span? with
    | some span =>
      let position := (Lines.ofText source).position span.start
      ":" ++ toString position.line.toNat ++ ":" ++ toString position.column.toNat
    | none => ""
  file ++ place ++ ": error[" ++ e.code ++ "]: " ++ e.message

def report (e : CompileError) (source : String) : String :=
  (Report.mk e.code e.message e.span? e.message).text source

end CompileError

namespace TypingError

def report (e : TypingError) (a : Arena) (source : String) : String :=
  (Report.mk e.code e.message (e.spanIn a) (e.label?.getD e.message)).text source

end TypingError

end DerivedTables
