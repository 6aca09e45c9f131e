import DerivedTables.Surface.Program

/-!
Short forms for writing programs by hand. Nothing they build has a span.
-/

namespace DerivedTables

namespace Declared

/-- A leading `$` makes a context type, a trailing `[]` an array. -/
def ofText (text : String) : Declared :=
  match text.toList with
  | '$' :: name => .context (String.ofList name)
  | chars =>
    match chars.reverse with
    | ']' :: '[' :: base => .named (String.ofList base.reverse) true
    | _ => .named text false

end Declared

namespace Param

def typed (name declared : String) : Param := ⟨name, some (.ofText declared), none⟩

def untyped (name : String) : Param := ⟨name, none, none⟩

end Param

namespace Expr

def row : Expr := context none "row"

def table (name : String) : Expr := rows none (identifier none name)

def ifOptional (condition thenBranch : Expr) : Option Expr → Expr
  | some elseBranch => ifElse none condition thenBranch elseBranch
  | none => ifThen none condition thenBranch

end Expr

end DerivedTables
