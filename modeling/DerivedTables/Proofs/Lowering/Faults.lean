import DerivedTables.Surface.Program
import DerivedTables.Tree.Error

/-!
What a program can be refused for.
-/

namespace DerivedTables

namespace Expr

def parts : Expr → List Expr
  | string .. | number .. | boolean .. | identifier .. | context .. => []
  | binary _ _ lhs rhs => [lhs, rhs]
  | member _ object _ => [object]
  | lambda _ _ body => [body]
  | call _ callee args => callee :: args
  | ifThen _ condition thenBranch => [condition, thenBranch]
  | ifElse _ condition thenBranch elseBranch => [condition, thenBranch, elseBranch]
  | binding _ _ value | ret _ value | rows _ value | paren _ value => [value]
  | block _ exprs => exprs

def isLet : Expr → Bool
  | binding .. => true
  | _ => false

theorem isLet_eq_false {e : Expr} (other : ∀ span name value, e ≠ binding span name value) : e.isLet = false := by
  cases e with
  | binding => exact absurd rfl (other _ _ _)
  | _ => rfl

def isBlock : Expr → Bool
  | block .. => true
  | _ => false

/-- What an expression is refused for: somewhere in it there is a let that is no element of a block, or a
return that is an element of a block and not its last one. -/
inductive Violates : Expr → TreeError → Prop
  | stray (span : Option Span) (name : String) (value : Expr) :
    Violates (binding span name value) (.letOutsideBlock span)
  | part {e part : Expr} {fault : TreeError} (plain : e.isBlock = false) (inside : part ∈ e.parts)
    (violates : Violates part fault) : Violates e fault
  | early (span place : Option Span) (value next : Expr) (rest : List Expr) :
    Violates (block span (ret place value :: next :: rest)) (.returnNotLast place)
  | element {span : Option Span} {e : Expr} {rest : List Expr} {fault : TreeError} (other : e.isLet = false)
    (violates : Violates e fault) : Violates (block span (e :: rest)) fault
  | bound {span place : Option Span} {name : String} {value : Expr} {rest : List Expr} {fault : TreeError}
    (violates : Violates value fault) : Violates (block span (binding place name value :: rest)) fault
  | later {span : Option Span} {e : Expr} {rest : List Expr} {fault : TreeError}
    (violates : Violates (block span rest) fault) : Violates (block span (e :: rest)) fault

def AnyViolates (es : List Expr) (fault : TreeError) : Prop := ∃ e ∈ es, e.Violates fault

variable {e value : Expr} {fault : TreeError} {span place : Option Span} {rest : List Expr}

theorem violates_iff (plain : e.isBlock = false) (other : e.isLet = false) :
    e.Violates fault ↔ AnyViolates e.parts fault := by
  refine ⟨fun violates => ?_, fun ⟨part, inside, violates⟩ => .part plain inside violates⟩
  cases violates with
  | stray => cases other
  | part _ inside violates => exact ⟨_, inside, violates⟩
  | early | element | bound | later => cases plain

theorem not_violates_empty : ¬ (block span []).Violates fault := by
  rintro ⟨⟩
  rename_i plain _ _
  cases plain

theorem violates_cons (other : e.isLet = false) (going : rest ≠ [] → ∀ place value, e ≠ ret place value) :
    (block span (e :: rest)).Violates fault ↔ e.Violates fault ∨ (block span rest).Violates fault := by
  refine ⟨fun violates => ?_, fun violates => violates.elim (.element other) .later⟩
  cases violates with
  | part plain => cases plain
  | early => exact absurd rfl (going (by simp) _ _)
  | element _ violates => exact .inl violates
  | bound => cases other
  | later violates => exact .inr violates

theorem violates_let {name : String} : (block span (binding place name value :: rest)).Violates fault ↔
    value.Violates fault ∨ (block span rest).Violates fault := by
  refine ⟨fun violates => ?_, fun violates => violates.elim .bound .later⟩
  cases violates with
  | part plain => cases plain
  | element other => cases other
  | bound violates => exact .inl violates
  | later violates => exact .inr violates

end Expr

/-- What a member of a table is refused for: a column has no context type. -/
def Member.Violates : Member → TreeError → Prop
  | .property _ (.named ..) _, _ => False
  | .property name (.context _) span, fault => fault = .contextColumn name span
  | .derived _ expr _, fault | .method _ _ expr _, fault => expr.Violates fault

def Statement.expr? : Statement → Option Expr
  | .expression expr => some expr
  | _ => none

/-- What a table or an assignment is refused for. -/
def Statement.Violates : Statement → TreeError → Prop
  | .definition _ members _, fault => ∃ member ∈ members, member.Violates fault
  | .assignment _ value _, fault => value.Violates fault
  | .expression _, _ => False

/-- What a program is refused for. -/
def Program.Violates (program : Program) (fault : TreeError) : Prop :=
  (∃ statement ∈ program.statements, statement.Violates fault) ∨
    (Expr.block none (program.statements.filterMap Statement.expr?)).Violates fault

end DerivedTables
