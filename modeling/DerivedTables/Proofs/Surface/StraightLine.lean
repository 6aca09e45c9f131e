import DerivedTables.Proofs.Eval.Settled
import DerivedTables.Proofs.Lowering.Faults

/-!
Expressions without functions and calls, and what they mean.
-/

namespace DerivedTables

mutual
/-- Literals, names in scope, operators, member access, if expressions, and blocks. -/
def Expr.isStraightLine (scope : List String) : Expr → Bool
  | .string .. | .number .. | .boolean .. => true
  | .identifier _ name => scope.contains name
  | .binary _ _ lhs rhs => lhs.isStraightLine scope && rhs.isStraightLine scope
  | .member _ object _ => object.isStraightLine scope
  | .paren _ inner => inner.isStraightLine scope
  | .ifThen _ condition thenBranch =>
    condition.isStraightLine scope && thenBranch.isStraightLine scope
  | .ifElse _ condition thenBranch elseBranch =>
    condition.isStraightLine scope && thenBranch.isStraightLine scope &&
      elseBranch.isStraightLine scope
  | .block _ exprs => blockIsStraightLine scope exprs
  | _ => false
def blockIsStraightLine (scope : List String) : List Expr → Bool
  | [] => true
  | [.ret _ value] => value.isStraightLine scope
  | .ret .. :: _ => false
  | .binding _ name value :: rest =>
    value.isStraightLine scope && blockIsStraightLine (name :: scope) rest
  | .ifThen _ condition thenBranch :: rest =>
    condition.isStraightLine scope && thenBranch.isStraightLine scope &&
      blockIsStraightLine scope rest
  | .ifElse .. :: _ => false
  | expr :: rest => expr.isStraightLine scope && blockIsStraightLine scope rest
end

variable {N : Type}

def choose? (test yes no : Option (Value N)) : Option (Value N) :=
  match test with
  | some (.boolean true) => yes
  | some (.boolean false) => no
  | _ => none

def field? (object : Option (Value N)) (property : String) : Option (Value N) :=
  match object with
  | some (.object fields) => fields.lookup property
  | _ => none

variable [Arithmetic N]

/-- The right operand is asked for only if the left one leaves the value open. -/
def Operator.value? (op : Operator) (lhs : Value N) (rhs : Option (Value N)) : Option (Value N) :=
  match op, lhs with
  | .and, .boolean false => some (.boolean false)
  | .or, .boolean true => some (.boolean true)
  | op, lhs => rhs.bind (op.combine? lhs)

mutual
/-- The value of an expression where each name has the value listed for it first. -/
def Expr.value? (env : List (String × Value N)) : Expr → Option (Value N)
  | .string _ value => some (.string value)
  | .number _ value => some (.number (Arithmetic.literal value))
  | .boolean _ value => some (.boolean value)
  | .identifier _ name => env.lookup name
  | .binary _ op lhs rhs => (lhs.value? env).bind fun u => op.value? u (rhs.value? env)
  | .member _ object property => field? (object.value? env) property
  | .paren _ inner => inner.value? env
  | .ifThen _ condition thenBranch =>
    choose? (condition.value? env) (thenBranch.value? env) (some .null)
  | .ifElse _ condition thenBranch elseBranch =>
    choose? (condition.value? env) (thenBranch.value? env) (elseBranch.value? env)
  | .block _ exprs => blockValue? env exprs
  | _ => none
def blockValue? (env : List (String × Value N)) : List Expr → Option (Value N)
  | [] => some .null
  | [.ret _ value] => value.value? env
  | .ret .. :: _ => none
  | .binding _ name value :: rest =>
    (value.value? env).bind fun v => blockValue? ((name, v) :: env) rest
  | .ifThen _ condition thenBranch :: rest =>
    choose? (condition.value? env) (thenBranch.value? env) (blockValue? env rest)
  | .ifElse .. :: _ => none
  | expr :: rest => (expr.value? env).bind fun _ => blockValue? env rest
end

theorem Expr.Violates.not_straightLine {e : Expr} {fault : TreeError} (violates : e.Violates fault) (scope : List String) :
    e.isStraightLine scope = false ∧ (e.isLet = false → ∀ rest, blockIsStraightLine scope (e :: rest) = false) := by
  induction violates generalizing scope with
  | stray => exact ⟨by simp [isStraightLine], nofun⟩
  | @part e _ _ plain inside _ ih =>
    have ih := (ih scope).1
    cases e with
    | string | number | boolean | identifier | context => cases inside
    | block => cases plain
    | ret span value =>
      obtain rfl := List.mem_singleton.1 inside
      refine ⟨by simp [isStraightLine], fun _ rest => ?_⟩
      cases rest <;> simp [blockIsStraightLine, ih]
    | _ =>
      simp only [parts, List.mem_cons, List.not_mem_nil, or_false] at inside
      grind [isStraightLine, blockIsStraightLine]
  | early => simp [isStraightLine, blockIsStraightLine]
  | element other _ ih => simp [isStraightLine, blockIsStraightLine, (ih scope).2 other]
  | bound _ ih => simp [isStraightLine, blockIsStraightLine, (ih scope).1]
  | @later _ e rest _ _ ih =>
    have ih (scope) : blockIsStraightLine scope rest = false := by simpa [isStraightLine] using (ih scope).1
    have here (scope) : blockIsStraightLine scope (e :: rest) = false := by
      cases e <;> cases rest <;> simp_all [blockIsStraightLine]
    simp [isStraightLine, blockIsStraightLine, here]

end DerivedTables
