import DerivedTables.Proofs.Eval.Settled
import Mathlib.Logic.Relation

/-!
Evaluation in which every activation has bindings of its own.
-/

namespace DerivedTables

variable {N : Type}

namespace Arena

def isBinding (a : Arena) (id : NodeId) : Bool :=
  match a.kind? id with
  | some (.binding ..) => true
  | _ => false

end Arena

namespace Setting

/-- Runs an evaluation and gives back the bindings there were before. -/
def restoring {α : Type} (m : Evaluation N α) : Evaluation N α := do
  let saved ← get
  let x ← m
  set saved
  return x

variable [Arithmetic N]

mutual
def scopedWithin (s : Setting N) : Nat → NodeId → Evaluation N (Value N)
  | 0, id => throw (.tooDeep id)
  | fuel + 1, id => do
    match ← s.kind id with
    | .string value => return .string value
    | .number value => return .number (Arithmetic.literal value)
    | .boolean value => return .boolean value
    | .null => return .null
    | .binary op lhs rhs => binary op lhs rhs (s.scopedWithin fuel)
    | .conditional condition thenBranch elseBranch => do
      if ← asBoolean condition (← s.scopedWithin fuel condition) then
        s.scopedWithin fuel thenBranch
      else s.scopedWithin fuel elseBranch
    | .binding _ value next => do
      let given ← s.scopedWithin fuel value
      restoring do
        bind id given
        s.scopedWithin fuel next
    | .effect expr next => do
      discard (s.scopedWithin fuel expr)
      s.scopedWithin fuel next
    | .access source property => do
      match ← s.kind property with
      | .identifier field => do
        match ← s.scopedWithin fuel source with
        | .object fields =>
          match fields.lookup field with
          | some value => return value
          | none => throw (.missingField id field)
        | other => throw (.mismatch id "object" other.typeName)
      | other => throw (.mismatch property "identifier" other.name)
    | .context name =>
      match s.context.lookup name with
      | some value => return value
      | none => throw (.unbound id ("$" ++ name))
    | .reference target name => do
      match (← get)[target]? with
      | some value => return value
      | none =>
        match ← s.kind target with
        | .column column _ => s.columnValue id name column
        | .derived _ value | .assignment _ value => restoring do
          set (∅ : Bindings N)
          s.scopedWithin fuel value
        | _ => throw (.unbound id name)
    | .invoke callee args => do
      let values ← args.mapM (s.scopedWithin fuel)
      s.scopedCallWithin fuel callee values
    | .assignment _ value => s.scopedWithin fuel value
    | .derived _ derivation => s.scopedWithin fuel derivation
    | .split read writes => restoring do
      writes.forM fun (_, write) => do bind write (← s.scopedWithin fuel write)
      s.scopedWithin fuel read
    | .param name _ => do
      match (← get)[id]? with
      | some value => return value
      | none => throw (.unbound id name)
    | other => throw (.notEvaluable id other.name)
/-- A call binds the parameters for an activation of its own and leaves the caller's bindings alone. -/
def scopedCallWithin (s : Setting N) : Nat → NodeId → List (Value N) → Evaluation N (Value N)
  | 0, id, _ => throw (.tooDeep id)
  | fuel + 1, id, args => restoring do
    let function ← s.scopedCalleeWithin fuel id id
    match ← s.kind function with
    | .function _ params body => do
      if params.length ≠ args.length then
        throw (.arity function params.length args.length)
      (params.zip args).forM fun (param, arg) => bind param arg
      s.scopedWithin fuel body
    | other => throw (.mismatch function "function" other.name)
def scopedCalleeWithin (s : Setting N) : Nat → NodeId → NodeId → Evaluation N NodeId
  | 0, id, _ => throw (.tooDeep id)
  | fuel + 1, callee, current => do
    match ← s.kind current with
    | .function .. => return current
    | .reference target _ => do
      -- A let stands in the same activation; whatever else has a name can name no parameter or let.
      unless s.arena.isBinding target do set (∅ : Bindings N)
      s.scopedCalleeWithin fuel callee target
    | .derived _ derivation => s.scopedCalleeWithin fuel callee derivation
    | .assignment _ value | .binding _ value _ => s.scopedCalleeWithin fuel callee value
    | .split read writes => do
      writes.forM fun (_, write) => do bind write (← s.scopedWithin fuel write)
      s.scopedCalleeWithin fuel callee read
    | other => throw (.mismatch callee "function" other.name)
end

theorem scopedWithin_flat {s : Setting N} {x : NodeId} {k : Kind} (held : s.arena.kind? x = some k)
    (flat : k.isFlat = true) (depth : Nat) : s.scopedWithin (depth + 1) x = s.flatly (s.scopedWithin depth) x k := by
  rw [scopedWithin, kind_of_kind? held, pure_bind]
  cases k with
  | access => exact (s.member_bind _ _).symm
  | _ => first | rfl | cases flat

end Setting

namespace Kind

/-- The orders in which the parts of a node are evaluated, and what is bound after each. -/
def runs (id : NodeId) : Kind → List (List (NodeId × List NodeId))
  | binary _ lhs rhs => [[(lhs, []), (rhs, [])]]
  | conditional condition thenBranch elseBranch =>
    [[(condition, []), (thenBranch, [])], [(condition, []), (elseBranch, [])]]
  | binding _ value next => [[(value, [id]), (next, [])]]
  | effect expr next => [[(expr, []), (next, [])]]
  | access source _ => [[(source, [])]]
  | invoke callee args => [args.map (·, []) ++ [(callee, [])]]
  | assignment _ value => [[(value, [])]]
  | derived _ derivation => [[(derivation, [])]]
  | split read writes => [writes.map (fun write => (write.2, [write.2])) ++ [(read, [])]]
  | _ => []

def isGlobal : Kind → Bool
  | definition .. | column .. | derived .. | assignment .. | function .. => true
  | _ => false

end Kind

namespace Arena

variable (a : Arena)

def code (target : NodeId) : List NodeId :=
  match a.kind? target with
  | some (.binding _ value _) => [value]
  | some (.param ..) | some (.column ..) | some (.definition ..) | none => []
  | some _ => [target]

/-- The node has the other one as a part, or names the code that stands there. -/
def Leads (x y : NodeId) : Prop :=
  ∃ k, a.kind? x = some k ∧ (y ∈ k.entered ∨ ∃ target name, k = .reference target name ∧ y ∈ a.code target)

def Reaches : NodeId → NodeId → Prop := Relation.ReflTransGen a.Leads

/-- Evaluating the node may bind the other one. -/
def Rebinds (x y : NodeId) : Prop := ∃ z k, a.Reaches x z ∧ a.kind? z = some k ∧ y ∈ k.binds z

/-- The node, or a let that it names, reads the other one, which is bound around it. -/
inductive Free : NodeId → NodeId → Prop
  | read {x y : NodeId} {name : String} (held : a.kind? x = some (.reference y name))
    (within : ∀ k, a.kind? y = some k → k.isGlobal = false) : Free x y
  | named {x y b v next : NodeId} {shown name : String} (held : a.kind? x = some (.reference b shown))
    (bound : a.kind? b = some (.binding name v next)) (inside : Free v y) : Free x y
  | part {x y c : NodeId} {k : Kind} {before after : List (NodeId × List NodeId)} {bound : List NodeId}
    (held : a.kind? x = some k) (run : before ++ (c, bound) :: after ∈ k.runs x) (inside : Free c y)
    (open_ : ∀ step ∈ before, y ∉ step.2) : Free x y
  | body {x y b : NodeId} {name : Option String} {params : List NodeId}
    (held : a.kind? x = some (.function name params b)) (inside : Free b y) (open_ : y ∉ params) :
    Free x y

def FreeIn (run : List (NodeId × List NodeId)) (y : NodeId) : Prop :=
  ∃ before c bound after, run = before ++ (c, bound) :: after ∧ a.Free c y ∧ ∀ step ∈ before, y ∉ step.2

/-- No part binds what a later part reads, other than what is bound after it anyway. -/
def Steady : List (NodeId × List NodeId) → Prop
  | [] => True
  | (c, bound) :: rest => (∀ y, a.FreeIn rest y → y ∉ bound → ¬ a.Rebinds c y) ∧ Steady rest

/-- Whatever the node reaches, no parameter or let is read after something that may bind it again. -/
def Undisturbed (x : NodeId) : Prop :=
  ∀ y k, a.Reaches x y → a.kind? y = some k → ∀ run ∈ k.runs y, a.Steady run

end Arena

end DerivedTables
