import DerivedTables.Eval.Evaluator

/-!
Keeping an aggregate up to date while rows come and go.
-/

namespace DerivedTables

structure Aggregate where
  source : NodeId
  initial : NodeId
  forward : NodeId
  inverse : NodeId
  view : NodeId
  deriving DecidableEq, Repr

inductive Change (N : Type) where
  | insert (row : Value N)
  | delete (row : Value N)

namespace Aggregate

variable {N : Type} [Arithmetic N]

def of? (a : Arena) (id : NodeId) : Option Aggregate :=
  match a.kind? id with
  | some (.reduce source initial forward inverse view) =>
    some ⟨source, initial, forward, inverse, view⟩
  | _ => none

def start (g : Aggregate) (s : Setting N) : Except Fault (Value N) := Setting.fresh (s.eval g.initial)

/-- An inserted row goes through the forward function, a deleted one through the inverse. -/
def step (g : Aggregate) (s : Setting N) (acc : Value N) : Change N → Except Fault (Value N)
  | .insert row => Setting.fresh (s.call g.forward [acc, row])
  | .delete row => Setting.fresh (s.call g.inverse [acc, row])

def shown (g : Aggregate) (s : Setting N) (acc : Value N) : Except Fault (Value N) :=
  Setting.fresh (s.call g.view [acc])

/-- The accumulator and what it shows, at the start and after each change, up to the first
failure. -/
def history (g : Aggregate) (s : Setting N) :
    Except Fault (Value N) → List (Change N) →
      List (Except Fault (Value N) × Except Fault (Value N))
  | .error fault, _ => [(.error fault, .error fault)]
  | .ok acc, [] => [(.ok acc, g.shown s acc)]
  | .ok acc, change :: rest => (.ok acc, g.shown s acc) :: g.history s (g.step s acc change) rest

end Aggregate

end DerivedTables
