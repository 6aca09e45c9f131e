import DerivedTables.Scope.Error
import DerivedTables.Tree.Walk
import Std.Data.TreeMap

namespace DerivedTables

/-- A let that only gives another name to a binding. -/
structure Alias where
  target : NodeId
  name : String
  deriving DecidableEq, Repr

namespace Alias

/-- Each removed let, with the binding it stood for in the end. -/
abbrev Aliases := Std.TreeMap NodeId Alias

def enter (node : NodeId) (_ : Lineage) (_ : Unit) : Pass ScopeError Aliases (Entry Unit) := do
  match ← Pass.kind node with
  | .binding _ value next => do
    match ← Pass.kind value with
    | .reference target name => do
      let stood := (← Pass.notes)[target]?.getD ⟨target, name⟩
      Pass.modifyNotes (·.insert node stood)
      return .replace next
    | _ => return .keep
  | .reference target _ => do
    if let some stood := (← Pass.notes)[target]? then
      Pass.setKind node (.reference stood.target stood.name)
    return .keep
  | _ => return .keep

/-- Takes out every let whose value is a reference and points its uses at what it referred to. -/
def removeAll (root : NodeId) : Pass ScopeError Aliases NodeId :=
  (Visitor.entering enter).walk root ()

end Alias

end DerivedTables
