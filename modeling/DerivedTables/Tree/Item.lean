import DerivedTables.Tree.Arena

/-!
Finding the named items of a program in its tree.
-/

namespace DerivedTables.Arena

def isDefinitionOf (a : Arena) (name : String) (id : NodeId) : Bool :=
  match a.kind? id with
  | some (.definition found _) => found == name
  | _ => false

def isAssignmentOf (a : Arena) (name : String) (id : NodeId) : Bool :=
  match a.kind? id with
  | some (.assignment found _) => found == name
  | _ => false

def isPropertyOf (a : Arena) (name : String) (id : NodeId) : Bool :=
  match a.kind? id with
  | some (.column found _) | some (.derived found _) => found == name
  | _ => false

def property? (a : Arena) (root : NodeId) (table property : String) : Option NodeId :=
  match a.kind? root with
  | some (.root definitions _ _) => do
    match a.kind? (← definitions.find? (a.isDefinitionOf table)) with
    | some (.definition _ properties) => properties.find? (a.isPropertyOf property)
    | _ => none
  | _ => none

def derivation? (a : Arena) (root : NodeId) (table property : String) : Option NodeId := do
  match a.kind? (← a.property? root table property) with
  | some (.derived _ derivation) => some derivation
  | _ => none

end DerivedTables.Arena
