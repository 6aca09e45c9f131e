import DerivedTables.Rows.Error
import DerivedTables.Tree.Pass

/-!
What of a derived column can be stored when its row is written. A part of a derivation that asks
for no argument is written once under a name of its own; what is left is computed on read.
-/

namespace DerivedTables

structure StorageSummary where
  properties : Nat
  writes : Nat
  deriving DecidableEq, Repr

namespace Storage

/-- Whether a value is known only on read: a function, a use of a parameter or of a let, or
anything that holds one. Pipelines and aggregates are maintained, so they are not. -/
def needsReader (a : Arena) : Nat → NodeId → Bool
  | 0, _ => false
  | fuel + 1, id =>
    match a.kind? id with
    | some (.dataset ..) | some (.pipeline ..) | some (.filter _) | some (.reduce ..) => false
    | some (.reference target _) =>
      match a.kind? target with
      | some (.param ..) | some (.binding ..) => true
      | _ => false
    | some (.function ..) => true
    | some kind => kind.children.any (needsReader a fuel)
    | none => false

/-- Whether storing the node would save any work. -/
def isWorthStoring : Kind → Bool
  | .param .. | .string _ | .number _ | .boolean _ | .identifier _ | .function .. | .reference ..
  | .context _ | .null => false
  | _ => true

abbrev Splitting : Type → Type := Pass RowsError (List (String × NodeId))

/-- Writes the node under the next name of the column, and gives the reference to read it by. -/
def store (column : String) (id : NodeId) : Splitting NodeId := do
  let name := column ++ "_int_" ++ toString (← Pass.notes).length
  Pass.modifyNotes (· ++ [(name, id)])
  Pass.push ⟨.reference id name, (← Pass.arena).ty? id, none⟩

/-- Stores every child that is worth it and can be; `late` tells which ones cannot. -/
def storeBelow (column : String) (late : NodeId → Bool) : Nat → NodeId → Splitting Unit
  | 0, id => Pass.malformed (.endless id)
  | fuel + 1, id => do
    let kind ← Pass.kind id
    let children ← kind.children.mapM fun child => do
      if late child then
        storeBelow column late fuel child
        return child
      -- The node itself is not written back yet, so its member name is still found.
      else if isWorthStoring (← Pass.kind child) &&
          !(← Pass.arena).isPropertyName child (some id) then
        store column child
      else return child
    if children ≠ kind.children then
      Pass.setKind id (kind.withChildren children)

def readSide (column : String) (derivation : NodeId) : Splitting NodeId := do
  let a ← Pass.arena
  let late := needsReader a (a.size + 1)
  if late derivation then
    storeBelow column late (a.size + 1) derivation
    return derivation
  else store column derivation

def splitColumn (property : NodeId) (column : String) (derivation : NodeId) : Splitting Unit := do
  let read ← readSide column derivation
  let split ← Pass.push ⟨.split read (← Pass.notes), (← Pass.arena).ty? read, none⟩
  Pass.setKind property (.derived column split)

def unsplit (a : Arena) (root : NodeId) : List (NodeId × String × NodeId) :=
  (a.descendants root).filterMap fun id =>
    match a.kind? id with
    | some (.derived column derivation) =>
      match a.kind? derivation with
      | some (.split ..) => none
      | _ => some (id, column, derivation)
    | _ => none

def splitAll (root : NodeId) : Pass RowsError StorageSummary Unit := do
  for (property, column, derivation) in unsplit (← Pass.arena) root do
    let ⟨a, summary⟩ ← get
    match (splitColumn property column derivation).run ⟨a, []⟩ with
    | .ok () ⟨a, writes⟩ =>
      set (Workspace.mk a (StorageSummary.mk (summary.properties + 1)
        (summary.writes + writes.length)))
    | .error e ⟨a, _⟩ => do
      set (Workspace.mk a summary)
      throw e

end Storage

end DerivedTables
