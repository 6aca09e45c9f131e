import DerivedTables.Tree.Error

namespace DerivedTables

structure Workspace (ω : Type) where
  arena : Arena
  notes : ω

/-- A pass that fails leaves the arena and its notes as they were at that moment. -/
abbrev Pass (ε ω : Type) : Type → Type := EStateM ε (Workspace ω)

namespace Pass

variable {ε ω : Type}

def arena : Pass ε ω Arena := do return (← get).arena

def notes : Pass ε ω ω := do return (← get).notes

def modifyArena (change : Arena → Arena) : Pass ε ω Unit :=
  modify fun w => { w with arena := change w.arena }

def modifyNotes (change : ω → ω) : Pass ε ω Unit :=
  modify fun w => { w with notes := change w.notes }

def push (node : Node) : Pass ε ω NodeId := do
  let id := (← arena).size
  modifyArena (·.push node)
  return id

def alloc (kind : Kind) : Pass ε ω NodeId := push ⟨kind, none, none⟩

def allocSpanned (kind : Kind) (span : Option Span) : Pass ε ω NodeId := push ⟨kind, none, span⟩

def allocTyped (kind : Kind) (ty : Ty) : Pass ε ω NodeId := push ⟨kind, some ty, none⟩

def ofExcept {α : Type} : Except ε α → Pass ε ω α
  | .ok value => return value
  | .error e => throw e

def setKind (id : NodeId) (kind : Kind) : Pass ε ω Unit := modifyArena (·.setKind id kind)

variable [OfTreeError ε]

def malformed {α : Type} (e : TreeError) : Pass ε ω α := throw (OfTreeError.ofTreeError e)

def node (id : NodeId) : Pass ε ω Node := do
  match (← arena).node? id with
  | some node => return node
  | none => malformed (.dangling id)

def kind (id : NodeId) : Pass ε ω Kind := do return (← node id).kind

end Pass

end DerivedTables
