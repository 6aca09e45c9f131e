import DerivedTables.Tree.Node

namespace DerivedTables

/-- Nodes in the order they were made. A node keeps its position for good: nothing is removed, and
a node that is no longer held by another simply stays behind. -/
structure Arena where
  nodes : Array Node

namespace Arena

def empty : Arena := ⟨#[]⟩

def size (a : Arena) : Nat := a.nodes.size

def node? (a : Arena) (id : NodeId) : Option Node := a.nodes[id]?

def kind? (a : Arena) (id : NodeId) : Option Kind := (a.node? id).map Node.kind

def ty? (a : Arena) (id : NodeId) : Option Ty := (a.node? id).bind Node.ty

def span? (a : Arena) (id : NodeId) : Option Span := (a.node? id).bind Node.span

/-- The new node's id is the old size. -/
def push (a : Arena) (node : Node) : Arena := ⟨a.nodes.push node⟩

def modify (a : Arena) (id : NodeId) (change : Node → Node) : Arena :=
  ⟨a.nodes.modify id change⟩

def setKind (a : Arena) (id : NodeId) (kind : Kind) : Arena :=
  a.modify id fun node => { node with kind }

def setTy (a : Arena) (id : NodeId) (ty : Ty) : Arena :=
  a.modify id fun node => { node with ty := some ty }

def setSpan (a : Arena) (id : NodeId) (span : Option Span) : Arena :=
  a.modify id fun node => { node with span }

@[simp] theorem size_push (a : Arena) (node : Node) : (a.push node).size = a.size + 1 := by
  simp [push, size]

@[simp] theorem size_modify (a : Arena) (id : NodeId) (change : Node → Node) :
    (a.modify id change).size = a.size := by
  simp [modify, size]

theorem node?_push (a : Arena) (node : Node) (id : NodeId) :
    (a.push node).node? id = if id = a.size then some node else a.node? id := by
  exact Array.getElem?_push ..

theorem node?_modify (a : Arena) (id other : NodeId) (change : Node → Node) :
    (a.modify id change).node? other =
      if id = other then (a.node? other).map change else a.node? other := by
  exact Array.getElem?_modify ..

def identifier? (a : Arena) (id : NodeId) : Option String :=
  match a.kind? id with
  | some (.identifier name) => some name
  | _ => none

/-- The member name of an access is an identifier that names no binding. -/
def isPropertyName (a : Arena) (id : NodeId) (parent : Option NodeId) : Bool :=
  match parent.bind a.kind? with
  | some (.access _ property) => property == id
  | _ => false

/-- Node and descendants before later siblings, as deep as the fuel goes. -/
def preorder (a : Arena) : Nat → NodeId → List NodeId
  | 0, _ => []
  | fuel + 1, id =>
    id :: match a.kind? id with
      | some kind => kind.children.flatMap (a.preorder fuel)
      | none => []

/-- A path without repetition is no longer than the arena, so trees are listed in full. -/
def descendants (a : Arena) (id : NodeId) : List NodeId := a.preorder (a.size + 1) id

/-- The definition a reference leads to. -/
def definitionOf? (a : Arena) (id : NodeId) : Option (NodeId × String) :=
  match a.kind? id with
  | some (.reference target _) =>
    match a.kind? target with
    | some (.definition name _) => some (target, name)
    | _ => none
  | _ => none

end Arena

end DerivedTables
