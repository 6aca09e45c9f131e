import DerivedTables.Tree.Pass

namespace DerivedTables

abbrev Lineage := List NodeId

/-- What to do on entering a node: go on elsewhere, and go on under another state. -/
structure Entry (σ : Type) where
  replacement : Option NodeId
  state : Option σ

namespace Entry

variable {σ : Type}

def keep : Entry σ := ⟨none, none⟩

def replace (id : NodeId) : Entry σ := ⟨some id, none⟩

def withState (state : σ) : Entry σ := ⟨none, some state⟩

end Entry

/-- A visitor sees each node before and after its children. The state it is given comes from the
nearest ancestor that set one. -/
structure Visitor (ε ω σ : Type) where
  before : NodeId → Lineage → σ → Pass ε ω (Entry σ)
  after : NodeId → Lineage → σ → Pass ε ω (Option NodeId)

namespace Visitor

variable {ε ω σ : Type}

def entering (before : NodeId → Lineage → σ → Pass ε ω (Entry σ)) : Visitor ε ω σ :=
  ⟨before, fun _ _ _ => return none⟩

def leaving (after : NodeId → Lineage → σ → Pass ε ω (Option NodeId)) : Visitor ε ω σ :=
  ⟨fun _ _ _ => return .keep, after⟩

variable [OfTreeError ε]

/-- Visits the node, then its children from left to right, then the node again; gives the id that
stands in its place. A replacement on entering is visited from the start, one on leaving is not
visited. The children are those the node has once it is entered, and the node is written back only
when one of them was replaced. -/
def visit (v : Visitor ε ω σ) : Nat → NodeId → Lineage → σ → Pass ε ω NodeId
  | 0, id, _, _ => Pass.malformed (.endless id)
  | fuel + 1, id, lineage, state => do
    discard (Pass.node id)
    let entry ← v.before id lineage state
    let state := entry.state.getD state
    let here := entry.replacement.getD id
    if here ≠ id then
      v.visit fuel here lineage state
    else
      -- Entering may have changed the node, so its children are read only now.
      let kind ← Pass.kind id
      let children ← kind.children.mapM fun child => v.visit fuel child (id :: lineage) state
      if children ≠ kind.children then
        Pass.setKind id (kind.withChildren children)
      return (← v.after id lineage state).getD id

/-- Depth is bounded by the number of nodes there are at the start. -/
def walk (v : Visitor ε ω σ) (root : NodeId) (state : σ) : Pass ε ω NodeId := do
  v.visit ((← Pass.arena).size + 1) root [] state

end Visitor

end DerivedTables
