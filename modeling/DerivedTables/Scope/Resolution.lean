import DerivedTables.Scope.Error
import DerivedTables.Scope.Scopes
import DerivedTables.Tree.Walk

/-!
Binding names. One walk opens the scopes and turns every identifier that is not a member name into
a reference to the node that declares it. Tables, assignments and columns are declared before the
walk reaches them, so the order they are written in does not matter; a let is visible in what
follows it and not in its own value.
-/

namespace DerivedTables

structure Resolution where
  scopes : Scopes
  recorded : ScopeMap

namespace Resolution

def initial : Resolution := ⟨.initial, ∅⟩

structure Notes where
  result : Resolution
  declared : Std.TreeMap NodeId ScopeId

abbrev Resolving := Pass ScopeError Notes

def bind (scope : ScopeId) (name : String) (node : NodeId) (leaf : Bool) : Resolving ScopeId := do
  match (← Pass.notes).result.scopes.bind scope name node leaf with
  | .ok (inner, scopes) =>
    Pass.modifyNotes fun n => { n with result := { n.result with scopes } }
    return inner
  | .error existing => throw (.duplicate name node existing.node)

def nested (scope : ScopeId) : Resolving ScopeId := do
  let (inner, scopes) := (← Pass.notes).result.scopes.nested scope
  Pass.modifyNotes fun n => { n with result := { n.result with scopes } }
  return inner

/-- The name a node declares ahead of the walk, and whether it is a leaf. -/
def declaration? : Kind → Option (String × Bool)
  | .definition name _ | .assignment name _ | .derived name _ => some (name, false)
  | .column name _ => some (name, true)
  | _ => none

def declare (scope : ScopeId) (node : NodeId) : Resolving Unit := do
  match declaration? (← Pass.kind node) with
  | some (name, leaf) =>
    let inner ← bind scope name node leaf
    Pass.modifyNotes fun n => { n with declared := n.declared.insert node inner }
  | none => return ()

def bindParams (scope : ScopeId) (params : List NodeId) : Resolving Unit :=
  params.forM fun param => do
    match ← Pass.kind param with
    | .param name _ => discard (bind scope name param true)
    | _ => return ()

/-- Each let opens a scope of its own, so it may reuse any name around it. -/
def enter (node : NodeId) (_ : Lineage) (scope : ScopeId) : Resolving (Entry ScopeId) := do
  Pass.modifyNotes fun n =>
    { n with result := { n.result with recorded := n.result.recorded.insert node scope } }
  -- What was declared ahead is not bound a second time.
  match ← Pass.kind node, (← Pass.notes).declared[node]? with
  | .root definitions assignments _, _ => do
    (definitions ++ assignments).forM (declare scope)
    return .keep
  | .definition _ properties, some inner => do
    properties.forM (declare inner)
    return .withState inner
  | _, some inner => return .withState inner
  | .definition name _, none | .derived name _, none | .assignment name _, none =>
    return .withState (← bind scope name node false)
  | .binding name _ _, none => return .withState (← bind (← nested scope) name node false)
  | .column name _, none => return .withState (← bind scope name node true)
  | .function name params _, none => do
    let inner ← match name with
      | some name => bind scope name node false
      | none => nested scope
    bindParams inner params
    return .withState inner
  | _, none => return .keep

/-- The path from a node through its ancestors passes through the value of this let. -/
def inOwnValue (a : Arena) (binding : NodeId) : List NodeId → Bool
  | child :: parent :: rest =>
    (parent == binding &&
      match a.kind? binding with
      | some (.binding _ value _) => child == value
      | _ => false) || inOwnValue a binding (parent :: rest)
  | _ => false

/-- Goes outwards past every let in whose own value the path lies. -/
def outward (a : Arena) (scopes : Scopes) (name : String) (path : List NodeId) :
    Nat → Option Symbol → Option Symbol
  | _, none => none
  | 0, _ => none
  | fuel + 1, some symbol =>
    if inOwnValue a symbol.node path then do
      let boundIn ← scopes.parent? (← symbol.scope)
      outward a scopes name path fuel (scopes.lookupOuter? boundIn name)
    else some symbol

def lookup? (a : Arena) (scopes : Scopes) (scope : ScopeId) (name : String)
    (path : List NodeId) : Option Symbol :=
  outward a scopes name path (scopes.size + 1) (scopes.lookup? scope name)

def leave (node : NodeId) (lineage : Lineage) (scope : ScopeId) : Resolving (Option NodeId) := do
  match ← Pass.kind node with
  | .identifier name => do
    let a ← Pass.arena
    if a.isPropertyName node lineage.head? then return none
    match lookup? a (← Pass.notes).result.scopes scope name (node :: lineage) with
    | some symbol => Pass.setKind node (.reference symbol.node name)
    | none => throw (.unresolved name node)
    return none
  | _ => return none

def visitor : Visitor ScopeError Notes ScopeId := ⟨enter, leave⟩

def resolveNames (root : NodeId) : Resolving NodeId :=
  visitor.walk root Scopes.outermost

end Resolution

end DerivedTables
