import DerivedTables.Typing.Rules

/-!
Types by repetition: the rules run over the whole tree, children first, until a pass changes
nothing; then every node has to have a complete type.
-/

namespace DerivedTables.Typing

/-- The notes say whether the pass has changed a type. -/
abbrev TypePass := Pass TypingError Bool

def retype (env : Resolution) (node : NodeId) (lineage : Lineage) (_ : Unit) :
    TypePass (Option NodeId) := do
  let a ← Pass.arena
  if let some ty ← Pass.ofExcept (infer env a node lineage) then
    if a.ty? node ≠ some ty then
      Pass.modifyArena (·.setTy node ty)
      Pass.modifyNotes fun _ => true
  return none

/-- Repeats passes until one changes nothing and gives their number, the last one included. -/
def settle (env : Resolution) (root : NodeId) : Nat → Nat → TypePass Nat
  | 0, passes => throw (.noFixedPoint passes)
  | remaining + 1, passes => do
    Pass.modifyNotes fun _ => false
    discard ((Visitor.leaving (retype env)).walk root ())
    if ← Pass.notes then settle env root remaining (passes + 1) else return passes + 1

/-- An intent is taken up later and needs no type. -/
def requireComplete (node : NodeId) (_ : Lineage) (_ : Unit) : TypePass (Option NodeId) := do
  let found ← Pass.node node
  match found.ty, found.kind with
  | some ty, kind =>
    if ty.isComplete then return none else throw (.unresolved node kind.name (some ty))
  | none, .intent .. => return none
  | none, kind => throw (.unresolved node kind.name none)

/-- At least one pass is made, whatever the limit. -/
def assignTypes (env : Resolution) (root : NodeId) (limit : Nat) : TypePass Nat := do
  let passes ← settle env root (max limit 1) 0
  discard ((Visitor.leaving requireComplete).walk root ())
  return passes

end DerivedTables.Typing
