import DerivedTables.Tree.Pass
import Std.Data.TreeMap

namespace DerivedTables

structure Redirect where
  target : NodeId
  name : String
  deriving DecidableEq, Repr

abbrev Redirects := Std.TreeMap NodeId Redirect

abbrev Copies := Std.TreeMap NodeId NodeId

namespace Pass

variable {ε ω : Type} [OfTreeError ε]

/-- Copies children before their parent. A node held twice is copied twice, and counts as copied
by the later copy. -/
def copySubtree : Nat → NodeId → Copies → Pass ε ω (NodeId × Copies)
  | 0, id, _ => malformed (.endless id)
  | fuel + 1, id, copies => do
    let node ← node id
    let (children, copies) ← node.kind.children.foldlM
      (fun (children, copies) child => do
        let (copy, copies) ← copySubtree fuel child copies
        return (children ++ [copy], copies))
      (([] : List NodeId), copies)
    let copy ← push { node with kind := node.kind.withChildren children }
    return (copy, copies.insert id copy)

/-- A redirect wins over a copy of the target; any other target stays. -/
def redirected (copies : Copies) (redirects : Redirects) : Kind → Kind
  | .reference target name =>
    match redirects[target]? with
    | some redirect => .reference redirect.target redirect.name
    | none => .reference (copies[target]?.getD target) name
  | kind => kind

def redirectCopies (copies : Copies) (redirects : Redirects) (a : Arena) : Arena :=
  copies.foldl
    (fun a _ copy => a.modify copy fun node =>
      { node with kind := redirected copies redirects node.kind }) a

/-- A fresh copy of a subtree. References into the subtree point into the copy. -/
def deepCopy (root : NodeId) (redirects : Redirects) : Pass ε ω NodeId := do
  let (copy, copies) ← copySubtree ((← arena).size + 1) root ∅
  modifyArena (redirectCopies copies redirects)
  return copy

end Pass

end DerivedTables
