import DerivedTables.Tree.Arena

namespace DerivedTables

inductive TreeError where
  | dangling (node : NodeId)
  | returnNotLast (span : Option Span)
  | letOutsideBlock (span : Option Span)
  | contextColumn (name : String) (span : Option Span)
  | unexpected (node : NodeId) (expected found : String)
  | endless (node : NodeId)
  deriving DecidableEq, Repr

def nodeText (id : NodeId) : String := "#" ++ toString id

namespace TreeError

def node? : TreeError → Option NodeId
  | dangling node | unexpected node _ _ | endless node => some node
  | _ => none

def span? : TreeError → Option Span
  | returnNotLast span | letOutsideBlock span | contextColumn _ span => span
  | _ => none

def message : TreeError → String
  | dangling node => "node " ++ nodeText node ++ " does not exist"
  | returnNotLast _ => "`return` must be the last expression in its block"
  | letOutsideBlock _ => "`let` is only allowed inside a block"
  | contextColumn name _ =>
    "property `" ++ name ++ "` cannot be annotated with a context type"
  | unexpected node expected found =>
    "expected " ++ expected ++ " at " ++ nodeText node ++ ", found " ++ found
  | endless node => "the tree at " ++ nodeText node ++ " contains itself"

/-- The span carried by the error, else that of the node it names. -/
def spanIn (e : TreeError) (a : Arena) : Option Span := e.span?.or (e.node?.bind a.span?)

end TreeError

class OfTreeError (ε : Type) where
  ofTreeError : TreeError → ε

instance : OfTreeError TreeError := ⟨id⟩

def Arena.expect {ε : Type} [OfTreeError ε] (a : Arena) (id : NodeId) : Except ε Kind :=
  match a.kind? id with
  | some kind => .ok kind
  | none => .error (OfTreeError.ofTreeError (.dangling id))

end DerivedTables
