import DerivedTables.Tree.Error

namespace DerivedTables

inductive ScopeError where
  | tree (e : TreeError)
  | unresolved (name : String) (node : NodeId)
  | duplicate (name : String) (node existing : NodeId)
  deriving DecidableEq, Repr

instance : OfTreeError ScopeError := ⟨.tree⟩

namespace ScopeError

def node? : ScopeError → Option NodeId
  | tree e => e.node?
  | unresolved _ node | duplicate _ node _ => some node

def spanIn (e : ScopeError) (a : Arena) : Option Span :=
  match e with
  | tree e => e.spanIn a
  | unresolved _ node | duplicate _ node _ => a.span? node

def message : ScopeError → String
  | tree e => e.message
  | unresolved name _ => "cannot find `" ++ name ++ "` in this scope"
  | duplicate name _ _ => "`" ++ name ++ "` is already defined in this scope"

def code : ScopeError → String
  | tree _ => "E0001"
  | unresolved .. => "E0201"
  | duplicate .. => "E0202"

end ScopeError

end DerivedTables
