import DerivedTables.Tree.Node
import Std.Data.TreeMap

namespace DerivedTables

abbrev ScopeId := Nat

/-- A binding: the node that declares the name, and the scope it opens unless it is a leaf. -/
structure Symbol where
  node : NodeId
  scope : Option ScopeId
  deriving DecidableEq, Repr

structure Scope where
  parent : Option ScopeId
  symbols : Std.TreeMap String Symbol

/-- Scopes in the order they were opened; the first is the outermost, and every other has an
earlier one as its parent. -/
structure Scopes where
  all : Array Scope

namespace Scopes

def initial : Scopes := ⟨#[⟨none, ∅⟩]⟩

def outermost : ScopeId := 0

def size (s : Scopes) : Nat := s.all.size

def scope? (s : Scopes) (id : ScopeId) : Option Scope := s.all[id]?

def parent? (s : Scopes) (id : ScopeId) : Option ScopeId := (s.scope? id).bind Scope.parent

def symbol? (s : Scopes) (id : ScopeId) (name : String) : Option Symbol :=
  (s.scope? id).bind fun scope => scope.symbols[name]?

def nested (s : Scopes) (parent : ScopeId) : ScopeId × Scopes :=
  (s.size, ⟨s.all.push ⟨some parent, ∅⟩⟩)

def insert (s : Scopes) (id : ScopeId) (name : String) (symbol : Symbol) : Scopes :=
  ⟨s.all.modify id fun scope => { scope with symbols := scope.symbols.insert name symbol }⟩

/-- Binds a name and gives the scope in which the declaring node's parts are looked up: the scope
itself for a leaf, else one opened inside it. A name is bound once in a scope. -/
def bind (s : Scopes) (id : ScopeId) (name : String) (node : NodeId) (leaf : Bool) :
    Except Symbol (ScopeId × Scopes) :=
  match s.symbol? id name with
  | some existing => .error existing
  | none =>
    if leaf then .ok (id, s.insert id name ⟨node, none⟩)
    else
      let (child, s) := s.nested id
      .ok (child, s.insert id name ⟨node, some child⟩)

def lookupWithin (s : Scopes) (name : String) : Nat → ScopeId → Option Symbol
  | 0, _ => none
  | fuel + 1, id =>
    match s.symbol? id name with
    | some symbol => some symbol
    | none => (s.parent? id).bind (s.lookupWithin name fuel)

def lookup? (s : Scopes) (id : ScopeId) (name : String) : Option Symbol :=
  s.lookupWithin name s.size id

def lookupOuter? (s : Scopes) (id : ScopeId) (name : String) : Option Symbol :=
  (s.parent? id).bind (s.lookup? · name)

def names (s : Scopes) (id : ScopeId) : List (String × Symbol) :=
  match s.scope? id with
  | some scope => scope.symbols.toList
  | none => []

end Scopes

/-- The scope in which each node was entered. -/
abbrev ScopeMap := Std.TreeMap NodeId ScopeId

namespace ScopeMap

/-- The scope of the node, else of its nearest ancestor that has one. -/
def nearest? (m : ScopeMap) (node : NodeId) (ancestors : List NodeId) : Option ScopeId :=
  (node :: ancestors).findSome? (m[·]?)

end ScopeMap

end DerivedTables
