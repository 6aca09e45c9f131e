import DerivedTables.Scope.Resolution

/-!
Comparing types that may still be partly open. A table's name equals the object type of its rows.
-/

namespace DerivedTables

inductive Comparison where
  | equal
  | different
  | undecided
  deriving DecidableEq, Repr

namespace Comparison

def ofBool (same : Bool) : Comparison := if same then equal else different

/-- One difference is enough to differ, and nothing open may remain to be equal. -/
def and : Comparison → Comparison → Comparison
  | different, _ | _, different => different
  | undecided, _ | _, undecided => undecided
  | equal, equal => equal

end Comparison

namespace Resolution

/-- The scope a node was resolved in; a node made later counts with its nearest ancestor. -/
def scopeAt (r : Resolution) (node : NodeId) (lineage : List NodeId) : ScopeId :=
  (r.recorded.nearest? node lineage).getD Scopes.outermost

def definition? (r : Resolution) (a : Arena) (name : String) (scope : ScopeId) :
    Option NodeId := do
  let symbol ← r.scopes.lookup? scope name
  match a.kind? symbol.node with
  | some (.definition ..) => some symbol.node
  | _ => none

def column? (a : Arena) (definition : NodeId) (field : String) : Option NodeId :=
  match a.kind? definition with
  | some (.definition _ properties) =>
    properties.find? fun property =>
      match a.kind? property with
      | some (.column name _) | some (.derived name _) => name == field
      | _ => false
  | _ => none

/-- Fields pairwise, by name; parameters pairwise, whatever their names. -/
def compareWithin (r : Resolution) (a : Arena) (scope : ScopeId) : Nat → Ty → Ty → Comparison
  | 0, _, _ => .undecided
  | fuel + 1, s, t =>
    let below (s t : Ty) := r.compareWithin a scope fuel s.effective t.effective
    let pairwise (start : Comparison) (xs ys : Fields) :=
      (xs.toList.zip ys.toList).foldl (fun held (x, y) => held.and (below x.2 y.2)) start
    let expanded (name : String) (object : Ty) :=
      match r.definition? a name scope with
      | none => .different
      | some definition =>
        match a.ty? definition with
        | some (.object fields) => below (.object fields) object
        | _ => .undecided
    match s, t with
    -- An open type decides nothing, whatever stands on the other side.
    | .unknown, _ | _, .unknown => .undecided
    | .string, .string | .number, .number | .boolean, .boolean | .void, .void => .equal
    | .named x, .named y => .ofBool (x == y)
    | .context x, .context y => .ofBool (x == y)
    | .named name, .object fields | .object fields, .named name => expanded name (.object fields)
    | .object xs, .object ys =>
      if xs.names = ys.names then pairwise .equal xs ys else .different
    | .array x, .array y => below x y
    | .function xs x, .function ys y =>
      if xs.names.length = ys.names.length then pairwise (below x y) xs ys else .different
    | _, _ => .different

/-- How deep two types are compared; anything below counts as open. -/
def compareDepth : Nat := 17

def compare (r : Resolution) (a : Arena) (s t : Ty) (scope : ScopeId) : Comparison :=
  r.compareWithin a scope compareDepth s.effective t.effective

end Resolution

end DerivedTables
