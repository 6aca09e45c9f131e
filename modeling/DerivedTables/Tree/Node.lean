import DerivedTables.Operator
import DerivedTables.Source.Span
import DerivedTables.Ty

namespace DerivedTables

abbrev NodeId := Nat

/-- What a node is. Children are held by id; `reference` and `dataset` point at a node without
holding it. -/
inductive Kind where
  | root (definitions assignments : List NodeId) (expressions : NodeId)
  | definition (name : String) (properties : List NodeId)
  | column (name : String) (declared : Ty)
  | derived (name : String) (derivation : NodeId)
  | split (read : NodeId) (writes : List (String × NodeId))
  | assignment (name : String) (value : NodeId)
  | string (value : String)
  | number (value : Float)
  | boolean (value : Bool)
  | identifier (name : String)
  | binary (op : Operator) (lhs rhs : NodeId)
  | access (source property : NodeId)
  | function (name : Option String) (params : List NodeId) (body : NodeId)
  | invoke (callee : NodeId) (args : List NodeId)
  | conditional (condition thenBranch elseBranch : NodeId)
  | binding (name : String) (value next : NodeId)
  | effect (expr next : NodeId)
  | rows (operand : NodeId)
  | context (name : String)
  | param (name : String) (declared : Option Ty)
  | null
  | reference (target : NodeId) (name : String)
  | dataset (name : String) (definition : NodeId)
  | filter (predicate : NodeId)
  | pipeline (source : NodeId) (stages : List NodeId)
  | intent (member : RowMember) (source : NodeId)
  | reduce (source initial forward inverse view : NodeId)

namespace Kind

def name : Kind → String
  | root .. => "root"
  | definition .. => "definition"
  | column .. => "simple property"
  | derived .. => "derived property"
  | split .. => "read/write split"
  | assignment .. => "assignment"
  | string .. => "string literal"
  | number .. => "number literal"
  | boolean .. => "boolean literal"
  | identifier .. => "identifier"
  | binary .. => "binary operator"
  | access .. => "property access"
  | function .. => "function"
  | invoke .. => "invocation"
  | conditional .. => "conditional"
  | binding .. => "let binding"
  | effect .. => "side effect"
  | rows .. => "array marker"
  | context .. => "context value"
  | param .. => "parameter"
  | null => "null"
  | reference .. => "reference"
  | dataset .. => "dataset"
  | filter .. => "filter"
  | pipeline .. => "pipeline"
  | intent .. => "pipeline intent"
  | reduce .. => "reduce"

def isLiteral : Kind → Bool
  | string _ | number _ | boolean _ => true
  | _ => false

def children : Kind → List NodeId
  | root definitions assignments expressions => definitions ++ assignments ++ [expressions]
  | definition _ properties => properties
  | derived _ derivation => [derivation]
  | split read writes => writes.map Prod.snd ++ [read]
  | assignment _ value => [value]
  | binary _ lhs rhs => [lhs, rhs]
  | access source property => [source, property]
  | function _ params body => params ++ [body]
  | invoke callee args => callee :: args
  | conditional condition thenBranch elseBranch => [condition, thenBranch, elseBranch]
  | binding _ value next => [value, next]
  | effect expr next => [expr, next]
  | rows operand => [operand]
  | filter predicate => [predicate]
  | pipeline source stages => source :: stages
  | intent _ source => [source]
  | reduce source initial forward inverse view => [source, initial, forward, inverse, view]
  | column .. | string _ | number _ | boolean _ | identifier _ | context _ | param .. | null
  | reference .. | dataset .. => []

/-- The same node over other children; a list that does not fill the slots is not taken. -/
def withChildren (kind : Kind) (filled : List NodeId) : Kind :=
  match kind, filled with
  | root definitions assignments expressions, filled =>
    let rest := filled.drop definitions.length
    root (filled.take definitions.length) (rest.take assignments.length)
      ((rest.drop assignments.length).headD expressions)
  | definition name _, filled => definition name filled
  | derived name _, [derivation] => derived name derivation
  | split read writes, filled =>
    split ((filled.drop writes.length).headD read) ((writes.map Prod.fst).zip filled)
  | assignment name _, [value] => assignment name value
  | binary op _ _, [lhs, rhs] => binary op lhs rhs
  | access _ _, [source, property] => access source property
  | function name params body, filled =>
    function name (filled.take params.length) ((filled.drop params.length).headD body)
  | invoke _ _, callee :: args => invoke callee args
  | conditional _ _ _, [condition, thenBranch, elseBranch] =>
    conditional condition thenBranch elseBranch
  | binding name _ _, [value, next] => binding name value next
  | effect _ _, [expr, next] => effect expr next
  | rows _, [operand] => rows operand
  | filter _, [predicate] => filter predicate
  | pipeline _ _, source :: stages => pipeline source stages
  | intent member _, [source] => intent member source
  | reduce .., [source, initial, forward, inverse, view] =>
    reduce source initial forward inverse view
  | kind, _ => kind

@[simp] theorem withChildren_children (kind : Kind) :
    kind.withChildren kind.children = kind := by
  cases kind with
  | root definitions assignments expressions => simp [children, withChildren]
  | split read writes =>
    have back : (writes.map Prod.fst).zip (writes.map Prod.snd ++ [read]) = writes := by
      induction writes with
      | nil => simp
      | cons write rest ih => simp [ih]
    simp [children, withChildren, back]
  | function name params body => simp [children, withChildren]
  | _ => rfl

theorem children_withChildren (kind : Kind) (filled : List NodeId)
    (fits : filled.length = kind.children.length) :
    (kind.withChildren filled).children = filled := by
  cases kind with
  | root definitions assignments expressions =>
    simp only [children, List.length_append, List.length_cons, List.length_nil] at fits
    have last : (filled.drop (definitions.length + assignments.length)).length = 1 := by
      simp only [List.length_drop]; omega
    obtain ⟨tail, split⟩ := List.length_eq_one_iff.1 last
    have back := List.take_append_drop (definitions.length + assignments.length) filled
    simp only [children, withChildren, List.drop_drop, split, List.headD_cons]
    rw [split, List.take_add] at back
    exact back
  | split read writes =>
    simp only [children, List.length_append, List.length_map, List.length_cons,
      List.length_nil] at fits
    have last : (filled.drop writes.length).length = 1 := by
      simp only [List.length_drop]; omega
    obtain ⟨tail, split⟩ := List.length_eq_one_iff.1 last
    have back := List.take_append_drop writes.length filled
    rw [split] at back
    have seconds (names : List String) (ids : List NodeId) :
        (names.zip ids).map Prod.snd = ids.take names.length := by
      induction names generalizing ids with
      | nil => simp
      | cons name rest ih => cases ids <;> simp [ih]
    simp only [children, withChildren, seconds, List.length_map, split, List.headD_cons]
    exact back
  | function name params body =>
    simp only [children, List.length_append, List.length_cons, List.length_nil] at fits
    have last : (filled.drop params.length).length = 1 := by
      simp only [List.length_drop]; omega
    obtain ⟨tail, split⟩ := List.length_eq_one_iff.1 last
    have back := List.take_append_drop params.length filled
    simp only [children, withChildren, split, List.headD_cons]
    rw [split] at back
    exact back
  | definition name properties => rfl
  | _ =>
    rcases filled with _ | ⟨a, _ | ⟨b, _ | ⟨c, _ | ⟨d, _ | ⟨e, _ | ⟨f, rest⟩⟩⟩⟩⟩⟩ <;>
      simp_all [children, withChildren]

end Kind

structure Node where
  kind : Kind
  ty : Option Ty
  span : Option Span

end DerivedTables
