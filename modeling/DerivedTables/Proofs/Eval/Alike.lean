import DerivedTables.Tree.Arena
import Mathlib.Data.List.Forall2

/-!
What evaluation sees of a node.
-/

namespace DerivedTables

namespace Kind

variable {k : Kind} {f : NodeId → NodeId}

def isInert : Kind → Bool
  | root .. | definition .. | rows _ | filter _ | pipeline .. | intent .. | reduce ..
  | dataset .. => true
  | _ => false

def entered : Kind → List NodeId
  | function _ _ body => [body]
  | access source _ => [source]
  | kind => if kind.isInert then [] else kind.children

theorem mem_children_of_entered {c : NodeId} (part : c ∈ k.entered) : c ∈ k.children := by
  cases k <;> simp_all [entered, isInert, children]

def isItem : Kind → Bool
  | column .. | derived .. | assignment .. => true
  | _ => false

inductive Alike (node binder : NodeId → NodeId → Prop) (idle : NodeId → Prop) (x y : NodeId) :
    Kind → Kind → Prop
  | string (value : String) : Alike node binder idle x y (string value) (string value)
  | number (value : Float) : Alike node binder idle x y (number value) (number value)
  | boolean (value : Bool) : Alike node binder idle x y (boolean value) (boolean value)
  | null : Alike node binder idle x y null null
  | identifier (name : String) : Alike node binder idle x y (identifier name) (identifier name)
  | context (name : String) : Alike node binder idle x y (context name) (context name)
  | column (name : String) (s t : Ty) : Alike node binder idle x y (column name s) (column name t)
  | param (n m : String) (s t : Option Ty) : Alike node binder idle x y (param n s) (param m t)
  | binary (op : Operator) {l l' r r' : NodeId} (lhs : node l l') (rhs : node r r') :
    Alike node binder idle x y (binary op l r) (binary op l' r')
  | conditional {c c' t t' e e' : NodeId} (condition : node c c') (thenBranch : node t t')
    (elseBranch : node e e') : Alike node binder idle x y (conditional c t e) (conditional c' t' e')
  | binding (n m : String) {v v' k k' : NodeId} (self : binder x y) (value : node v v')
    (next : node k k') : Alike node binder idle x y (binding n v k) (binding m v' k')
  | effect {v v' k k' : NodeId} (expr : node v v') (next : node k k') :
    Alike node binder idle x y (effect v k) (effect v' k')
  | access {v v' p p' : NodeId} (source : node v v') (property : node p p') :
    Alike node binder idle x y (access v p) (access v' p')
  | reference (n m : String) {t t' : NodeId} (target : node t t') :
    Alike node binder idle x y (reference t n) (reference t' m)
  | invoke {c c' : NodeId} {as bs : List NodeId} (callee : node c c')
    (args : List.Forall₂ node as bs) : Alike node binder idle x y (invoke c as) (invoke c' bs)
  | assignment (n m : String) {v v' : NodeId} (value : node v v') :
    Alike node binder idle x y (assignment n v) (assignment m v')
  | derived (n m : String) {v v' : NodeId} (derivation : node v v') :
    Alike node binder idle x y (derived n v) (derived m v')
  | split {r r' : NodeId} {ws vs : List (String × NodeId)} (read : node r r')
    (writes : List.Forall₂ (fun w v => node w.2 v.2 ∧ binder w.2 v.2) ws vs) :
    Alike node binder idle x y (split r ws) (split r' vs)
  | function (n m : Option String) {ps qs : List NodeId} {b b' : NodeId}
    (params : List.Forall₂ binder ps qs) (body : node b b') :
    Alike node binder idle x y (function n ps b) (function m qs b')
  | handed {c : NodeId} {as : List NodeId} (l : Kind) {arg : NodeId} (given : arg ∈ as)
    (isIdle : idle arg) : Alike node binder idle x y (invoke c as) l
  | inert {k : Kind} (l : Kind) (inert : k.isInert) : Alike node binder idle x y k l

def names : Kind → List NodeId
  | reference target _ => [target]
  | kind => kind.children

def binds (id : NodeId) : Kind → List NodeId
  | binding .. => [id]
  | function _ params _ => params
  | split _ writes => writes.map Prod.snd
  | _ => []

def rename (f : NodeId → NodeId) : Kind → Kind
  | reference target name => reference (f target) name
  | kind => kind.withChildren (kind.children.map f)

@[simp] theorem rename_id (k : Kind) : k.rename id = k := by
  cases k <;> simp [rename]

theorem children_rename (f : NodeId → NodeId) (k : Kind) : (k.rename f).children = k.children.map f := by
  unfold rename
  split
  · rfl
  · exact children_withChildren _ _ (List.length_map f)

theorem rename_split (f : NodeId → NodeId) (read : NodeId) (writes : List (String × NodeId)) :
    (split read writes).rename f = split (f read) (writes.map fun (name, write) => (name, f write)) := by
  have paired (rest : List NodeId) :
      (writes.map Prod.fst).zip (writes.map (f ∘ Prod.snd) ++ rest) =
        writes.map fun (name, write) => (name, f write) := by
    induction writes with
    | nil => rfl
    | cons write others ih => simp [ih]
  simp [rename, children, withChildren, paired]

theorem rename_function (f : NodeId → NodeId) (name : Option String) (params : List NodeId) (body : NodeId) :
    (function name params body).rename f = function name (params.map f) (f body) := by
  simp [rename, children, withChildren]

inductive Renames (f : NodeId → NodeId) : Kind → Kind → Prop
  | same (k : Kind) : Renames f k (k.rename f)
  | reference (target : NodeId) (name other : String) :
    Renames f (reference target name) (reference (f target) other)

theorem Renames.children {l : Kind} (renames : Renames f k l) : l.children = k.children.map f := by
  cases renames with
  | same => exact children_rename f k
  | reference => rfl

theorem Renames.of_reference {target : NodeId} {name : String} (renames : Renames f k (.reference target name)) :
    ∃ t n, k = .reference t n ∧ target = f t := by
  generalize same : Kind.reference target name = l at renames
  cases renames with
  | same =>
    cases k with
    | reference t n =>
      cases same
      exact ⟨t, _, rfl, rfl⟩
    | _ => cases same
  | reference t n other =>
    cases same
    exact ⟨t, n, rfl, rfl⟩

theorem Renames.isItem {l : Kind} (renames : Renames f k l) : l.isItem = k.isItem := by
  cases renames with
  | same => cases k <;> rfl
  | reference => rfl

theorem mem_binds {x y : NodeId} (bound : y ∈ k.binds x) : y = x ∨ y ∈ k.children := by
  cases k <;> simp_all [binds, children]

section
variable {node binder : NodeId → NodeId → Prop} {idle : NodeId → Prop} {f g : NodeId → NodeId}
  {x : NodeId} {k : Kind}

theorem alike_rename (linked : ∀ y ∈ k.names, node (f y) (g y)) (bound : ∀ y ∈ k.binds x, binder (f y) (g y)) :
    (k.rename f).Alike node binder idle (f x) (g x) (k.rename g) := by
  cases k with
  | split read writes =>
    rw [rename_split, rename_split]
    refine .split (linked _ (by simp [names, children])) ?_
    simp only [List.forall₂_map_left_iff, List.forall₂_map_right_iff, List.forall₂_same]
    rintro ⟨name, write⟩ held
    have written : write ∈ writes.map Prod.snd := List.mem_map_of_mem held
    exact ⟨linked _ (List.mem_append_left _ written), bound _ written⟩
  | function name params body =>
    rw [rename_function, rename_function]
    refine .function _ _ ?_ (linked _ (by simp [names, children]))
    rw [List.forall₂_map_left_iff, List.forall₂_map_right_iff, List.forall₂_same]
    exact bound
  | invoke callee args =>
    refine .invoke (linked _ (by simp [names, children])) ?_
    simp only [List.forall₂_map_left_iff, List.forall₂_map_right_iff, List.forall₂_same]
    intro arg held
    exact linked _ (by simp [names, children, held])
  | binding name value next =>
    constructor <;> first | apply linked | apply bound
    all_goals simp [names, binds, children]
  | _ =>
    first
    | exact .inert _ rfl
    | constructor <;> apply linked <;> simp [names, children]

theorem Renames.alike {l m : Kind} (first : Renames f k l) (second : Renames g k m)
    (linked : ∀ y ∈ k.names, node (f y) (g y)) (bound : ∀ y ∈ k.binds x, binder (f y) (g y)) :
    l.Alike node binder idle (f x) (g x) m := by
  cases first with
  | same =>
    cases second with
    | same => exact alike_rename linked bound
    | reference target name other => exact .reference _ _ (linked _ (by simp [names]))
  | reference target name other =>
    cases second with
    | same => exact .reference _ _ (linked _ (by simp [names]))
    | reference => exact .reference _ _ (linked _ (by simp [names]))

theorem alike_self (linked : ∀ y ∈ k.names, node y y) (bound : ∀ y ∈ k.binds x, binder y y) :
    k.Alike node binder idle x x k := by
  have alike : (k.rename id).Alike node binder idle (id x) (id x) (k.rename id) :=
    alike_rename linked bound
  rwa [rename_id] at alike

end

end Kind

namespace Arena

variable {a : Arena} {k : Kind}

def isFunction (a : Arena) (id : NodeId) : Bool :=
  match a.kind? id with
  | some (.function ..) => true
  | _ => false

theorem isFunction_iff {id : NodeId} :
    a.isFunction id ↔ ∃ name params body, a.kind? id = some (.function name params body) := by
  unfold isFunction
  split <;> simp_all

/-- Where evaluation may go on from a node. A call that is handed a function has no value. -/
def links (a : Arena) : Kind → List NodeId
  | .invoke callee args => if args.any a.isFunction then [] else callee :: args
  | kind => if kind.isInert then [] else kind.names

theorem mem_names_of_mem_links {y : NodeId} (link : y ∈ a.links k) : y ∈ k.names := by
  unfold links at link
  split at link <;> split at link
  · cases link
  · exact link
  · cases link
  · exact link

theorem mem_binds {x y : NodeId} (bound : y ∈ k.binds x) : y = x ∨ y ∈ a.links k := by
  cases k <;> simp_all [Kind.binds, links, Kind.isInert, Kind.names, Kind.children]

theorem alike_self {node binder : NodeId → NodeId → Prop} {idle : NodeId → Prop}
    {x : NodeId} (given : ∀ y, a.isFunction y → idle y)
    (linked : ∀ y ∈ a.links k, node y y) (bound : ∀ y ∈ k.binds x, binder y y) : k.Alike node binder idle x x k := by
  unfold links at linked
  split at linked
  next callee args =>
    by_cases handed : args.any a.isFunction
    · obtain ⟨arg, held, function⟩ := List.any_eq_true.1 handed
      exact .handed _ held (given arg function)
    · rw [if_neg handed] at linked
      exact Kind.alike_self linked bound
  next =>
    by_cases inert : k.isInert
    · exact .inert k inert
    · rw [if_neg inert] at linked
      exact Kind.alike_self linked bound

end Arena

end DerivedTables
