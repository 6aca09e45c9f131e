import DerivedTables.Proofs.Tree.Copying

/-!
Trees in which nothing dangles.
-/

namespace DerivedTables

variable {a : Arena} {k : Kind} {x y : NodeId}

def Arena.target? (a : Arena) (id : NodeId) : Option NodeId :=
  match a.kind? id with
  | some (.reference target _) => some target
  | _ => none

theorem Arena.target?_eq_some {id t : NodeId} {n : String}
    (held : a.kind? id = some (.reference t n)) : a.target? id = some t := by
  simp [target?, held]

theorem Arena.of_target?_eq_some {id t : NodeId} (found : a.target? id = some t) :
    ∃ n, a.kind? id = some (.reference t n) := by
  unfold target? at found
  split at found
  next target name held =>
    cases found
    exact ⟨name, held⟩
  next => cases found

/-- Nodes that others name are there, parameters are parameters, and no write is an item. -/
structure Arena.WellFormed (a : Arena) : Prop extends a.Closed where
  params : ∀ {x name params body}, a.kind? x = some (.function name params body) →
    ∀ p ∈ params, ∃ n t, a.kind? p = some (.param n t)
  writes : ∀ {x read writes}, a.kind? x = some (.split read writes) →
    ∀ w ∈ writes, ∀ k, a.kind? w.2 = some k → k.isItem = false

def Arena.isWellFormedAt (a : Arena) (kind : Kind) : Bool :=
  kind.children.all (· < a.size) &&
    match kind with
    | .reference target _ => target < a.size
    | .function _ params _ => params.all fun p =>
      match a.kind? p with
      | some (.param ..) => true
      | _ => false
    | .split _ writes => writes.all fun w => (a.kind? w.2).all fun k => !k.isItem
    | _ => true

theorem Arena.wellFormed_iff : a.WellFormed ↔ ∀ x < a.size, (a.kind? x).all a.isWellFormedAt := by
  constructor
  · intro wellFormed x _
    cases held : a.kind? x with
    | none => rfl
    | some k =>
      have children : k.children.all (· < a.size) := by
        simpa using wellFormed.children held
      simp only [Option.all_some, isWellFormedAt, children, Bool.true_and]
      cases k with
      | reference target name => simpa using wellFormed.target held
      | function name params body =>
        rw [List.all_eq_true]
        intro p isParam
        obtain ⟨n, t, param⟩ := wellFormed.params held p isParam
        simp [param]
      | split read writes =>
        rw [List.all_eq_true]
        intro w written
        cases value : a.kind? w.2 with
        | none => rfl
        | some k => simpa using wellFormed.writes held w written k value
      | _ => rfl
  · intro checked
    have check {x : NodeId} {k : Kind} (held : a.kind? x = some k) : a.isWellFormedAt k := by
      simpa [held] using checked x (lt_size_of_kind? held)
    refine { children := ?_, target := ?_, params := ?_, writes := ?_ }
    · intro x k held
      have here := check held
      simp only [isWellFormedAt, Bool.and_eq_true] at here
      simpa using here.1
    · intro x t n held
      simpa [isWellFormedAt, Kind.children] using check held
    · intro x name params body held p isParam
      have here := check held
      simp only [isWellFormedAt, Bool.and_eq_true, List.all_eq_true] at here
      have param := here.2 p isParam
      split at param
      next n t found => exact ⟨n, t, found⟩
      next => cases param
    · intro x read writes held w written k value
      have here := check held
      simp only [isWellFormedAt, Bool.and_eq_true, List.all_eq_true] at here
      simpa [value] using here.2 w written

instance (a : Arena) : Decidable a.WellFormed := decidable_of_iff' _ Arena.wellFormed_iff

theorem Arena.WellFormed.binds (wellFormed : a.WellFormed) {l : Kind}
    (held : a.kind? x = some k) (bound : y ∈ k.binds x) (named : a.kind? y = some l) : l.isItem = false := by
  cases k with
  | binding name value next =>
    obtain rfl := List.mem_singleton.1 bound
    cases held.symm.trans named
    rfl
  | function name params body =>
    obtain ⟨n, t, param⟩ := wellFormed.params held y bound
    cases param.symm.trans named
    rfl
  | split read writes =>
    obtain ⟨w, written, rfl⟩ := List.mem_map.1 bound
    exact wellFormed.writes held w written l named
  | _ => cases bound

theorem Arena.Closed.name (closed : a.Closed) (held : a.kind? x = some k) (named : y ∈ k.names) : y < a.size := by
  unfold Kind.names at named
  split at named
  next target name =>
    obtain rfl := List.mem_singleton.1 named
    exact closed.target held
  next => exact closed.children held y named

theorem Arena.Closed.link (closed : a.Closed) (held : a.kind? x = some k) (link : y ∈ a.links k) : y < a.size :=
  closed.name held (mem_names_of_mem_links link)

theorem Arena.extends_setSpan (a : Arena) (id : NodeId) (span : Option Span) :
    a.Extends (a.setSpan id span) where
  size := by simp [setSpan]
  kind {x} _ := by
    rw [setSpan, kind?, node?_modify, kind?]
    split
    · rw [Option.map_map]
      rfl
    · rfl

end DerivedTables
