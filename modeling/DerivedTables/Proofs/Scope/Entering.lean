import DerivedTables.Proofs.Scope.Visible

/-!
What entering a node does to the scopes, and what is seen from the scope it opens.
-/

namespace DerivedTables

abbrev View := String → Option NodeId

def View.with (view : View) (names : List (String × NodeId)) : View :=
  fun name => (names.lookup name).or (view name)

theorem mem_of_lookup {names : List (String × NodeId)} {name : String} {id : NodeId}
    (found : names.lookup name = some id) : (name, id) ∈ names := by
  obtain ⟨before, after, rfl, -⟩ := List.lookup_eq_some_iff.1 found
  simp

namespace Scopes

variable {s t u : Scopes} {a : Arena} {scope inner : Nat} {name : String} {node : NodeId} {leaf : Bool}
  {names : List (String × NodeId)} {own : NodeId → Bool}

theorem grows_nested (s : Scopes) (p : Nat) (changed : Nat → Prop) : s.Grows changed (s.nested p).2 where
  size := by simp
  parent there := by rw [parent?_nested, if_neg there.ne]
  symbol there _ name := by rw [symbol?_nested, if_neg there.ne]

structure Adds (s t : Scopes) (scope : Nat) (names : List (String × NodeId)) : Prop
    extends s.Grows (· = scope) t where
  here : ∀ name, (t.symbol? scope name).map Symbol.node =
    (names.lookup name).or ((s.symbol? scope name).map Symbol.node)
  opened : ∀ {id : Nat}, s.size ≤ id → id < t.size →
    t.parent? id = some scope ∧ ∀ name, t.symbol? id name = none

theorem lookup_eq_none {shown : String} : names.lookup shown = none ↔ shown ∉ names.map Prod.fst := by
  rw [List.lookup_eq_none_iff]
  grind

namespace Adds

theorem nil (s : Scopes) (scope : Nat) : s.Adds s scope [] where
  toGrows := .refl s _
  here name := by simp
  opened old new := absurd new (Nat.not_lt.2 old)

theorem nested (there : scope < s.size) : s.Adds (s.nested scope).2 scope [] where
  toGrows := s.grows_nested scope _
  here name := by rw [symbol?_nested, if_neg there.ne, List.lookup_nil, Option.none_or]
  opened {id} beyond below := by
    rw [size_nested] at below
    obtain rfl : id = s.size := Nat.le_antisymm (Nat.lt_succ_iff.1 below) beyond
    exact ⟨by rw [parent?_nested, if_pos rfl], fun shown => by rw [symbol?_nested, if_pos rfl]⟩

theorem insert (adds : s.Adds t scope []) (there : scope < s.size) (name : String) (symbol : Symbol) :
    s.Adds (t.insert scope name symbol) scope [(name, symbol.node)] := by
  have there' := there.trans_le adds.size
  have elsewhere {id : Nat} (other : id ≠ scope) (shown : String) :
      (t.insert scope name symbol).symbol? id shown = t.symbol? id shown := by
    rw [symbol?_insert t there', if_neg fun same => other same.1.symm]
  refine ⟨⟨by simpa using adds.size, fun old => ?_, fun old other shown => ?_⟩, fun shown => ?_, fun beyond below => ?_⟩
  · rw [parent?_insert, adds.parent old]
  · rw [elsewhere other, adds.symbol old other]
  · have before := adds.here shown
    rw [List.lookup_nil, Option.none_or] at before
    rw [symbol?_insert t there', ← before, List.lookup_cons, List.lookup_nil]
    by_cases same : shown = name
    · simp [same]
    · have differs : (shown == name) = false := by simpa using same
      simp [differs, Ne.symm same]
  · rw [size_insert] at below
    rw [parent?_insert]
    obtain ⟨parent, empty⟩ := adds.opened beyond below
    exact ⟨parent, fun shown => (elsewhere (there.trans_le beyond).ne' shown).trans (empty shown)⟩

theorem cons {rest : List (String × NodeId)} (first : s.Adds t scope [(name, node)]) (there : scope < s.size)
    (second : t.Adds u scope rest) (new : name ∉ rest.map Prod.fst) : s.Adds u scope ((name, node) :: rest) where
  toGrows := first.toGrows.trans second.toGrows fun _ _ => id
  here shown := by
    rw [second.here, first.here, List.lookup_cons, List.lookup_cons, List.lookup_nil]
    by_cases same : shown = name
    · subst same
      simp [lookup_eq_none.2 new]
    · have differs : (shown == name) = false := by simpa using same
      simp [differs]
  opened {id} beyond below := by
    by_cases old : id < t.size
    · rw [second.parent old]
      obtain ⟨parent, empty⟩ := first.opened beyond old
      refine ⟨parent, fun name => ?_⟩
      rw [second.symbol old (there.trans_le beyond).ne', empty]
    · exact second.opened (Nat.not_lt.1 old) below

theorem free_iff (adds : s.Adds t scope names) (shown : String) :
    t.symbol? scope shown = none ↔ shown ∉ names.map Prod.fst ∧ s.symbol? scope shown = none := by
  rw [← Option.map_eq_none_iff, adds.here, Option.or_eq_none_iff, lookup_eq_none, Option.map_eq_none_iff]

theorem binds (adds : s.Adds t scope names) {x : NodeId} (bound : t.Binds x) : x ∈ names.map Prod.snd ∨ s.Binds x := by
  obtain ⟨id, name, symbol, found, rfl⟩ := bound
  by_cases old : id < s.size
  · by_cases here : id = scope
    · subst here
      have node := adds.here name
      rw [found, Option.map_some] at node
      obtain listed | ⟨-, before⟩ := Option.or_eq_some_iff.1 node.symm
      · exact .inl (List.mem_map_of_mem (mem_of_lookup listed))
      · obtain ⟨before, found, same⟩ := Option.map_eq_some_iff.1 before
        exact .inr ⟨id, name, before, found, same⟩
    · rw [adds.symbol old here] at found
      exact .inr ⟨id, name, symbol, found, rfl⟩
  · cases found.symm.trans ((adds.opened (Nat.not_lt.1 old) (lt_size_of_symbol? found)).2 name)

theorem seen (adds : s.Adds t scope names) (ordered : s.Ordered) (ordered' : t.Ordered) (there : scope < s.size)
    (empty : ∀ shown, s.symbol? scope shown = none) (shown : String) :
    t.seen own scope shown = ((names.lookup shown).filter (!own ·)).or (s.seen own scope shown) := by
  have outer : (t.parent? scope).bind (t.seen own · shown) = s.seen own scope shown := by
    rw [seen_empty ordered empty, adds.parent there]
    cases found : s.parent? scope with
    | none => rfl
    | some p =>
      have below := ordered _ _ found
      exact adds.toGrows.seen_eq ordered ordered' (below.trans there) (fun i same => same ▸ below) own shown
  have here := adds.here shown
  rw [empty, Option.map_none, Option.or_none] at here
  rw [seen_eq ordered', outer, ← here]
  cases t.symbol? scope shown with
  | none => rfl
  | some symbol => cases mine : own symbol.node <;> simp [Option.filter, mine]

theorem seen_with (adds : s.Adds t scope names) (ordered : s.Ordered) (ordered' : t.Ordered) (there : scope < s.size)
    (empty : ∀ shown, s.symbol? scope shown = none) (outside : ∀ x ∈ names, own x.2 = false) (shown : String) :
    t.seen own scope shown = (names.lookup shown).or (s.seen own scope shown) := by
  rw [adds.seen ordered ordered' there empty]
  cases found : names.lookup shown with
  | none => rfl
  | some x => simp [Option.filter, outside _ (mem_of_lookup found)]

end Adds

theorem bind_adds (there : scope < s.size) (done : s.bind scope name node leaf = .ok (inner, t)) :
    s.Adds t scope [(name, node)] ∧ inner = (if leaf then scope else s.size) ∧
      t.size = (if leaf then s.size else s.size + 1) := by
  rw [bind] at done
  split at done
  · cases done
  · split at done
    · rename_i leaf
      cases done
      exact ⟨(Adds.nil s scope).insert there name ⟨node, none⟩, by simp [leaf], by simp [leaf]⟩
    · rename_i opens
      cases done
      exact ⟨(Adds.nested there).insert there name ⟨node, some s.size⟩, (if_neg opens).symm,
        (size_insert ..).trans ((size_nested s scope).trans (if_neg opens).symm)⟩

theorem bind_ok (new : s.symbol? scope name = none) (node : NodeId) (leaf : Bool) :
    ∃ inner t, s.bind scope name node leaf = .ok (inner, t) := by
  rw [bind, new]
  cases leaf <;> exact ⟨_, _, rfl⟩

theorem bind_sane (sane : Resolution.Sane a s) (there : scope < s.size)
    (done : s.bind scope name node leaf = .ok (inner, t)) (named : (a.kind? node).bind Kind.bound? = some name)
    (opens : ∀ {shown value next}, a.kind? node = some (.binding shown value next) → leaf = false)
    (tables : ∀ {shown properties}, a.kind? node = some (.definition shown properties) → scope = outermost) :
    Resolution.Sane a t := by
  rw [bind] at done
  split at done
  · cases done
  · split at done
    · rename_i leaf
      cases done
      exact sane.insert there named (fun held => absurd leaf (by simp [opens held])) tables
    · cases done
      refine (sane.nested there).insert ?_ named (fun _ => ⟨_, rfl, ?_⟩) tables
      · rw [size_nested]
        exact there.trans (Nat.lt_succ_self _)
      · rw [parent?_nested, if_pos rfl]

theorem seen_congr (ordered : s.Ordered) {own own' : NodeId → Bool}
    (same : ∀ x, s.Binds x → own x = own' x) (id : Nat) (name : String) : s.seen own id name = s.seen own' id name := by
  induction id using Nat.strong_induction_on with
  | _ id ih =>
    have outside : (s.parent? id).bind (s.seen own · name) = (s.parent? id).bind (s.seen own' · name) := by
      cases found : s.parent? id with
      | none => rfl
      | some p => exact ih p (ordered _ _ found)
    rw [seen_eq ordered, seen_eq ordered, outside]
    cases found : s.symbol? id name with
    | none => rfl
    | some symbol => simp only [same symbol.node ⟨id, name, symbol, found, rfl⟩]

end Scopes

namespace Resolution

open Pass Scopes

variable {w : Workspace Notes} {node : NodeId} {scope : Nat} {k : Kind}

def Notes.record (n : Notes) (node : NodeId) (scope : Nat) : Notes :=
  { n with result := { n.result with recorded := n.result.recorded.insert node scope } }

def Notes.withScopes (n : Notes) (scopes : Scopes) : Notes :=
  { n with result := { n.result with scopes } }

def entering (node : NodeId) (scope : ScopeId) : Kind → Option ScopeId → Resolving (Entry ScopeId)
  | .root definitions assignments _, _ => do
    (definitions ++ assignments).forM (declare scope)
    return .keep
  | .definition _ properties, some inner => do
    properties.forM (declare inner)
    return .withState inner
  | _, some inner => return .withState inner
  | .definition name _, none | .derived name _, none | .assignment name _, none =>
    return .withState (← bind scope name node false)
  | .binding name _ _, none => return .withState (← bind (← nested scope) name node false)
  | .column name _, none => return .withState (← bind scope name node true)
  | .function name params _, none => do
    let inner ← match name with
      | some name => bind scope name node false
      | none => nested scope
    bindParams inner params
    return .withState inner
  | _, none => return .keep

theorem enter_eq (lineage : Lineage) (scope : Nat) (held : w.arena.kind? node = some k) : enter node lineage scope w =
    entering node scope k w.notes.declared[node]? ⟨w.arena, w.notes.record node scope⟩ := by
  have recorded : (Pass.modifyNotes fun n =>
      { n with result := { n.result with recorded := n.result.recorded.insert node scope } } :
        Resolving Unit) w = .ok () ⟨w.arena, w.notes.record node scope⟩ := rfl
  have held : (Workspace.mk w.arena (w.notes.record node scope)).arena.kind? node = some k := held
  have read : (Pass.notes : Resolving Notes) ⟨w.arena, w.notes.record node scope⟩ =
      .ok (w.notes.record node scope) ⟨w.arena, w.notes.record node scope⟩ := rfl
  rw [enter, bind_of_ok recorded, bind_of_ok (Pass.kind_of_some held), bind_of_ok read]
  rfl

variable {n : Notes} {a : Arena} {name : String} {leaf : Bool}

theorem bind_of_ok_scopes {inner : ScopeId} {scopes : Scopes} (bound : n.result.scopes.bind scope name node leaf = .ok
    (inner, scopes)) : bind scope name node leaf ⟨a, n⟩ = .ok inner ⟨a, n.withScopes scopes⟩ := by
  have read : (Pass.notes : Resolving Notes) ⟨a, n⟩ = .ok n ⟨a, n⟩ := rfl
  rw [bind, bind_of_ok read, bound]
  rfl

theorem bind_of_existing {existing : Symbol} (found : n.result.scopes.bind scope name node leaf = .error existing) :
    bind scope name node leaf ⟨a, n⟩ = .error (.duplicate name node existing.node) ⟨a, n⟩ := by
  have read : (Pass.notes : Resolving Notes) ⟨a, n⟩ = .ok n ⟨a, n⟩ := rfl
  rw [bind, bind_of_ok read, found]
  rfl

theorem entering_let (scope : Nat) (a : Arena) (n : Notes) (name : String) (node value next : NodeId) :
    ∃ made, (n.result.scopes.nested scope).2.bind n.result.scopes.size name node false =
        .ok (n.result.scopes.size + 1, made) ∧ entering node scope (.binding name value next) none ⟨a, n⟩ =
        .ok (.withState (n.result.scopes.size + 1)) ⟨a, n.withScopes made⟩ := by
  have opened : nested scope ⟨a, n⟩ =
      .ok n.result.scopes.size ⟨a, n.withScopes (n.result.scopes.nested scope).2⟩ := rfl
  have empty : (n.result.scopes.nested scope).2.symbol? n.result.scopes.size name = none := by
    rw [symbol?_nested, if_pos rfl]
  obtain ⟨inner, made, bound⟩ := bind_ok empty node false
  obtain ⟨-, rfl, -⟩ := bind_adds (by simp) bound
  rw [if_neg (by simp), size_nested] at bound
  refine ⟨made, bound, ?_⟩
  rw [entering, bind_of_ok opened, bind_of_ok (bind_of_ok_scopes bound)]
  rfl

theorem bindParams_all {names : List (String × NodeId)} (there : scope < n.result.scopes.size) (sane : Sane a
    n.result.scopes) (params : ∀ x ∈ names, ∃ declared, a.kind? x.2 = some (.param x.1 declared)) : ((names.map
    Prod.fst).Nodup ∧ (∀ x ∈ names.map Prod.fst, n.result.scopes.symbol? scope x = none) → ∃ made, bindParams scope
    (names.map Prod.snd) ⟨a, n⟩ = .ok () ⟨a, n.withScopes made⟩ ∧ n.result.scopes.Adds made scope names ∧ made.size =
    n.result.scopes.size ∧ Sane a made) ∧ (¬ ((names.map Prod.fst).Nodup ∧ ∀ x ∈ names.map Prod.fst,
    n.result.scopes.symbol? scope x = none) → ∃ e w', bindParams scope (names.map Prod.snd) ⟨a, n⟩ = .error e w') := by
  induction names generalizing n with
  | nil => exact ⟨fun _ => ⟨_, rfl, .nil _ _, rfl, sane⟩, fun clash => absurd (by simp) clash⟩
  | cons pair rest ih =>
    obtain ⟨name, node⟩ := pair
    simp only [List.forall_mem_cons] at params
    obtain ⟨⟨declared, held⟩, others⟩ := params
    have first : bindParams scope (((name, node) :: rest).map Prod.snd) ⟨a, n⟩ = (do
        discard (bind scope name node true)
        bindParams scope (rest.map Prod.snd) : Resolving Unit) ⟨a, n⟩ := by
      have held : (Workspace.mk a n).arena.kind? node = some (.param name declared) := held
      simp only [bindParams, List.map_cons, List.forM_eq_forM, List.forM_cons, bind_assoc]
      rw [bind_of_ok (Pass.kind_of_some held)]
    rw [first, List.map_cons, List.nodup_cons, List.forall_mem_cons]
    cases taken : n.result.scopes.symbol? scope name with
    | some existing =>
      have clash : n.result.scopes.bind scope name node true = .error existing := by rw [Scopes.bind, taken]
      exact ⟨fun ok => absurd ok.2.1 (by simp),
        fun _ => ⟨_, _, bind_of_error (discard_of_error (bind_of_existing clash))⟩⟩
    | none =>
      obtain ⟨inner, s, bound⟩ := bind_ok taken node true
      obtain ⟨adds, -, size⟩ := bind_adds there bound
      rw [bind_of_ok (discard_of_ok (bind_of_ok_scopes bound))]
      obtain ⟨succeeds, fails⟩ := ih (n := n.withScopes s) (there.trans_le adds.size)
        (bind_sane sane there bound (by simp [held, Kind.bound?]) (by simp [held]) (by simp [held])) others
      change (_ ∧ (∀ x ∈ _, s.symbol? scope x = none) → _) at succeeds
      change (¬ (_ ∧ ∀ x ∈ _, s.symbol? scope x = none) → _) at fails
      simp only [adds.free_iff] at succeeds fails
      constructor
      · rintro ⟨⟨newName, distinct⟩, -, free⟩
        obtain ⟨made, ran, adds', size', sane'⟩ := succeeds ⟨distinct, by grind⟩
        exact ⟨made, ran, adds.cons there adds' newName, size'.trans size, sane'⟩
      · intro clash
        exact fails (by grind)

end Resolution

end DerivedTables
