import DerivedTables.Proofs.Scope.Walked

/-!
Names declared ahead of the walk.
-/

namespace DerivedTables

namespace Tree

def declaredNames (ts : List Tree) : List (String × NodeId) :=
  ts.filterMap fun t => (Resolution.declaration? t.kind).map fun declared => (declared.1, t.id)

theorem declaredNames_cons {t : Tree} {name : String} {leaf : Bool} (declared : Resolution.declaration? t.kind = some
    (name, leaf)) (rest : List Tree) : declaredNames (t :: rest) = (name, t.id) :: declaredNames rest := by
  simp [declaredNames, declared]

end Tree

namespace Resolution

open Pass Scopes Tree

variable {a : Arena} {n n' : Notes} {scope : Nat} {ts : List Tree}
variable {leaf : Bool} {kind : Kind} {name : String}

structure Declares (a : Arena) (n n' : Notes) (scope : Nat) (ts : List Tree) : Prop where
  adds : n.result.scopes.Adds n'.result.scopes scope (declaredNames ts)
  inner : ∀ t ∈ ts, ∀ {name}, declaration? t.kind = some (name, false) → ∃ inner,
    n'.declared[t.id]? = some inner ∧ n.result.scopes.size ≤ inner ∧ inner < n'.result.scopes.size
  leaf : ∀ t ∈ ts, ∀ {name}, declaration? t.kind = some (name, true) → n'.declared[t.id]? = some scope
  apart : ∀ t ∈ ts, ∀ u ∈ ts, ∀ {name shown inner}, declaration? t.kind = some (name, false) →
    declaration? u.kind = some (shown, false) → n'.declared[t.id]? = some inner →
    n'.declared[u.id]? = some inner → t.id = u.id
  other : ∀ x, x ∉ ts.map Tree.id → n'.declared[x]? = n.declared[x]?
  sane : Sane a n'.result.scopes
  recorded : n'.result.recorded = n.result.recorded

def Declarable (a : Arena) (scope : Nat) (ts : List Tree) : Prop :=
  ∀ t ∈ ts, a.kind? t.id = some t.kind ∧ (∃ name leaf, declaration? t.kind = some (name, leaf)) ∧
    ∀ {name properties}, t.kind = .definition name properties → scope = outermost

theorem declare_eq {node : NodeId}
    (held : a.kind? node = some kind) (declared : declaration? kind = some (name, leaf)) :
    declare scope node ⟨a, n⟩ = (do
      let inner ← bind scope name node leaf
      Pass.modifyNotes fun n => { n with declared := n.declared.insert node inner } :
        Resolving Unit) ⟨a, n⟩ := by
  have held : (Workspace.mk a n).arena.kind? node = some kind := held
  rw [declare, bind_of_ok (Pass.kind_of_some held), declared]

theorem declaration?_let (declared : declaration? kind = some (name, leaf)) (shown : String) (value next : NodeId) :
    kind ≠ .binding shown value next := by
  rintro rfl
  cases declared

theorem bound?_of_declaration? (declared : declaration? kind = some (name, leaf)) : kind.bound? = some name := by
  cases kind <;> cases declared <;> rfl

theorem Declares.cons {n₁ : Notes} {t : Tree} {rest : List Tree} (declares : Declares a n₁ n' scope rest) (declared :
    declaration? t.kind = some (name, leaf)) (there : scope < n.result.scopes.size) (adds : n.result.scopes.Adds
    n₁.result.scopes scope [(name, t.id)]) (size : n₁.result.scopes.size = if leaf then n.result.scopes.size else
    n.result.scopes.size + 1) (noted : n₁.declared = n.declared.insert t.id (if leaf then scope else
    n.result.scopes.size)) (recorded : n₁.result.recorded = n.result.recorded) (newName : name ∉ (declaredNames
    rest).map Prod.fst) (new : t.id ∉ rest.map Tree.id) : Declares a n n' scope (t :: rest) := by
  have kept : n'.declared[t.id]? = some (if leaf then scope else n.result.scopes.size) := by
    rw [declares.other t.id new, noted]
    simp
  have own : ∀ {shown other}, declaration? t.kind = some (shown, other) → leaf = other := fun same =>
    (Prod.mk.inj (Option.some_injective _ (declared.symm.trans same))).2
  refine ⟨?_, ?_, ?_, ?_, ?_, declares.sane, declares.recorded.trans recorded⟩
  · rw [declaredNames_cons declared]
    exact adds.cons there declares.adds newName
  · refine List.forall_mem_cons.2 ⟨fun {shown} nested => ?_, fun u part {shown} nested => ?_⟩
    · obtain rfl := own nested
      refine ⟨_, kept, le_rfl, lt_of_lt_of_le ?_ declares.adds.size⟩
      rw [size]
      exact Nat.lt_succ_self _
    · obtain ⟨inner, found, beyond, below⟩ := declares.inner u part nested
      exact ⟨inner, found, adds.size.trans beyond, below⟩
  · refine List.forall_mem_cons.2 ⟨fun {shown} ends => ?_, fun u part {shown} ends => ?_⟩
    · obtain rfl := own ends
      exact kept
    · exact declares.leaf u part ends
  · -- The scope of the first one is older than those of the others.
    have differs {u : Tree} (part : u ∈ rest) {name shown : String} {inner : ScopeId}
        (nested : declaration? t.kind = some (name, false))
        (nested' : declaration? u.kind = some (shown, false)) (found : n'.declared[t.id]? = some inner)
        (found' : n'.declared[u.id]? = some inner) : False := by
      obtain rfl := own nested
      obtain ⟨_, there', beyond, -⟩ := declares.inner u part nested'
      rw [kept] at found
      rw [there'] at found'
      cases found
      cases found'
      rw [size] at beyond
      exact Nat.not_succ_le_self _ beyond
    refine List.forall_mem_cons.2 ⟨List.forall_mem_cons.2 ⟨?_, ?_⟩, fun u part =>
      List.forall_mem_cons.2 ⟨?_, ?_⟩⟩
    · intros
      rfl
    · intro u part name shown inner nested nested' found found'
      exact (differs part nested nested' found found').elim
    · intro name shown inner nested nested' found found'
      exact (differs part nested' nested found' found).elim
    · intro v other name shown inner
      exact declares.apart u part v other
  · intro x outside
    rw [List.map_cons, List.mem_cons, not_or] at outside
    rw [declares.other x outside.2, noted, Std.TreeMap.getElem?_insert, if_neg]
    simpa using Ne.symm outside.1

theorem declare_all (there : scope < n.result.scopes.size) (sane : Sane a n.result.scopes) (declarable : Declarable a
    scope ts) (once : (ts.map Tree.id).Nodup) : (((declaredNames ts).map Prod.fst).Nodup ∧ (∀ x ∈ (declaredNames ts).map
    Prod.fst, n.result.scopes.symbol? scope x = none) → ∃ n', (ts.map Tree.id).forM (declare scope) ⟨a, n⟩ = .ok () ⟨a,
    n'⟩ ∧ Declares a n n' scope ts) ∧ (¬ (((declaredNames ts).map Prod.fst).Nodup ∧ ∀ x ∈ (declaredNames ts).map
    Prod.fst, n.result.scopes.symbol? scope x = none) → ∃ e w', (ts.map Tree.id).forM (declare scope) ⟨a, n⟩ = .error e
    w') := by
  induction ts generalizing n with
  | nil =>
    refine ⟨fun _ => ⟨n, rfl, .nil _ _, ?_, ?_, ?_, fun _ _ => rfl, sane, rfl⟩,
      fun clash => absurd ⟨by simp [declaredNames], by simp [declaredNames]⟩ clash⟩ <;> simp
  | cons t rest ih =>
    obtain ⟨held, ⟨name, leaf, declared⟩, table⟩ := declarable t (by simp)
    have declarable' : Declarable a scope rest := fun u part => declarable u (.tail _ part)
    obtain ⟨new, once'⟩ := List.nodup_cons.1 once
    rw [declaredNames_cons declared, List.map_cons, List.map_cons, List.nodup_cons,
      List.forall_mem_cons]
    have first : (t.id :: rest.map Tree.id).forM (declare scope) ⟨a, n⟩ = (do
        let inner ← bind scope name t.id leaf
        Pass.modifyNotes fun n => { n with declared := n.declared.insert t.id inner }
        (rest.map Tree.id).forM (declare scope) : Resolving Unit) ⟨a, n⟩ := by
      change (declare scope t.id >>= fun _ => (rest.map Tree.id).forM (declare scope)) ⟨a, n⟩ = _
      have here : declare scope t.id ⟨a, n⟩ = _ := declare_eq held declared
      cases run : bind scope name t.id leaf ⟨a, n⟩ with
      | error e w =>
        rw [bind_of_error run] at here
        rw [bind_of_error here, bind_of_error run]
      | ok inner w =>
        rw [bind_of_ok run] at here
        rw [bind_of_ok here, bind_of_ok run]
        rfl
    rw [first]
    cases taken : n.result.scopes.symbol? scope name with
    | some existing =>
      have clash : n.result.scopes.bind scope name t.id leaf = .error existing := by
        rw [Scopes.bind, taken]
      exact ⟨fun ok => absurd ok.2.1 (by simp), fun _ => ⟨_, _, bind_of_error (bind_of_existing clash)⟩⟩
    | none =>
      obtain ⟨inner, s, bound⟩ := bind_ok taken t.id leaf
      obtain ⟨adds, rfl, size⟩ := bind_adds there bound
      have sane' : Sane a s := bind_sane sane there bound
        (by rw [held, Option.bind_some, bound?_of_declaration? declared])
        (fun same => absurd (Option.some_injective _ (held.symm.trans same)) (declaration?_let declared _ _ _))
        (fun same => table (Option.some_injective _ (held.symm.trans same)))
      rw [bind_of_ok (bind_of_ok_scopes bound)]
      obtain ⟨succeeds, fails⟩ := ih (n := { n.withScopes s with
        declared := n.declared.insert t.id (if leaf then scope else n.result.scopes.size) })
        (there.trans_le adds.size) sane' declarable' once'
      change (_ ∧ (∀ x ∈ _, s.symbol? scope x = none) → _) at succeeds
      change (¬ (_ ∧ ∀ x ∈ _, s.symbol? scope x = none) → _) at fails
      simp only [adds.free_iff] at succeeds fails
      constructor
      · rintro ⟨⟨newName, distinct⟩, -, others⟩
        obtain ⟨n', ran, declares⟩ := succeeds ⟨distinct, by grind⟩
        exact ⟨n', ran, declares.cons declared there adds size rfl rfl newName new⟩
      · intro clash
        exact fails (by grind)

end Resolution

end DerivedTables
