import DerivedTables.Proofs.Compilation.WellFormed

/-!
A type is unknown only where no table has its name, or where something else of that name is nearer.
-/

namespace DerivedTables

open Tree

namespace Resolution

variable {a : Arena} {s : Scopes} {name : String}

theorem Sane.lookup?_cases (sane : Sane a s) {outer : Symbol} (top : s.symbol? Scopes.outermost name = some outer)
    {id : Nat} (there : id < s.size) : s.lookup? id name = some outer ∨ ∃ j symbol, j ≠ Scopes.outermost ∧ s.symbol? j
    name = some symbol ∧ s.lookup? id name = some symbol := by
  induction id using Nat.strong_induction_on with
  | _ id ih =>
    rw [s.lookup?_eq sane.ordered]
    cases here : s.symbol? id name with
    | some symbol =>
      by_cases outermost : id = Scopes.outermost
      · rw [outermost, top] at here
        exact .inl here.symm
      · exact .inr ⟨id, symbol, outermost, here, rfl⟩
    | none =>
      have inside : 0 < id := Nat.pos_of_ne_zero fun outermost => by
        rw [outermost, ← Scopes.outermost, top] at here
        cases here
      obtain ⟨p, parent⟩ := sane.inner inside there
      have below := sane.ordered id p parent
      rw [parent]
      exact ih p below (below.trans there)

end Resolution

theorem StatementsLower.table {statements : List Statement} {ds vs : List Tree} {es : List Expr} {name : String}
    {members : List Member} {span : Option Span} (lower : StatementsLower statements ds vs es) (listed : .definition
    name members span ∈ statements) : ∃ id ps, node id (.definition name (ps.map Tree.id)) ps ∈ ds := by
  induction statements generalizing ds vs es with
  | nil => cases listed
  | cons statement rest ih =>
    cases statement with
    | definition shown columns span' =>
      obtain ⟨id, ps, others, -, lower, rfl⟩ := lower
      obtain here | later := List.mem_cons.1 listed
      · cases here
        exact ⟨id, ps, .head _⟩
      · obtain ⟨id, ps, part⟩ := ih lower later
        exact ⟨id, ps, .tail _ part⟩
    | assignment shown value span' =>
      obtain ⟨id, e, others, -, lower, rfl⟩ := lower
      exact ih lower (by simpa using listed)
    | expression expr =>
      obtain ⟨others, lower, rfl⟩ := lower
      exact ih lower (by simpa using listed)

theorem Program.Lowers.table {program : Program} {t : Tree} {name : String} {members : List Member}
    {span : Option Span} (lowers : program.Lowers t) (listed : .definition name members span ∈ program.statements) :
    ∃ id ps, node id (.definition name (ps.map Tree.id)) ps ∈ t.parts := by
  obtain ⟨_, ds, vs, es, e, lower, -, rfl⟩ := lowers
  obtain ⟨id, ps, part⟩ := lower.table listed
  exact ⟨id, ps, by simp [part]⟩

theorem Tree.lookup_declaredNames {t t' d : Tree} (bound : t.resolveProgram = some t') (part : d ∈ t.parts)
    {name : String} {leaf : Bool} (declared : Resolution.declaration? d.kind = some (name, leaf)) :
    (declaredNames t.parts).lookup name = some d.id := by
  obtain ⟨id, kind, parts⟩ := t
  rw [resolveProgram] at bound
  split at bound
  · rename_i distinct
    have listed : (name, d.id) ∈ declaredNames parts := List.mem_filterMap.2 ⟨d, part, by simp [declared]⟩
    have found : (declaredNames parts).lookup name ≠ none := fun missing =>
      Scopes.lookup_eq_none.1 missing (List.mem_map.2 ⟨_, listed, rfl⟩)
    obtain ⟨other, found⟩ := Option.ne_none_iff_exists'.1 found
    cases List.inj_on_of_nodup_map distinct listed (mem_of_lookup found) rfl
    exact found
  · cases bound

namespace Compilation

variable {program : Program} {c₀ c : Compilation}

namespace Named

variable {t t₁ t₂ : Tree} {w : Workspace Resolution.Notes} {name : String} {members : List Member} {span : Option Span}

theorem table (named : Named c₀ c t t₁ t₂ w) (lowers : program.Lowers t) (stands : t.StandsIn c₀.arena) (listed : .definition name members span ∈ program.statements) : ∃
    symbol properties, c.resolution.scopes.symbol? Scopes.outermost name = some symbol ∧ c.arena.kind? symbol.node =
    some (.definition name properties) := by
  obtain ⟨id, ps, part⟩ := lowers.table listed
  have found := named.bound.top name
  rw [lookup_declaredNames named.names part rfl] at found
  obtain ⟨symbol, found, same⟩ := Option.map_eq_some_iff.1 found
  obtain ⟨root, kind, parts⟩ := t
  have before : c₀.arena.kind? id = some (.definition name (ps.map Tree.id)) := (stands.child part).held
  have held : w.arena.kind? id = some (.definition name (ps.map Tree.id)) := by
    obtain same | ⟨_, _, other, -⟩ := named.bound.names id
    · rw [same, before]
    · cases before.symm.trans other
  have inside : id ∈ t₁.ids := named.bound.same.2 ▸ .tail _ (mem_idsOf.2 ⟨_, part, id_mem_ids (node id _ ps)⟩)
  have left := named.cleared.mem_ids named.entire.stands inside held (by simp) (Arena.alias?_of_other held (by simp))
  obtain ⟨k, l, -, held', held'', became⟩ := named.cleared.became named.entire.stands named.holds.stands left
  cases held.symm.trans held'
  cases became with
  | node _ _ => exact ⟨symbol, _, named.resolution ▸ found, (congrArg c.arena.kind? same).trans held''⟩

theorem recorded (named : Named c₀ c t t₁ t₂ w) {x : NodeId} (inside : x ∈ t₂.ids) :
    ∃ i : ScopeId, c.resolution.recorded[x]? = some i ∧ i < c.resolution.scopes.size := by
  obtain ⟨_, _, before, -⟩ := named.cleared.became named.entire.stands named.holds.stands inside
  rw [named.resolution]
  exact named.bound.entered x (named.bound.same.2 ▸ before)

theorem inner (named : Named c₀ c t t₁ t₂ w) {j : ScopeId} {symbol : Symbol} (inside : j ≠ Scopes.outermost)
    (found : c.resolution.scopes.symbol? j name = some symbol) :
    ∃ k, c₀.arena.kind? symbol.node = some k ∧ k.bound? = some name ∧ ∀ shown properties, k ≠ .definition shown properties := by
  rw [named.resolution] at found
  obtain ⟨k, held, shown⟩ := Option.bind_eq_some_iff.1 (named.bound.sane.named found)
  obtain same | ⟨_, _, -, other⟩ := named.bound.names symbol.node
  · refine ⟨k, same ▸ held, shown, ?_⟩
    rintro shown properties rfl
    exact inside (named.bound.sane.tables found held)
  · cases held.symm.trans other
    cases shown

end Named

/-- `T { T: number, u: T }` -/
def ownName : Program :=
  ⟨[.definition "T" [.property "T" (.named "number" false) none, .property "u" (.named "T" false) none] none]⟩

theorem ownName_fails : ∃ c₀ c, lower ownName = .ok c₀ ∧ c₀.resolve = .ok c ∧
    c.assignTypes 8 = .error (.typing (.unknownType 1 "T") none) := by
  obtain ⟨c₀, lowered, succeeds⟩ : ∃ c₀, lower ownName = .ok c₀ ∧ c₀.resolve.toOption.any (fun c =>
      decide ((c.assignTypes 8).map (fun _ => ()) = .error (.typing (.unknownType 1 "T") none))) = true :=
    except_any (by decide +kernel)
  obtain ⟨c, resolved, failed⟩ := except_any succeeds
  refine ⟨c₀, c, lowered, resolved, ?_⟩
  cases typed : c.assignTypes 8 with
  | ok c' => simp [typed, Except.map] at failed
  | error e => simpa [typed, Except.map] using failed

end Compilation

end DerivedTables
