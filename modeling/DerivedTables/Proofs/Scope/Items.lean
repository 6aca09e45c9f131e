import DerivedTables.Proofs.Scope.Declared

/-!
Binding the names of a whole program.
-/

namespace DerivedTables

namespace Tree

def resolveItem (view : View) : Tree → Option Tree
  | node id (.definition name properties) parts =>
    if ((declaredNames parts).map Prod.fst).Nodup then
      (resolveAll (view.with (declaredNames parts)) parts).map (node id (.definition name properties))
    else none
  | t => t.resolve view

def resolveProgram : Tree → Option Tree
  | node id kind parts =>
    if ((declaredNames parts).map Prod.fst).Nodup then
      (parts.mapM (resolveItem (View.with (fun _ => none) (declaredNames parts)))).map (node id kind)
    else none

variable {view : View} {id : NodeId} {kind : Kind} {t s : Tree} {ts : List Tree}

theorem resolve_single (plain : Resolution.declaration? kind ≠ none) :
    (node id kind [s]).resolve view = (s.resolve view).map fun s' => node id kind [s'] := by
  have whole : (node id kind [s]).resolve view = (resolveAll view [s]).map (node id kind) := by
    cases kind <;> first | rfl | exact absurd rfl plain
  rw [whole, resolveAll]
  cases s.resolve view <;> rfl

theorem IsProperty.declares (property : t.IsProperty) : (∃ name leaf, Resolution.declaration? t.kind = some (name,
    leaf)) ∧ ∀ name properties, t.kind ≠ .definition name properties := by
  cases property with
  | column => exact ⟨⟨_, _, rfl⟩, by simp⟩
  | derived | method => exact ⟨⟨_, _, rfl⟩, by simp⟩

theorem IsItem.declares (item : t.IsItem) : ∃ name leaf, Resolution.declaration? t.kind = some (name, leaf) := by
  cases item <;> exact ⟨_, _, rfl⟩

theorem resolves_of_resolveItem {t' : Tree} (done : t.resolveItem view = some t') : t.Resolves t' := by
  unfold resolveItem at done
  split at done
  · simp only [Option.ite_none_right_eq_some, Option.map_eq_some_iff] at done
    obtain ⟨-, parts', below, rfl⟩ := done
    exact .of_parts (resolves_of_resolveAll below)
  · exact resolves_of_resolve done

theorem resolves_of_resolveProgram {t' : Tree} (done : t.resolveProgram = some t') : t.Resolves t' := by
  obtain ⟨id, kind, parts⟩ := t
  simp only [resolveProgram, Option.ite_none_right_eq_some, Option.map_eq_some_iff] at done
  obtain ⟨-, parts', below, rfl⟩ := done
  exact .of_parts (resolves_mapM (fun _ _ _ => resolves_of_resolveItem) below)

end Tree

namespace Resolution

open Pass Scopes Tree

variable {w w' : Workspace Notes} {lineage : Lineage} {around : Nat} {view : View} {t s : Tree}
  {ts : List Tree} {id : NodeId} {kind : Kind} {parts : List Tree} {changed : Nat → Prop}

structure Waiting (w : Workspace Notes) (lineage : Lineage) (around : Nat) (view : View) (t : Tree) : Prop
    extends Seated w lineage around view t where
  noted : ∃ inner, w.notes.declared[t.id]? = some inner ∧
    ∀ {name}, declaration? t.kind = some (name, false) →
      w.notes.result.scopes.parent? inner = some around ∧
        ∀ name, w.notes.result.scopes.symbol? inner name = none
  free : ∀ x ∈ idsOf t.parts, w.notes.declared[x]? = none

theorem Waiting.later {ids : List NodeId} (waiting : Waiting w lineage around view s)
    (advanced : Advanced ids changed w w') (other : ∀ x ∈ s.ids, x ∉ ids)
    (inwards : ∀ i, changed i → around < i)
    (own : ∀ {name inner}, declaration? s.kind = some (name, false) →
      w.notes.declared[s.id]? = some inner → ¬ changed inner) :
    Waiting w' lineage around view s where
  toSeated := waiting.toSeated.later advanced other inwards
  noted := by
    obtain ⟨inner, noted, opened⟩ := waiting.noted
    refine ⟨inner, (advanced.declared _ (other _ s.id_mem_ids)).trans noted, fun {name} nested => ?_⟩
    obtain ⟨parent, empty⟩ := opened nested
    have old := Scopes.lt_size_of_parent? parent
    refine ⟨(advanced.grows.parent old).trans parent, fun shown => ?_⟩
    rw [advanced.grows.symbol old (own nested noted), empty]
  free x inside := by
    obtain ⟨id, kind, parts⟩ := s
    rw [advanced.declared x (other x (.tail _ inside))]
    exact waiting.free x inside

def Own (n : Notes) (t : Tree) (i : Nat) : Prop :=
  (∃ name, declaration? t.kind = some (name, false)) ∧ n.declared[t.id]? = some i

theorem Waiting.inwards (waiting : Waiting w lineage around view t) {i : Nat} (own : Own w.notes t i) : around < i := by
  obtain ⟨⟨name, nested⟩, found⟩ := own
  obtain ⟨inner, noted, opened⟩ := waiting.noted
  obtain rfl := Option.some_injective _ (noted.symm.trans found)
  exact waiting.sane.ordered _ _ (opened nested).1

theorem enter_noted {inner : ScopeId} (lineage : Lineage) (held : w.arena.kind? id = some kind)
    (noted : w.notes.declared[id]? = some inner) (noRoot : ∀ ds vs e, kind ≠ .root ds vs e)
    (noTable : ∀ name properties, kind ≠ .definition name properties) :
    enter id lineage around w = .ok (.withState inner) { w with notes := w.notes.record id around } := by
  rw [enter_eq lineage around held, noted]
  cases kind <;> first | rfl | exact absurd rfl (noRoot _ _ _) | exact absurd rfl (noTable _ _)

theorem tour_single {name : String} (waiting : Waiting w lineage around view (node id kind [s])) (nested : declaration?
    kind = some (name, false)) (noTable : ∀ name properties, kind ≠ .definition name properties) (inside : ∀ {w : Workspace Notes} {inner : Nat}, Placed w
    (id :: lineage) inner view s → (∀ name, w.notes.result.scopes.symbol? inner name = none) → Outcome (· = inner) s
    (s.resolve view) w (s.tour visitor (id :: lineage) inner w)) : Outcome (Own w.notes (node id kind [s])) (node id
    kind [s]) ((s.resolve view).map fun s' => node id kind [s']) w ((node id kind [s]).tour visitor lineage around w) :=
    by
  have noLet := declaration?_let nested
  obtain ⟨inner, noted, opened⟩ := waiting.noted
  obtain ⟨parent, empty⟩ := opened nested
  have held := waiting.stands.held
  have record : Opened (Own w.notes (node id kind [s])) (node id kind [s]) around w _ := opened_record waiting.sane ..
  have placed : Placed { w with notes := w.notes.record id around } (id :: lineage) inner view s := by
    refine ⟨waiting.toSeated.child (by simp) record (Scopes.lt_size_of_parent? parent) fun shown => ?_,
      fun x part => waiting.free x (by simpa using part), ?_⟩
    · have own : (inOwnValue w.arena · (s.id :: id :: lineage)) = (inOwnValue w.arena · (id :: lineage)) :=
        funext fun x => inOwnValue_below held fun name next => noLet name s.id next
      rw [own, ← waiting.sees shown]
      refine (seen_empty waiting.sane.ordered empty _ shown).trans ?_
      rw [parent, Option.bind_some, id_node]
    · simp only [List.head?_cons, Arena.isPropertyName, Option.bind_some, held]
      cases kind <;> first | rfl | cases nested
  have whole : ((s.resolve view).map fun s' => node id kind [s']) =
      ((s.resolve view).bind fun s' => (some []).map (s' :: ·)).map (node id kind) := by
    cases s.resolve view <;> rfl
  rw [whole]
  refine tour_node waiting.stands waiting.once (by rintro name rfl; cases nested) (fun parts' done => ?_)
    (enter_noted lineage held noted (by rintro ds vs e rfl; cases nested) noTable) rfl (record.advanced waiting.there)
    (by simp [Notes.record]) (fun _ _ same => same) ?_
  · obtain ⟨s', found, last⟩ := Option.bind_eq_some_iff.1 done
    cases last
    simp [(ids_resolve found).1]
  · exact .cons (fun found => (ids_resolve found).2) (by simp [idsOf]) (fun i _ (here : i = inner) => ⟨⟨name, nested⟩, here ▸ noted⟩)
      (inside placed empty) fun advanced => .nil advanced.sane

theorem method_within {name : String} {params : List Tree} {body : Tree} {inner : Nat} (leaves : ∀ t ∈ params,
    t.IsParam) (inside : body.Expression) (placed : Placed w lineage inner view (node id (.function (some name)
    (params.map Tree.id) body.id) (params ++ [body]))) (empty : ∀ name, w.notes.result.scopes.symbol? inner name = none)
    : Outcome (· = inner) (node id (.function (some name) (params.map Tree.id) body.id) (params ++ [body])) ((node id
    (.function (some name) (params.map Tree.id) body.id) (params ++ [body])).resolve view) w ((node id (.function (some
    name) (params.map Tree.id) body.id) (params ++ [body])).tour visitor lineage inner w) := by
  have held := placed.stands.held
  have free : w.notes.declared[id]? = none := placed.free id (by simp [ids])
  have ran := enter_eq lineage inner held
  rw [free] at ran
  obtain ⟨new, opened, bound⟩ := bind_ok (empty name) id false
  obtain ⟨adds, rfl, size⟩ := bind_adds placed.there bound
  have sane : Sane w.arena opened := bind_sane placed.sane placed.there bound (by simp [held, Kind.bound?])
    (by simp [held]) (by simp [held])
  obtain ⟨around, nothing⟩ := adds.opened le_rfl (size ▸ Nat.lt_succ_self _)
  have outside : inOwnValue w.arena id (id :: lineage) = false :=
    inOwnValue_of_not_mem (placed.apart id (by simp [ids]))
  rw [resolve_function leaves inside]
  refine tour_function leaves (Resolution.Expression.tours inside) placed
    (ran.trans (bind_of_ok (bind_of_ok_scopes bound))) adds.toGrows sane size around nothing
    (fun x now => by simpa using adds.binds now) fun shown => ?_
  change _ = ([(name, id)].lookup shown).or (view shown)
  rw [← placed.sees shown]
  exact adds.seen_with placed.sane.ordered sane.ordered placed.there empty (by simpa using outside) shown

theorem Expression.within (expression : t.Expression) {inner : Nat} (placed : Placed w lineage inner view t) :
    Outcome changed t (t.resolve view) w (t.tour visitor lineage inner w) :=
  (Resolution.Expression.tours expression placed).mono fun _ _ => False.elim

theorem property_result (property : t.IsProperty) (waiting : Waiting w lineage around view t) :
    Outcome (Own w.notes t) t (t.resolve view) w (t.tour visitor lineage around w) := by
  cases property with
  | @column id name declared =>
    obtain ⟨inner, noted, -⟩ := waiting.noted
    change Outcome _ _ ((some []).map (node id (.column name declared))) _ _
    exact tour_node waiting.stands waiting.once (by simp) (by simp)
      (enter_noted lineage waiting.stands.held noted (by simp) (by simp)) rfl
      ((opened_record waiting.sane ..).advanced waiting.there) (by simp [Notes.record])
      (fun _ _ same => same) (.nil waiting.sane)
  | derived inside =>
    rw [resolve_single (by simp [Resolution.declaration?])]
    exact tour_single waiting rfl (by simp) fun placed _ => Expression.within inside placed
  | method leaves inside =>
    rw [resolve_single (by simp [Resolution.declaration?])]
    exact tour_single waiting rfl (by simp) fun placed empty => method_within leaves inside placed empty

section Declared

variable {a : Arena} {n n' : Notes} {scope : Nat} {outer : View}

theorem not_let_of_declared (stand : ∀ t ∈ ts, t.StandsIn a) (declared : ∀ t ∈ ts, ∃ name leaf, declaration? t.kind =
    some (name, leaf)) {x : NodeId} (listed : x ∈ ts.map Tree.id) (name : String) (value next : NodeId) : a.kind? x ≠
    some (.binding name value next) := by
  intro held
  obtain ⟨u, other, rfl⟩ := List.mem_map.1 listed
  obtain ⟨name, leaf, declared⟩ := declared u other
  exact declaration?_let declared _ _ _ (Option.some_injective _ ((stand u other).kind.symm.trans held))

theorem snd_mem_of_declared {x : String × NodeId} (listed : x ∈ declaredNames ts) : x.2 ∈ ts.map Tree.id := by
  obtain ⟨u, other, same⟩ := List.mem_filterMap.1 listed
  obtain ⟨_, -, rfl⟩ := Option.map_eq_some_iff.1 same
  exact List.mem_map_of_mem other

theorem Declares.bound (declares : Declares a n n' scope ts) {x : NodeId} (now : n'.result.scopes.Binds x) :
    x ∈ ts.map Tree.id ∨ n.result.scopes.Binds x := by
  refine (declares.adds.binds now).imp_left fun listed => ?_
  obtain ⟨pair, inside, rfl⟩ := List.mem_map.1 listed
  exact snd_mem_of_declared inside

theorem Declares.sees (declares : Declares a n n' scope ts) (sane : Sane a n.result.scopes) (there : scope <
    n.result.scopes.size) (empty : ∀ name, n.result.scopes.symbol? scope name = none) (stand : ∀ t ∈ ts, t.StandsIn a)
    (declared : ∀ t ∈ ts, ∃ name leaf, declaration? t.kind = some (name, leaf)) {path : List NodeId} {shown : String}
    (around : (n.result.scopes.parent? scope).bind (n.result.scopes.seen (inOwnValue a · path) · shown) = outer shown) :
    n'.result.scopes.seen (inOwnValue a · path) scope shown = outer.with (declaredNames ts) shown := by
  refine (declares.adds.seen_with sane.ordered declares.sane.ordered there empty (fun x listed => ?_) shown).trans ?_
  · exact inOwnValue_of_other (not_let_of_declared stand declared (snd_mem_of_declared listed))
  · rw [seen_empty sane.ordered empty, around, View.with]

theorem Declares.waiting (declares : Declares a n n' scope ts) (sane : Sane a n.result.scopes) (there : scope <
    n.result.scopes.size) (empty : ∀ name, n.result.scopes.symbol? scope name = none) (stand : ∀ t ∈ ts, t.StandsIn a)
    (once : (idsOf ts).Nodup) (apart : ∀ x ∈ idsOf ts, x ∉ lineage) (free : ∀ x ∈ idsOf ts, n.declared[x]? = none)
    (unbound : ∀ x ∈ idsOf ts, ∀ {name value next}, a.kind? x = some (.binding name value next) → ¬
    n.result.scopes.Binds x) (declared : ∀ t ∈ ts, ∃ name leaf, declaration? t.kind = some (name, leaf)) (around : ∀ t ∈
    ts, ∀ shown, (n.result.scopes.parent? scope).bind (n.result.scopes.seen (inOwnValue a · (t.id :: lineage)) · shown)
    = outer shown) (part : t ∈ ts) : Waiting ⟨a, n'⟩ lineage scope (outer.with (declaredNames ts)) t := by
  have inside {x : NodeId} (listed : x ∈ t.ids) : x ∈ idsOf ts := mem_idsOf.2 ⟨t, part, listed⟩
  refine ⟨⟨stand t part, nodup_of_mem once part, fun x listed => apart x (inside listed), ?_,
    there.trans_le declares.adds.size, declares.sane, fun shown =>
      declares.sees sane there empty stand declared (around t part shown)⟩, ?_, ?_⟩
  · intro x listed name value next held now
    obtain listed' | before := declares.bound now
    · exact not_let_of_declared stand declared listed' _ _ _ held
    · exact unbound x (inside listed) held before
  · obtain ⟨name, leaf, declared⟩ := declared t part
    cases leaf with
    | true =>
      refine ⟨scope, declares.leaf t part declared, fun nested => ?_⟩
      cases declared.symm.trans nested
    | false =>
      obtain ⟨inner, noted, beyond, below⟩ := declares.inner t part declared
      exact ⟨inner, noted, fun _ => declares.adds.opened beyond below⟩
  · intro x listed
    have whole : x ∈ t.ids := by
      cases t
      exact .tail _ listed
    rw [declares.other, free x (inside whole)]
    intro mapped
    obtain ⟨u, other, rfl⟩ := List.mem_map.1 mapped
    obtain rfl := eq_of_shared once part other whole u.id_mem_ids
    have once := nodup_of_mem once part
    cases t
    exact (List.nodup_cons.1 once).1 listed

theorem Declares.advanced (declares : Declares a n n' scope ts) :
    Advanced (ts.map Tree.id) (· = scope) ⟨a, n⟩ ⟨a, n'⟩ where
  kept _ _ := rfl
  names := .refl _
  grows := declares.adds.toGrows
  sane := declares.sane
  declared := declares.other
  bound _ := declares.bound
  earlier _ known := declares.recorded.symm ▸ known
  recorded known := .inl (declares.recorded ▸ known)

theorem Declares.beyond (declares : Declares a n n' scope ts) (part : t ∈ ts) {i : Nat} (own : Own n' t i) :
    n.result.scopes.size ≤ i := by
  obtain ⟨⟨name, nested⟩, found⟩ := own
  obtain ⟨inner, noted, beyond, -⟩ := declares.inner t part nested
  obtain rfl := Option.some_injective _ (noted.symm.trans found)
  exact beyond

theorem Declares.later (declares : Declares a n n' scope ts) {u : Tree} (part : t ∈ ts) (other : u ∈ ts) (separate : ∀ x
    ∈ u.ids, x ∉ t.ids) (first : Waiting w lineage around view t ∧ ∀ i, Own w.notes t i ↔ Own n' t i) (second : Waiting
    w lineage around view u ∧ ∀ i, Own w.notes u i ↔ Own n' u i) (advanced : Advanced t.ids (Own n' t) w w') : Waiting
    w' lineage around view u ∧ ∀ i, Own w'.notes u i ↔ Own n' u i := by
  refine ⟨second.1.later advanced separate (fun i own => first.1.inwards ((first.2 i).2 own))
    fun {name i} nested found own => ?_, fun i => ?_⟩
  · have mine := (second.2 i).1 ⟨⟨name, nested⟩, found⟩
    have clash := declares.apart t part u other own.1.choose_spec mine.1.choose_spec own.2 mine.2
    exact separate _ u.id_mem_ids (clash ▸ t.id_mem_ids)
  · rw [← second.2 i, Own, Own, advanced.declared _ (separate _ u.id_mem_ids)]

end Declared

theorem definition_result {name : String} {properties : List Tree} (each : ∀ t ∈ properties, t.IsProperty) (waiting :
    Waiting w lineage around view (node id (.definition name (properties.map Tree.id)) properties)) : Outcome (Own
    w.notes (node id (.definition name (properties.map Tree.id)) properties)) (node id (.definition name (properties.map
    Tree.id)) properties) ((node id (.definition name (properties.map Tree.id)) properties).resolveItem view) w ((node
    id (.definition name (properties.map Tree.id)) properties).tour visitor lineage around w) := by
  have held := waiting.stands.held
  have once := List.nodup_cons.1 waiting.once
  have stand : ∀ t ∈ properties, t.StandsIn w.arena := fun t part => waiting.stands.child part
  have unbound : ∀ x ∈ idsOf properties, ∀ {name value next},
      w.arena.kind? x = some (.binding name value next) → ¬ w.notes.result.scopes.Binds x :=
    fun x inside => waiting.unbound x (.tail _ inside)
  obtain ⟨inner, noted, opened⟩ := waiting.noted
  rw [id_node] at noted
  obtain ⟨parent, empty⟩ := opened rfl
  have there := Scopes.lt_size_of_parent? parent
  have declarable : Declarable w.arena inner properties := fun t part =>
    ⟨(stand t part).kind, (each t part).declares.1, fun same =>
      absurd same ((each t part).declares.2 _ _)⟩
  have entered : enter id lineage around w = (do
      (properties.map Tree.id).forM (declare inner)
      return .withState inner : Resolving (Entry ScopeId)) ⟨w.arena, w.notes.record id around⟩ := by
    rw [enter_eq lineage around held, noted]
    rfl
  obtain ⟨succeeds, fails⟩ := declare_all (n := w.notes.record id around) there waiting.sane declarable
    (nodup_map_id once.2)
  rw [resolveItem]
  by_cases distinct : ((declaredNames properties).map Prod.fst).Nodup
  · rw [if_pos distinct]
    obtain ⟨n, declared, declares⟩ := succeeds ⟨distinct, fun x _ => empty x⟩
    have ready {t : Tree} (part : t ∈ properties) :
        Waiting ⟨w.arena, n⟩ (id :: lineage) inner (view.with (declaredNames properties)) t := by
      refine declares.waiting waiting.sane there empty stand once.2 (fun x => child_apart waiting.once waiting.apart)
        (fun x inside => waiting.free x inside) unbound (fun t part => (each t part).declares.1)
        (fun t part shown => ?_) part
      have own : (inOwnValue w.arena · (t.id :: id :: lineage)) =
          (inOwnValue w.arena · (id :: lineage)) :=
        funext fun x => inOwnValue_below held (by simp)
      change (w.notes.result.scopes.parent? inner).bind _ = _
      rw [own, parent]
      exact waiting.sees shown
    have record : Opened (Own w.notes (node id (.definition name (properties.map Tree.id)) properties))
      (node id (.definition name (properties.map Tree.id)) properties) around w _ := opened_record waiting.sane ..
    have below : OutcomeAll (fun i => ∃ t ∈ properties, Own n t i) .. := tourAll_each (Own n)
      (fun w t => Waiting w (id :: lineage) inner (view.with (declaredNames properties)) t ∧
        ∀ i, Own w.notes t i ↔ Own n t i)
      (fun t part {w} ready => (property_result (each t part) ready.1).mono fun i _ => (ready.2 i).1)
      (fun t _ {t'} found => (ids_resolve found).2)
      (fun t part u other separate {_ _} => declares.later part other separate) (fun t part i own => ⟨t, part, own⟩)
      (fun t part => ⟨ready part, fun _ => .rfl⟩) once.2 declares.sane
    rw [resolveAll_eq_mapM]
    refine tour_node waiting.stands waiting.once (by simp) (fun parts' done => ?_)
      (entered.trans (bind_of_ok declared)) rfl
      (((record.advanced waiting.there).trans declares.advanced fun i _ same => ⟨⟨name, rfl⟩, same ▸ noted⟩).mono ?_ fun _ _ same => same)
      (declares.recorded ▸ by simp [Notes.record]) (fun i old own => ?_) below
    · exact (Resolves.all_ids (resolves_mapM (fun _ _ _ => resolves_of_resolve) done)).1
    · refine List.append_subset.2 ⟨List.Subset.refl _, fun x listed => ?_⟩
      obtain ⟨t, part, rfl⟩ := List.mem_map.1 listed
      exact .tail _ (mem_idsOf.2 ⟨t, part, t.id_mem_ids⟩)
    · obtain ⟨t, part, own⟩ := own
      exact absurd (declares.beyond part own) (Nat.not_le.2 old)
  · rw [if_neg distinct]
    obtain ⟨e, w', failed⟩ := fails fun ok => distinct ok.1
    have before : visitor.before id lineage around w = .error e w' := entered.trans (bind_of_error failed)
    exact ⟨e, w', by rw [tour, bind_of_error before]⟩

theorem item_result (item : t.IsItem) (waiting : Waiting w lineage around view t) :
    Outcome (Own w.notes t) t (t.resolveItem view) w (t.tour visitor lineage around w) := by
  cases item with
  | definition each => exact definition_result each waiting
  | assignment inside =>
    rw [resolveItem, resolve_single (by simp [declaration?])]
    · exact tour_single waiting rfl (by simp) fun placed _ => Expression.within inside placed
    · simp

end Resolution

end DerivedTables
