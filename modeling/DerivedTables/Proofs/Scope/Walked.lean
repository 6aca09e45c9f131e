import DerivedTables.Proofs.Scope.Resolved

/-!
The walk that opens scopes binds the names of an expression to what is visible.
-/

namespace DerivedTables

namespace Resolution

open Pass Scopes Tree

variable {a b : Arena} {w w' w₁ : Workspace Notes} {lineage : Lineage} {scope : Nat} {view : View}
  {t t' s : Tree} {ts ts' : List Tree} {id : NodeId} {kind : Kind} {parts : List Tree} {changed mine : Nat → Prop}
  {ids others : List NodeId}
variable {params : List Tree} {binding : NodeId} {name : String}

structure Seated (w : Workspace Notes) (lineage : Lineage) (scope : Nat) (view : View) (t : Tree) : Prop where
  stands : t.StandsIn w.arena
  once : t.ids.Nodup
  apart : ∀ x ∈ t.ids, x ∉ lineage
  unbound : ∀ x ∈ t.ids, ∀ {name value next}, w.arena.kind? x = some (.binding name value next) →
    ¬ w.notes.result.scopes.Binds x
  there : scope < w.notes.result.scopes.size
  sane : Sane w.arena w.notes.result.scopes
  sees : ∀ name,
    w.notes.result.scopes.seen (inOwnValue w.arena · (t.id :: lineage)) scope name = view name

structure Placed (w : Workspace Notes) (lineage : Lineage) (scope : Nat) (view : View) (t : Tree) : Prop
    extends Seated w lineage scope view t where
  free : ∀ x ∈ t.ids, w.notes.declared[x]? = none
  used : w.arena.isPropertyName t.id lineage.head? = false

structure Advanced (ids : List NodeId) (changed : Nat → Prop) (w w' : Workspace Notes) : Prop where
  kept : ∀ x ∉ ids, w'.arena.kind? x = w.arena.kind? x
  names : Names w.arena w'.arena
  grows : w.notes.result.scopes.Grows changed w'.notes.result.scopes
  sane : Sane w'.arena w'.notes.result.scopes
  declared : ∀ x ∉ ids, w'.notes.declared[x]? = w.notes.declared[x]?
  bound : ∀ x, w'.notes.result.scopes.Binds x → x ∈ ids ∨ w.notes.result.scopes.Binds x
  earlier : ∀ x ∈ w.notes.result.recorded, x ∈ w'.notes.result.recorded
  recorded : ∀ {x : NodeId} {i : ScopeId}, w'.notes.result.recorded[x]? = some i →
    w.notes.result.recorded[x]? = some i ∨ i < w'.notes.result.scopes.size

namespace Advanced

theorem refl (sane : Sane w.arena w.notes.result.scopes) : Advanced ids changed w w :=
  ⟨fun _ _ => rfl, .refl _, .refl _ _, sane, fun _ _ => rfl, fun _ => .inr, fun _ known => known, .inl⟩

theorem trans {w'' : Workspace Notes} {later : Nat → Prop} (first : Advanced ids changed w w')
    (second : Advanced others later w' w'') (fewer : ∀ i < w.notes.result.scopes.size, later i → changed i) :
    Advanced (ids ++ others) changed w w'' where
  kept x outside := by
    rw [List.mem_append, not_or] at outside
    exact (second.kept x outside.2).trans (first.kept x outside.1)
  names := first.names.trans second.names
  grows := first.grows.trans second.grows fewer
  sane := second.sane
  declared x outside := by
    rw [List.mem_append, not_or] at outside
    exact (second.declared x outside.2).trans (first.declared x outside.1)
  bound x now := by
    rw [List.mem_append]
    obtain new | before := second.bound x now
    · exact .inl (.inr new)
    · exact (first.bound x before).imp_left .inl
  earlier x known := second.earlier x (first.earlier x known)
  recorded known := (second.recorded known).elim
    (fun before => (first.recorded before).imp_right fun below => below.trans_le second.grows.size) .inr

theorem mono (advanced : Advanced ids mine w w') (subset : ids ⊆ others)
    (fewer : ∀ i < w.notes.result.scopes.size, mine i → changed i) : Advanced others changed w w' :=
  { advanced with
    kept := fun x outside => advanced.kept x fun inside => outside (subset inside)
    grows := (Grows.refl _ _).trans advanced.grows fewer
    declared := fun x outside => advanced.declared x fun inside => outside (subset inside)
    bound := fun x now => (advanced.bound x now).imp_left (subset ·) }

end Advanced

structure Opened (changed : Nat → Prop) (t : Tree) (scope : Nat) (w w' : Workspace Notes) : Prop where
  arena : w'.arena = w.arena
  recorded : w'.notes.result.recorded = w.notes.result.recorded.insert t.id scope
  grows : w.notes.result.scopes.Grows changed w'.notes.result.scopes
  sane : Sane w.arena w'.notes.result.scopes
  declared : w'.notes.declared = w.notes.declared
  bound : ∀ x, w'.notes.result.scopes.Binds x → w.notes.result.scopes.Binds x ∨
    x ∈ t.ids ∧ (x = t.id ∨ ∃ name declared, w.arena.kind? x = some (.param name declared))

theorem opened_record (sane : Sane w.arena w.notes.result.scopes) (t : Tree) (scope : Nat) :
    Opened changed t scope w { w with notes := w.notes.record t.id scope } :=
  ⟨rfl, rfl, .refl _ _, sane, rfl, fun _ => .inl⟩

theorem Opened.advanced (opened : Opened changed t scope w w') (there : scope < w.notes.result.scopes.size) :
    Advanced t.ids changed w w' where
  kept x _ := by rw [opened.arena]
  names := opened.arena ▸ .refl _
  grows := opened.grows
  sane := opened.arena.symm ▸ opened.sane
  declared x _ := by rw [opened.declared]
  bound x now := ((opened.bound x now).imp_right And.left).symm
  earlier x known := by simp [opened.recorded, known]
  recorded {x i} known := by
    rw [opened.recorded, Std.TreeMap.getElem?_insert] at known
    split at known
    · cases known
      exact .inr (there.trans_le opened.grows.size)
    · exact .inl known

theorem Names.isPropertyName (names : Names a b) (x : NodeId) (parent : Option NodeId) :
    b.isPropertyName x parent = a.isPropertyName x parent := by
  cases parent with
  | none => rfl
  | some p =>
    obtain same | ⟨name, target, held, bound⟩ := names p
    · simp [Arena.isPropertyName, same]
    · simp [Arena.isPropertyName, held, bound]

theorem Seated.later (seated : Seated w lineage scope view s) (advanced : Advanced ids changed w w')
    (other : ∀ x ∈ s.ids, x ∉ ids) (inwards : ∀ i, changed i → scope < i) : Seated w' lineage scope view s where
  stands := seated.stands.congr fun x inside => advanced.kept x (other x inside)
  once := seated.once
  apart := seated.apart
  unbound x inside {_ _ _} held now := by
    obtain new | before := advanced.bound x now
    · exact other x inside new
    · exact seated.unbound x inside (advanced.names.kind_back held (by simp)) before
  there := seated.there.trans_le advanced.grows.size
  sane := advanced.sane
  sees name := by
    have own : (inOwnValue w'.arena · (s.id :: lineage)) = (inOwnValue w.arena · (s.id :: lineage)) :=
      funext fun x => advanced.names.inOwnValue x _
    rw [own, advanced.grows.seen_eq seated.sane.ordered advanced.sane.ordered seated.there inwards]
    exact seated.sees name

theorem Placed.later (placed : Placed w lineage scope view s) (advanced : Advanced ids changed w w')
    (other : ∀ x ∈ s.ids, x ∉ ids) (inwards : ∀ i, changed i → scope < i) : Placed w' lineage scope view s where
  toSeated := placed.toSeated.later advanced other inwards
  free x inside := (advanced.declared x (other x inside)).trans (placed.free x inside)
  used := (advanced.names.isPropertyName ..).trans placed.used

theorem inOwnValue_below {child : NodeId} (held : a.kind? id = some kind) (other : ∀ name next, kind ≠ .binding name
    child next) : inOwnValue a binding (child :: id :: lineage) = inOwnValue a binding (id :: lineage) := by
  rw [inOwnValue, Bool.or_eq_right_iff_imp]
  intro both
  obtain ⟨here, inside⟩ := Bool.and_eq_true_iff.1 both
  obtain rfl : id = binding := by simpa using here
  rw [held] at inside
  split at inside
  · rename_i name value next same
    cases same
    obtain rfl : child = value := by simpa using inside
    exact absurd rfl (other name next)
  · cases inside

theorem inOwnValue_value {child next : NodeId} (held : a.kind? id = some (.binding name child next)) :
    inOwnValue a binding (child :: id :: lineage) = (id == binding || inOwnValue a binding (id :: lineage)) := by
  rw [inOwnValue]
  cases same : id == binding with
  | true =>
    obtain rfl : id = binding := by simpa using same
    simp [held]
  | false => rfl

theorem inOwnValue_of_not_mem {path : List NodeId} (outside : binding ∉ path.tail) :
    inOwnValue a binding path = false := by
  induction path with
  | nil => rfl
  | cons child path ih =>
    cases path with
    | nil => rfl
    | cons parent rest =>
      simp only [List.tail_cons, List.mem_cons, not_or] at outside
      rw [inOwnValue, ih (by simpa using outside.2), Bool.or_false, Bool.and_eq_false_iff]
      exact .inl (by simpa using fun same => outside.1 same.symm)

theorem inOwnValue_of_other {path : List NodeId} (other : ∀ name value next, a.kind? binding ≠ some (.binding name value
    next)) : inOwnValue a binding path = false := by
  by_contra inside
  obtain ⟨name, value, next, held⟩ := kind_of_inOwnValue (Bool.not_eq_false _ ▸ inside)
  exact other _ _ _ held

theorem leave_other (held : w.arena.kind? id = some kind) (noName : ∀ name, kind ≠ .identifier name) :
    leave id lineage scope w = .ok none w := by
  rw [leave, bind_of_ok (Pass.kind_of_some held)]
  cases kind <;> first | rfl | exact absurd rfl (noName _)

theorem leave_property (held : w.arena.kind? id = some (.identifier name))
    (member : w.arena.isPropertyName id lineage.head? = true) : leave id lineage scope w = .ok none w := by
  rw [leave, bind_of_ok (Pass.kind_of_some held)]
  simp only
  rw [bind_of_ok (Pass.arena_run w), if_pos member]
  rfl

theorem leave_name (placed : Placed w lineage scope view t)
    (held : w.arena.kind? t.id = some (.identifier name)) :
    match view name with
    | some target => leave t.id lineage scope w =
        .ok none { w with arena := w.arena.setKind t.id (.reference target name) }
    | none => ∃ e w', leave t.id lineage scope w = .error e w' := by
  have read : (Pass.notes : Resolving Notes) w = .ok w.notes w := rfl
  have found := lookup?_node placed.sane scope name (t.id :: lineage) placed.there
  rw [placed.sees] at found
  rw [← found, leave, bind_of_ok (Pass.kind_of_some held)]
  simp only
  rw [bind_of_ok (Pass.arena_run w), if_neg (by simp [placed.used]), bind_of_ok read]
  cases lookup? w.arena w.notes.result.scopes scope name (t.id :: lineage) with
  | none => exact ⟨_, _, rfl⟩
  | some symbol => rfl

def Becomes {α : Type} (stands : Arena → α → Prop) (changed : Nat → Prop) (ids : List NodeId) (resolved : Option α)
    (w : Workspace Notes) (run : EStateM.Result ScopeError (Workspace Notes) Unit) : Prop :=
  match resolved with
  | some t' => ∃ w', run = .ok () w' ∧ stands w'.arena t' ∧ Advanced ids changed w w' ∧
      ∀ x ∈ ids, x ∈ w'.notes.result.recorded
  | none => ∃ e w', run = .error e w'

theorem Becomes.mono {α : Type} {stands : Arena → α → Prop} {resolved : Option α}
    {run : EStateM.Result ScopeError (Workspace Notes) Unit} (outcome : Becomes stands mine ids resolved w run)
    (fewer : ∀ i < w.notes.result.scopes.size, mine i → changed i) : Becomes stands changed ids resolved w run := by
  cases resolved with
  | none => exact outcome
  | some t' =>
    obtain ⟨w', ran, stand, advanced, entered⟩ := outcome
    exact ⟨w', ran, stand, advanced.mono (List.Subset.refl _) fewer, entered⟩

abbrev Outcome (changed : Nat → Prop) (t : Tree) := Becomes StandsIn changed t.ids

abbrev OutcomeAll (changed : Nat → Prop) (ts : List Tree) :=
  Becomes (fun a (ts' : List Tree) => ∀ t ∈ ts', t.StandsIn a) changed (idsOf ts)

theorem OutcomeAll.nil (sane : Sane w.arena w.notes.result.scopes) :
    OutcomeAll changed [] (some []) w (tourAll visitor lineage scope [] w) :=
  ⟨w, rfl, by simp, .refl sane, by simp [idsOf]⟩

theorem OutcomeAll.cons {resolved : Option Tree} {rest : Option (List Tree)} (same : ∀ {t'}, resolved = some t' → t'.ids
    = t.ids) (separate : ∀ x ∈ t.ids, x ∉ idsOf ts) (fewer : ∀ i < w.notes.result.scopes.size, mine i → changed i)
    (first : Outcome mine t resolved w (t.tour visitor lineage scope w)) (second : ∀ {w₁}, Advanced t.ids mine w w₁ →
    OutcomeAll changed ts rest w₁ (tourAll visitor lineage scope ts w₁)) : OutcomeAll changed (t :: ts) (resolved.bind
    fun t' => rest.map (t' :: ·)) w (tourAll visitor lineage scope (t :: ts) w) := by
  rw [tourAll]
  cases resolved with
  | none =>
    obtain ⟨e, w', failed⟩ := first
    exact ⟨e, w', bind_of_error failed⟩
  | some t' =>
    obtain ⟨w₁, toured, stands, advanced, entered⟩ := first
    have second := second advanced
    rw [Option.bind_some, bind_of_ok toured]
    cases rest with
    | none => exact second
    | some ts' =>
      obtain ⟨w₂, ran, stand, further, entered'⟩ := second
      refine ⟨w₂, ran, List.forall_mem_cons.2 ⟨?_, stand⟩,
        (advanced.mono (List.Subset.refl _) fewer).trans further fun _ _ same => same, fun x inside => ?_⟩
      · exact stands.congr fun x inside => further.kept x (separate x (same rfl ▸ inside))
      · obtain inside | inside := List.mem_append.1 inside
        · exact further.earlier x (entered x inside)
        · exact entered' x inside

theorem tourAll_each {bind : Tree → Option Tree} (own : Tree → Nat → Prop) (ready : Workspace Notes → Tree → Prop) (each
    : ∀ t ∈ ts, ∀ {w}, ready w t → Outcome (own t) t (bind t) w (t.tour visitor lineage scope w)) (same : ∀ t ∈ ts, ∀
    {t'}, bind t = some t' → t'.ids = t.ids) (later : ∀ t ∈ ts, ∀ u ∈ ts, (∀ x ∈ u.ids, x ∉ t.ids) → ∀ {w w'}, ready w t
    → ready w u → Advanced t.ids (own t) w w' → ready w' u) (fewer : ∀ t ∈ ts, ∀ i, own t i → changed i) (placed : ∀ t ∈
    ts, ready w t) (once : (idsOf ts).Nodup) (sane : Sane w.arena w.notes.result.scopes) : OutcomeAll changed ts
    (ts.mapM bind) w (tourAll visitor lineage scope ts w) := by
  induction ts generalizing w with
  | nil => exact .nil sane
  | cons t rest ih =>
    obtain ⟨-, once_rest, disjoint⟩ := List.nodup_append.1 once
    have separate {x : NodeId} (here : x ∈ t.ids) : x ∉ idsOf rest := fun other => disjoint x here x other rfl
    have whole : (t :: rest).mapM bind = (bind t).bind fun t' => (rest.mapM bind).map (t' :: ·) := by
      rw [List.mapM_cons]
      cases bind t with
      | none => rfl
      | some _ => cases rest.mapM bind <;> rfl
    rw [whole]
    refine .cons (same t (by simp)) (fun x => separate) (fun i _ => fewer t (by simp) i)
      (each t (by simp) (placed t (by simp))) fun advanced => ?_
    refine ih (fun u part => each u (.tail _ part)) (fun u part => same u (.tail _ part))
      (fun u part v other => later u (.tail _ part) v (.tail _ other)) (fun u part => fewer u (.tail _ part))
      (fun u part => ?_) once_rest advanced.sane
    exact later t (by simp) u (.tail _ part) (fun x inside here => separate here (mem_idsOf.2 ⟨u, part, inside⟩))
      (placed t (by simp)) (placed u (.tail _ part)) advanced

def Tours (t : Tree) : Prop :=
  ∀ {w lineage scope view}, Placed w lineage scope view t →
    Outcome (fun _ => False) t (t.resolve view) w (t.tour visitor lineage scope w)

theorem tourAll_outcome (each : ∀ t ∈ ts, Tours t)
    (placed : ∀ t ∈ ts, Placed w lineage scope view t) (once : (idsOf ts).Nodup) (sane : Sane w.arena
    w.notes.result.scopes) : OutcomeAll changed ts (resolveAll view ts) w (tourAll visitor lineage scope ts w) := by
  rw [resolveAll_eq_mapM]
  exact tourAll_each (fun _ _ => False) (Placed · lineage scope view) (fun t part {_} ready => each t part ready)
    (fun _ _ {_} done => (ids_resolve done).2) (fun t _ u _ other {_ _} _ ready advanced => ready.later advanced other fun _ => False.elim)
    (fun _ _ _ => False.elim) placed once sane

theorem enter_plain (placed : Placed w lineage scope view (node id kind parts)) (plain : kind.isAtom = true ∨
    kind.isCompound = true ∨ (∃ s p, kind = .access s p) ∨ ∃ name declared, kind = .param name declared) : enter id
    lineage scope w = .ok .keep { w with notes := w.notes.record id scope } := by
  have free : w.notes.declared[id]? = none := placed.free id (by simp [ids])
  rw [enter_eq lineage scope placed.stands.held, free]
  obtain atom | compound | ⟨s, p, rfl⟩ | ⟨name, declared, rfl⟩ := plain
  · cases kind <;> first | rfl | cases atom
  · cases kind <;> first | rfl | cases compound
  · rfl
  · rfl

theorem child_apart (once : (node id kind parts).ids.Nodup) (apart : ∀ x ∈ (node id kind parts).ids, x ∉ lineage)
    {x : NodeId} (inside : x ∈ idsOf parts) : x ∉ id :: lineage := by
  rw [List.mem_cons, not_or]
  refine ⟨fun same => ?_, apart x (.tail _ inside)⟩
  exact (List.nodup_cons.1 once).1 (same ▸ inside)

theorem Seated.child {inner : Nat} {below : View} (seated : Seated w lineage scope view (node id kind parts))
    (part : s ∈ parts) (opened : Opened changed (node id kind parts) scope w w')
    (there : inner < w'.notes.result.scopes.size)
    (sees : ∀ name, w'.notes.result.scopes.seen (inOwnValue w.arena · (s.id :: id :: lineage)) inner name =
      below name) : Seated w' (id :: lineage) inner below s where
  stands := opened.arena.symm ▸ seated.stands.child part
  once := nodup_of_mem (List.nodup_cons.1 seated.once).2 part
  apart x inside := child_apart seated.once seated.apart (mem_idsOf.2 ⟨s, part, inside⟩)
  unbound x inside {_ _ _} held now := by
    rw [opened.arena] at held
    have listed : x ∈ idsOf parts := mem_idsOf.2 ⟨s, part, inside⟩
    obtain before | ⟨-, rfl | ⟨name, declared, param⟩⟩ := opened.bound x now
    · exact seated.unbound x (.tail _ listed) held before
    · exact child_apart seated.once seated.apart listed (.head _)
    · cases param.symm.trans held
  there := there
  sane := opened.arena.symm ▸ opened.sane
  sees name := by
    rw [opened.arena]
    exact sees name

theorem Placed.child {inner : Nat} {below : View} (placed : Placed w lineage scope view (node id kind parts))
    (part : s ∈ parts) (opened : Opened changed (node id kind parts) scope w w')
    (used : w.arena.isPropertyName s.id (some id) = false) (there : inner < w'.notes.result.scopes.size)
    (sees : ∀ name, w'.notes.result.scopes.seen (inOwnValue w.arena · (s.id :: id :: lineage)) inner name =
      below name) : Placed w' (id :: lineage) inner below s where
  toSeated := placed.toSeated.child part opened there sees
  free x inside := by
    rw [opened.declared]
    exact placed.free x (.tail _ (mem_idsOf.2 ⟨s, part, inside⟩))
  used := opened.arena.symm ▸ used

theorem tour_of_ok {entry : Entry ScopeId} (ran : enter id lineage scope w = .ok entry w₁) (toured : tourAll visitor (id
    :: lineage) (entry.state.getD scope) parts w₁ = .ok () w') (held : w'.arena.kind? id = some kind) (noName : ∀ name,
    kind ≠ .identifier name) : (node id kind parts).tour visitor lineage scope w = .ok () w' := by
  have before : visitor.before id lineage scope w = .ok entry w₁ := ran
  have left : visitor.after id lineage (entry.state.getD scope) w' = .ok none w' := leave_other held noName
  rw [tour, bind_of_ok before, bind_of_ok toured]
  exact discard_of_ok left

theorem tour_node {entry : Entry ScopeId} {resolved : Option (List Tree)} {later : Nat → Prop} (stands : (node id kind
    parts).StandsIn w.arena) (once : (node id kind parts).ids.Nodup) (noName : ∀ name, kind ≠ .identifier name) (slots :
    ∀ parts', resolved = some parts' → parts'.map Tree.id = parts.map Tree.id) (ran : enter id lineage scope w = .ok
    entry w₁) (arena : w₁.arena = w.arena) (advanced : Advanced (node id kind parts).ids changed w w₁) (entered : id ∈
    w₁.notes.result.recorded) (fewer : ∀ i < w.notes.result.scopes.size, later i → changed i) (toured : OutcomeAll later
    parts resolved w₁ (tourAll visitor (id :: lineage) (entry.state.getD scope) parts w₁)) : Outcome changed (node id
    kind parts) (resolved.map (node id kind)) w ((node id kind parts).tour visitor lineage scope w) := by
  cases resolved with
  | none =>
    obtain ⟨e, w', failed⟩ := toured
    have before : visitor.before id lineage scope w = .ok entry w₁ := ran
    exact ⟨e, w', by rw [tour, bind_of_ok before, bind_of_error failed]⟩
  | some parts' =>
    obtain ⟨w₂, done, stand, further, inside⟩ := toured
    have held : w₂.arena.kind? id = some kind := by
      rw [further.kept id (List.nodup_cons.1 once).1, arena]
      exact stands.held
    refine ⟨w₂, tour_of_ok ran done held noName, .node held ?_ stand,
      (advanced.trans further fewer).mono ?_ fun _ _ same => same,
      List.forall_mem_cons.2 ⟨further.earlier id entered, inside⟩⟩
    · rw [slots parts' rfl]
      exact stands.filled
    · exact List.append_subset.2 ⟨List.Subset.refl _, List.subset_cons_self ..⟩

theorem Placed.tour_node {entry : Entry ScopeId} {resolved : Option (List Tree)} (placed : Placed w lineage scope view
    (node id kind parts)) (noName : ∀ name, kind ≠ .identifier name) (slots : ∀ parts', resolved = some parts' →
    parts'.map Tree.id = parts.map Tree.id) (ran : enter id lineage scope w = .ok entry w₁) (opened : Opened changed
    (node id kind parts) scope w w₁) (toured : OutcomeAll changed parts resolved w₁ (tourAll visitor (id :: lineage)
    (entry.state.getD scope) parts w₁)) : Outcome changed (node id kind parts) (resolved.map (node id kind)) w ((node id
    kind parts).tour visitor lineage scope w) :=
  Resolution.tour_node placed.stands placed.once noName slots ran opened.arena (opened.advanced placed.there)
    (by simp [opened.recorded]) (fun _ _ same => same) toured

theorem tours_leaf (noName : ∀ name, kind ≠ .identifier name)
    (plain : kind.isAtom = true ∨ ∃ name declared, kind = .param name declared) : Tours (node id kind []) := by
  intro w lineage scope view placed
  rw [resolve_leaf noName]
  change Outcome _ _ ((some []).map (node id kind)) _ _
  exact placed.tour_node noName (by simp) (enter_plain placed (plain.imp_right fun param => .inr (.inr param)))
    (opened_record placed.sane ..) (.nil placed.sane)

theorem IsParam.tours (leaf : t.IsParam) : Tours t := by
  obtain ⟨id, name, declared, rfl⟩ := leaf
  exact tours_leaf (by simp) (.inr ⟨name, declared, rfl⟩)

theorem tours_name : Tours (node id (.identifier name) []) := by
  intro w lineage scope view placed
  have opened : Opened (fun _ => False) (node id (.identifier name) []) scope w _ := opened_record placed.sane ..
  have recorded := opened.advanced placed.there
  have entered : visitor.before id lineage scope w = _ := enter_plain placed (.inl rfl)
  have left := leave_name (w := { w with notes := w.notes.record id scope })
    ⟨⟨placed.stands, placed.once, placed.apart, placed.unbound, placed.there, placed.sane, placed.sees⟩, placed.free,
      placed.used⟩ placed.stands.held
  have rest : (node id (.identifier name) []).tour visitor lineage scope w =
      (discard (leave id lineage scope) : Resolving Unit)
        { w with notes := w.notes.record id scope } := by
    rw [tour, bind_of_ok entered]
    rfl
  rw [rest]
  change Outcome _ _ ((view name).map _) _ _
  cases found : view name with
  | none =>
    rw [found] at left
    obtain ⟨e, w', failed⟩ := left
    exact ⟨e, w', discard_of_error failed⟩
  | some target =>
    rw [found] at left
    have kinds (x : NodeId) : (w.arena.setKind id (.reference target name)).kind? x =
        if id = x then some (.reference target name) else w.arena.kind? x := by
      rw [Arena.kind?_setKind]
      split
      · rename_i same
        subst same
        rw [placed.stands.held, Option.map_some]
      · rfl
    have names : Names w.arena (w.arena.setKind id (.reference target name)) := by
      intro x
      rw [kinds]
      split
      · rename_i same
        exact .inr ⟨name, target, same ▸ placed.stands.held, rfl⟩
      · exact .inl rfl
    refine ⟨_, discard_of_ok left, .node ((kinds id).trans (if_pos rfl)) rfl (by simp),
      { recorded with kept := fun x outside => ?_, names := names, sane := placed.sane.names names },
      by simp [ids, idsOf, Notes.record]⟩
    rw [ids, List.mem_cons, not_or] at outside
    exact (kinds x).trans (if_neg (Ne.symm outside.1))

theorem Placed.part (placed : Placed w lineage scope view (node id kind parts)) (part : s ∈ parts)
    (noAccess : ∀ s p, kind ≠ .access s p) (noLet : ∀ name value next, kind ≠ .binding name value next) :
    Placed { w with notes := w.notes.record id scope } (id :: lineage) scope view s := by
  have opened : Opened (fun _ => False) (node id kind parts) scope w _ := opened_record placed.sane ..
  refine placed.child part opened ?_ placed.there fun name => ?_
  · rw [Arena.isPropertyName, Option.bind_some, placed.stands.held]
    split
    · rename_i same
      cases same
      exact absurd rfl (noAccess _ _)
    · rfl
  · have own : (inOwnValue w.arena · (s.id :: id :: lineage)) = (inOwnValue w.arena · (id :: lineage)) :=
      funext fun x => inOwnValue_below placed.stands.held fun name next => noLet name s.id next
    rw [own]
    exact placed.sees name

theorem tours_compound (compound : kind.isCompound = true) (each : ∀ t ∈ parts, Tours t) : Tours (node id kind parts) := by
  intro w lineage scope view placed
  have noName : ∀ name, kind ≠ .identifier name := by rintro name rfl; cases compound
  have noAccess : ∀ s p, kind ≠ .access s p := by rintro s p rfl; cases compound
  have noLet : ∀ name value next, kind ≠ .binding name value next := by
    rintro name value next rfl; cases compound
  rw [resolve_compound compound]
  refine placed.tour_node noName (fun parts' done => ?_) (enter_plain placed (.inr (.inl compound)))
    (opened_record placed.sane ..) ?_
  · exact (Resolves.all_ids (resolves_of_resolveAll done)).1
  · exact tourAll_outcome each (fun t part => placed.part part noAccess noLet) (List.nodup_cons.1 placed.once).2
      placed.sane

theorem View.with_cons (view : View) (name shown : String) (id : NodeId) (rest : List (String × NodeId)) :
    view.with ((name, id) :: rest) shown = if name = shown then some id else view.with rest shown := by
  by_cases same : name = shown
  · simp [View.with, same]
  · have differs : (shown == name) = false := by simpa using Ne.symm same
    simp [View.with, List.lookup_cons, differs, same]

@[simp] theorem View.with_nil (view : View) : view.with [] = view := rfl

theorem tours_binding {value next : Tree} (valueTours : Tours value) (nextTours : Tours next) : Tours (node id (.binding name value.id next.id) [value, next]) := by
  intro w lineage scope view placed
  have held := placed.stands.held
  have free : w.notes.declared[id]? = none := placed.free id (by simp [ids])
  have unbound : ¬ w.notes.result.scopes.Binds id := placed.unbound id (by simp [ids]) held
  obtain ⟨made, bind, ran⟩ := entering_let scope w.arena (w.notes.record id scope) name id value.id next.id
  rw [← free, ← enter_eq lineage scope held] at ran
  have outer := placed.sane.nested placed.there
  have nested : w.notes.result.scopes.size < (w.notes.result.scopes.nested scope).2.size := by simp
  have empty (shown : String) : (w.notes.result.scopes.nested scope).2.symbol? w.notes.result.scopes.size shown = none := by
    rw [symbol?_nested, if_pos rfl]
  obtain ⟨adds, -, size⟩ := bind_adds nested bind
  have sane : Sane w.arena made :=
    bind_sane outer nested bind (by simp [held, Kind.bound?]) (fun _ => rfl) (by simp [held])
  have opened : Opened (fun _ => False) (node id (.binding name value.id next.id) [value, next]) scope w
      ⟨w.arena, (w.notes.record id scope).withScopes made⟩ := by
    refine ⟨rfl, rfl, (grows_nested ..).trans adds.toGrows fun i old same => absurd same old.ne, sane, rfl, fun x now => ?_⟩
    obtain here | before := adds.binds now
    · obtain rfl : x = id := by simpa using here
      exact .inr ⟨by simp [ids], .inl rfl⟩
    · obtain ⟨i, shown, symbol, found, same⟩ := before
      rw [symbol?_nested] at found
      split at found
      · cases found
      · exact .inl ⟨i, shown, symbol, found, same⟩
  have inside : w.notes.result.scopes.size + 1 < made.size := by simp [size]
  -- The scope of the parts is empty, and so is the one around it but for the name.
  have seen (own : NodeId → Bool) (shown : String) : made.seen own (w.notes.result.scopes.size + 1) shown =
      ((List.lookup shown [(name, id)]).filter (!own ·)).or (w.notes.result.scopes.seen own scope shown) := by
    obtain ⟨parent, nothing⟩ := adds.opened (by simp) inside
    rw [seen_empty sane.ordered nothing, parent, Option.bind_some, adds.seen outer.ordered sane.ordered nested empty,
      seen_empty outer.ordered empty, parent?_nested, if_pos rfl, Option.bind_some,
      (grows_nested _ scope fun _ => False).seen_eq placed.sane.ordered outer.ordered placed.there fun _ => False.elim]
  have used (s : Tree) : w.arena.isPropertyName s.id (some id) = false := by
    simp [Arena.isPropertyName, held]
  obtain ⟨-, -, disjoint⟩ := List.nodup_append.1 (List.nodup_cons.1 placed.once).2
  have valuePlaced : Placed _ (id :: lineage) _ view value :=
    placed.child (by simp) opened (used _) inside fun shown => by
      have own : (inOwnValue w.arena · (value.id :: id :: lineage)) =
          fun x => id == x || inOwnValue w.arena x (id :: lineage) :=
        funext fun x => inOwnValue_value held
      rw [own]
      refine (seen _ shown).trans ?_
      have passed : (List.lookup shown [(name, id)]).filter
          (fun x => !(id == x || inOwnValue w.arena x (id :: lineage))) = none := by
        cases found : List.lookup shown [(name, id)] with
        | none => rfl
        | some x =>
          obtain ⟨-, rfl⟩ := Prod.mk.inj (List.mem_singleton.1 (mem_of_lookup found))
          simp [Option.filter]
      rw [passed, Option.none_or, ← placed.sees shown]
      refine seen_congr placed.sane.ordered (fun x now => ?_) scope shown
      have other : (id == x) = false := by
        rw [beq_eq_false_iff_ne]
        rintro rfl
        exact unbound now
      simp [other]
  have nextPlaced : Placed _ (id :: lineage) _ (view.with [(name, id)]) next :=
    placed.child (by simp) opened (used _) inside fun shown => by
      have differ : value.id ≠ next.id := disjoint _ value.id_mem_ids _ (by simp)
      have own : (inOwnValue w.arena · (next.id :: id :: lineage)) =
          (inOwnValue w.arena · (id :: lineage)) :=
        funext fun x => inOwnValue_below held fun _ _ same => differ (Kind.binding.inj same).2.1
      have outside : inOwnValue w.arena id (id :: lineage) = false :=
        inOwnValue_of_not_mem (placed.apart id (by simp [ids]))
      rw [own]
      refine (seen _ shown).trans ?_
      rw [View.with, ← placed.sees shown]
      by_cases same : shown = name
      · simp [same, outside]
      · have differs : (shown == name) = false := by simpa using same
        simp [List.lookup_cons, differs]
  have whole : (node id (.binding name value.id next.id) [value, next]).resolve view =
      ((value.resolve view).bind fun v => ((next.resolve (view.with [(name, id)])).bind fun n =>
        (some []).map (n :: ·)).map (v :: ·)).map (node id (.binding name value.id next.id)) := by
    rw [resolve]
    cases value.resolve view with
    | none => rfl
    | some _ => cases next.resolve (view.with [(name, id)]) <;> rfl
  rw [whole]
  refine placed.tour_node (by simp) (fun parts' done => ?_) ran opened ?_
  · obtain ⟨v, valueDone, done⟩ := Option.bind_eq_some_iff.1 done
    obtain ⟨ns, nextDone, rfl⟩ := Option.map_eq_some_iff.1 done
    obtain ⟨n, found, last⟩ := Option.bind_eq_some_iff.1 nextDone
    cases last
    simp [(ids_resolve valueDone).1, (ids_resolve found).1]
  · refine .cons (fun done => (ids_resolve done).2) (fun x here other => disjoint x here x other rfl)
      (fun _ _ same => same) (valueTours valuePlaced) fun advanced => ?_
    have placed' := nextPlaced.later advanced (fun x inside listed => disjoint x listed x (by simpa using inside) rfl)
      fun _ => False.elim
    exact .cons (fun done => (ids_resolve done).2) (by simp [idsOf]) (fun _ _ same => same)
      (nextTours placed') fun advanced => .nil advanced.sane

theorem tour_member {name : NodeId} {field : String} (there : scope < w.notes.result.scopes.size) (sane : Sane w.arena
    w.notes.result.scopes) (held : w.arena.kind? name = some (.identifier field)) (member : w.arena.isPropertyName name
    lineage.head? = true) (free : w.notes.declared[name]? = none) : Outcome changed (node name (.identifier field) [])
    (some (node name (.identifier field) [])) w ((node name (.identifier field) []).tour visitor lineage scope w) := by
  have entering : visitor.before name lineage scope w = .ok .keep { w with notes := w.notes.record name scope } := by
    refine (enter_eq lineage scope held).trans ?_
    rw [free]
    rfl
  have leaving : visitor.after name lineage scope { w with notes := w.notes.record name scope } = .ok none _ :=
    leave_property held member
  refine ⟨{ w with notes := w.notes.record name scope }, ?_, .node held rfl (by simp),
    (opened_record sane (node name (.identifier field) []) scope).advanced there, by simp [ids, idsOf, Notes.record]⟩
  rw [tour, bind_of_ok entering]
  exact discard_of_ok leaving

theorem tours_access {name : NodeId} {field : String} {source : Tree} (sourceTours : Tours source) : Tours (node id (.access source.id name) [source, node name (.identifier field) []]) := by
  intro w lineage scope view placed
  have held := placed.stands.held
  obtain ⟨new, once⟩ := List.nodup_cons.1 placed.once
  obtain ⟨-, -, disjoint⟩ := List.nodup_append.1 once
  have other : name ∉ source.ids := fun listed => disjoint name listed name (by simp [idsOf, ids]) rfl
  have opened : Opened (fun _ => False) (node id (.access source.id name) [source, node name (.identifier field) []])
      scope w _ := opened_record placed.sane ..
  have sourcePlaced : Placed { w with notes := w.notes.record id scope } (id :: lineage) scope view source := by
    refine placed.child (by simp) opened ?_ placed.there fun shown => ?_
    · simp only [Arena.isPropertyName, Option.bind_some, held, beq_eq_false_iff_ne]
      rintro rfl
      exact other source.id_mem_ids
    · have own : (inOwnValue w.arena · (source.id :: id :: lineage)) =
          (inOwnValue w.arena · (id :: lineage)) :=
        funext fun x => inOwnValue_below held (by simp)
      rw [own]
      exact placed.sees shown
  have whole : (node id (.access source.id name) [source, node name (.identifier field) []]).resolve view =
      ((source.resolve view).bind fun s => (some [node name (.identifier field) []]).map (s :: ·)).map
        (node id (.access source.id name)) := by
    rw [resolve]
    cases source.resolve view <;> rfl
  rw [whole]
  refine placed.tour_node (by simp) (fun parts' done => ?_)
    (enter_plain placed (.inr (.inr (.inl ⟨_, _, rfl⟩)))) opened ?_
  · obtain ⟨s, sourceDone, last⟩ := Option.bind_eq_some_iff.1 done
    cases last
    simp [(ids_resolve sourceDone).1]
  refine .cons (fun done => (ids_resolve done).2) (fun x here other => disjoint x here x other rfl)
    (fun _ _ same => same) (sourceTours sourcePlaced) fun {w₁} advanced => ?_
  have member : w₁.arena.kind? name = some (.identifier field) :=
    (advanced.kept name other).trans (placed.stands.child (s := node name (.identifier field) []) (by simp)).held
  have parent : w₁.arena.kind? id = some (.access source.id name) :=
    (advanced.kept id fun listed => new (List.mem_append.2 (.inl listed))).trans held
  have free : w₁.notes.declared[name]? = none :=
    (advanced.declared name other).trans (placed.free name (by simp [ids, idsOf]))
  change OutcomeAll _ _ ((some (node name (.identifier field) [])).bind fun t' => (some []).map (t' :: ·)) _ _
  exact .cons (by simp) (by simp [idsOf]) (fun _ _ same => same)
    (tour_member (placed.there.trans_le advanced.grows.size) advanced.sane member
      (by simp [Arena.isPropertyName, parent]) free) fun advanced => .nil advanced.sane

theorem paramNames_held (leaves : ∀ t ∈ params, t.IsParam) (stand : ∀ t ∈ params, t.StandsIn a) :
    ∀ x ∈ paramNames params, ∃ declared, a.kind? x.2 = some (.param x.1 declared) := by
  intro x listed
  obtain ⟨t, part, shown⟩ := List.mem_filterMap.1 listed
  obtain ⟨name, declared, kind, shown'⟩ := (leaves t part).paramName?
  rw [shown'] at shown
  cases shown
  exact ⟨declared, kind ▸ (stand t part).kind⟩

theorem tour_function {name : Option String} {body : Tree} {opened : Scopes}
    {outer : View} (leaves : ∀ t ∈ params, t.IsParam) (bodyTours : Tours body)
    (placed : Placed w lineage scope view (node id (.function name (params.map Tree.id) body.id) (params ++ [body])))
    (ran : enter id lineage scope w = (do
      bindParams w.notes.result.scopes.size (params.map Tree.id)
      return .withState w.notes.result.scopes.size : Resolving (Entry ScopeId))
        ⟨w.arena, (w.notes.record id scope).withScopes opened⟩)
    (grows : w.notes.result.scopes.Grows changed opened) (sane : Sane w.arena opened)
    (size : opened.size = w.notes.result.scopes.size + 1)
    (around : opened.parent? w.notes.result.scopes.size = some scope)
    (empty : ∀ shown, opened.symbol? w.notes.result.scopes.size shown = none)
    (bound : ∀ x, opened.Binds x → x = id ∨ w.notes.result.scopes.Binds x)
    (sees : ∀ shown, opened.seen (inOwnValue w.arena · (id :: lineage)) scope shown = outer shown) :
    Outcome changed (node id (.function name (params.map Tree.id) body.id) (params ++ [body]))
      (if ((paramNames params).map Prod.fst).Nodup then (body.resolve (outer.with (paramNames params))).map fun body' =>
          node id (.function name (params.map Tree.id) body.id) (params ++ [body']) else none) w
      ((node id (.function name (params.map Tree.id) body.id) (params ++ [body])).tour visitor lineage scope w) := by
  have held := placed.stands.held
  have declared := paramNames_held leaves fun t part => placed.stands.child (by simp [part])
  have new : w.notes.result.scopes.size < opened.size := size ▸ Nat.lt_succ_self _
  rw [← map_snd_paramNames leaves] at ran
  obtain ⟨succeeds, fails⟩ := bindParams_all (n := (w.notes.record id scope).withScopes opened) new sane declared
  by_cases distinct : ((paramNames params).map Prod.fst).Nodup
  · obtain ⟨made, done, adds, -, sane'⟩ := succeeds ⟨distinct, fun x _ => empty x⟩
    have adds : opened.Adds made w.notes.result.scopes.size (paramNames params) := adds
    rw [bind_of_ok done] at ran
    have open_ : Opened changed (node id (.function name (params.map Tree.id) body.id) (params ++ [body])) scope w
        ⟨w.arena, (w.notes.record id scope).withScopes made⟩ := by
      refine ⟨rfl, rfl, grows.trans adds.toGrows fun i old same => absurd same old.ne, sane', rfl, fun x now => ?_⟩
      obtain mapped | before := adds.binds now
      · obtain ⟨pair, listed, rfl⟩ := List.mem_map.1 mapped
        obtain ⟨declared, held⟩ := declared pair listed
        refine .inr ⟨List.mem_cons_of_mem _ ?_, .inr ⟨_, _, held⟩⟩
        rw [map_snd_paramNames leaves] at mapped
        obtain ⟨t, part, same⟩ := List.mem_map.1 mapped
        exact mem_idsOf.2 ⟨t, by simp [part], same ▸ t.id_mem_ids⟩
      · obtain rfl | before := bound x before
        · exact .inr ⟨by simp [ids], .inl rfl⟩
        · exact .inl before
    have each : ∀ t ∈ params ++ [body], Tours t :=
      List.forall_mem_append.2 ⟨fun t part => IsParam.tours (leaves t part), List.forall_mem_singleton.2 bodyTours⟩
    have ready : ∀ t ∈ params ++ [body], Placed ⟨w.arena, (w.notes.record id scope).withScopes made⟩
        (id :: lineage) w.notes.result.scopes.size (outer.with (paramNames params)) t := by
      intro t part
      have own : (inOwnValue w.arena · (t.id :: id :: lineage)) = (inOwnValue w.arena · (id :: lineage)) :=
        funext fun x => inOwnValue_below held (by simp)
      refine placed.child part open_ (by simp [Arena.isPropertyName, held]) (new.trans_le adds.size) fun shown => ?_
      rw [own, View.with, ← sees shown]
      refine (adds.seen_with sane.ordered sane'.ordered new empty (fun x listed => ?_) shown).trans ?_
      · obtain ⟨declared, held⟩ := declared x listed
        exact inOwnValue_of_other (by simp [held])
      · rw [seen_empty sane.ordered empty, around, Option.bind_some]
    rw [if_pos distinct]
    have below : OutcomeAll changed _ _ _ _ := tourAll_outcome each ready (List.nodup_cons.1 placed.once).2 sane'
    rw [resolveAll_params leaves] at below
    have whole := placed.tour_node (by simp) (fun parts' done => ?_) ran open_ below
    · rwa [Option.map_map] at whole
    · obtain ⟨body', found, rfl⟩ := Option.map_eq_some_iff.1 done
      simp [(ids_resolve found).1]
  · rw [if_neg distinct]
    obtain ⟨e, w', failed⟩ := fails fun ok => distinct ok.1
    have before : visitor.before id lineage scope w = .error e w' := ran.trans (bind_of_error failed)
    exact ⟨e, w', by rw [tour, bind_of_error before]⟩

theorem tours_function {body : Tree} (leaves : ∀ t ∈ params, t.IsParam) (inside : body.Expression)
    (bodyTours : Tours body) : Tours (node id (.function none (params.map Tree.id) body.id) (params ++ [body])) := by
  intro w lineage scope view placed
  have free : w.notes.declared[id]? = none := placed.free id (by simp [ids])
  have ran := enter_eq lineage scope placed.stands.held
  rw [free] at ran
  have opened : nested scope ⟨w.arena, w.notes.record id scope⟩ = .ok w.notes.result.scopes.size
      ⟨w.arena, (w.notes.record id scope).withScopes (w.notes.result.scopes.nested scope).2⟩ := rfl
  have grows := w.notes.result.scopes.grows_nested scope fun _ => False
  have sane := placed.sane.nested placed.there
  obtain ⟨around, empty⟩ := (Adds.nested placed.there).opened le_rfl (by simp)
  rw [resolve_function leaves inside]
  exact tour_function leaves bodyTours placed (ran.trans (bind_of_ok opened)) grows sane
    (size_nested ..) around empty (fun x now => .inr (by simpa using (Adds.nested placed.there).binds now))
    fun shown => (grows.seen_eq placed.sane.ordered sane.ordered placed.there (fun _ => False.elim) _ shown).trans
      (placed.sees shown)

theorem Expression.tours (expression : t.Expression) : Tours t := by
  induction expression with
  | @atom id kind atom =>
    by_cases named : ∃ name, kind = .identifier name
    · obtain ⟨name, rfl⟩ := named
      exact tours_name
    · exact tours_leaf (fun name same => named ⟨name, same⟩) (.inl atom)
  | compound compound _ ih => exact tours_compound compound fun t part => ih t part
  | access _ ih => exact tours_access ih
  | binding _ _ valueIH nextIH => exact tours_binding valueIH nextIH
  | function leaves inside ih => exact tours_function leaves inside ih

end Resolution

end DerivedTables
