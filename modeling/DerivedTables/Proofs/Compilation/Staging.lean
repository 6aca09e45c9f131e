import DerivedTables.Proofs.Compilation.Activations
import DerivedTables.Proofs.Compilation.WellFormed
import DerivedTables.Proofs.Storage.Separated

/-!
Typed programs are orderly, and stay so when their rows are recognized.
-/

namespace DerivedTables

namespace Kind

variable {k l : Kind} {filled : List NodeId} {c : NodeId} {r : Role} {R : NodeId → NodeId → Prop}

theorem layer_of_isMaintained (maintained : k.isMaintained = true) : k.layer = .inner := by
  cases k <;> first | rfl | cases maintained

theorem entered_of_isMaintained (maintained : k.isMaintained = true) : k.entered = [] := by
  cases k <;> first | rfl | cases maintained

@[simp] theorem name_withChildren (k : Kind) (filled : List NodeId) : (k.withChildren filled).name = k.name := by
  unfold withChildren
  split <;> rfl

theorem access_of_withChildren {source property : NodeId} (shown : k.withChildren filled = .access source property) :
    ∃ source₀ property₀, k = .access source₀ property₀ := by
  have same : k.name = (Kind.access source property).name := by rw [← shown, name_withChildren]
  cases k <;> first | exact ⟨_, _, rfl⟩ | exact absurd same (by simp [name])

theorem rows_of_withChildren {operand : NodeId} (shown : k.withChildren filled = .rows operand) :
    ∃ operand₀, k = .rows operand₀ := by
  have same : k.name = (Kind.rows operand).name := by rw [← shown, name_withChildren]
  cases k <;> first | exact ⟨_, rfl⟩ | exact absurd same (by simp [name])

/-- What evaluation passes by: parameters, and the names of members and tables. -/
def labels : Kind → List NodeId
  | function _ params _ => params
  | access _ property => [property]
  | rows operand => [operand]
  | _ => []

theorem mem_labels (surface : k.isSurface = true) (layer : k.layer ≠ .program) (child : c ∈ k.children)
    (passed : c ∉ k.entered) : c ∈ k.labels := by
  cases k with
  | function name ps b => exact (List.mem_append.1 child).resolve_right passed
  | access source property => exact (List.mem_cons.1 child).resolve_left fun same => passed (by simp [entered, same])
  | rows operand => exact child
  | root | definition => exact absurd rfl layer
  | split | dataset | filter | pipeline | intent | reduce => cases surface
  | _ => exact absurd child passed

def isMade : Kind → Bool
  | dataset .. | pipeline .. | reduce .. | intent .. => true
  | _ => false

theorem role_of_isMade (made : k.isMade = true) : k.role = .expression := by
  cases k <;> first | rfl | cases made

end Kind

namespace Tree

variable {a b : Arena} {t t' : Tree} {x : NodeId}

theorem Turned.cases_made (turned : t.Turned t') :
    (t' = t ∧ ∀ operand, t.kind ≠ .rows operand) ∨ t.kind.isReplaced = true ∧ t'.kind.isMade = true := by
  cases turned with
  | same other => exact .inl ⟨rfl, other⟩
  | dataset rows made =>
    refine .inr ⟨by rw [rows]; rfl, ?_⟩
    cases kind : t'.kind <;> simp_all [Kind.isCollection, Kind.isMade]
  | intent _ made => exact .inr ⟨rfl, by rw [made]; rfl⟩
  | @call _ _ _ _ _ _ member _ made =>
    refine .inr ⟨rfl, ?_⟩
    cases member <;> cases kind : t'.kind <;>
      simp_all [RowMember.Makes, Kind.isCollection, Kind.isAggregate, Kind.isMade]

theorem Becomes.role (becomes : t.Becomes t') : t'.kind.role = t.kind.role := by
  obtain @⟨id, kind, ts, ts', _, count, each, turned⟩ := becomes
  obtain ⟨rfl, -⟩ | ⟨replaced, made⟩ := turned.cases_made
  · exact Kind.role_withChildren ..
  · rw [Kind.role_of_isMade made]
    rw [Tree.kind, Kind.isReplaced_withChildren] at replaced
    cases kind <;> first | rfl | cases replaced

structure KeptAt (a b : Arena) (t : Tree) (x : NodeId) (k : Kind) (ts ts' : List Tree) : Prop where
  live : x ∈ t.ids
  before : (node x k ts).StandsIn a
  after : (node x (k.withChildren (ts'.map Tree.id)) ts').StandsIn b
  other : ∀ operand, k ≠ .rows operand
  parts : List.Forall₂ Becomes ts ts'

theorem Becomes.at (becomes : t.Becomes t') (stands : t.StandsIn a) (there : t'.StandsIn b) (inside : x ∈ t'.ids) :
    (∃ m : Tree, m.StandsIn b ∧ m.ids ⊆ t'.ids ∧ m.kind.isMade = true ∧ x ∈ m.ids) ∨ ∃ k ts ts', t.KeptAt a b x k ts
    ts' := by
  induction becomes with
  | @node id kind ts ts' t' count each turned ih =>
    obtain ⟨rfl, other⟩ | ⟨-, made⟩ := turned.cases_made
    · obtain rfl | below := List.mem_cons.1 inside
      · refine .inr ⟨kind, ts, ts', id_mem_ids _, stands, there, ?_, List.forall₂_iff_zip.2 ⟨count, fun pair => each _ pair⟩⟩
        rintro operand rfl
        obtain ⟨s, rfl, -⟩ := List.map_eq_singleton_iff.1 stands.filled.symm
        obtain ⟨s', rfl⟩ := List.length_eq_one_iff.1 count.symm
        exact other s'.id rfl
      · obtain ⟨s', part', below⟩ := mem_idsOf.1 below
        obtain ⟨s, pair⟩ : ∃ s, (s, s') ∈ ts.zip ts' := by
          rw [← List.map_snd_zip count.ge] at part'
          obtain ⟨⟨s, _⟩, pair, rfl⟩ := List.mem_map.1 part'
          exact ⟨s, pair⟩
        have part := (List.of_mem_zip pair).1
        obtain ⟨m, standing, subset, made⟩ | ⟨k, us, us', kept⟩ :=
          ih _ pair (stands.child part) (there.child part') below
        · exact .inl ⟨m, standing, List.Subset.trans subset (ids_sublist part').subset, made⟩
        · exact .inr ⟨k, us, us', { kept with live := (ids_sublist part).subset kept.live }⟩
    · exact .inl ⟨t', there, List.Subset.refl _, made, inside⟩

namespace KeptAt

variable {k : Kind} {ts ts' : List Tree} (kept : t.KeptAt a b x k ts ts')

include kept

theorem takes (cast : t.Cast a) :
    ∀ slot ∈ (k.withChildren (ts'.map Tree.id)).takes, b.role? slot.1 = some slot.2 := by
  have same : ts'.map (·.kind.role) = ts.map (·.kind.role) := by
    rw [← List.forall₂_eq_eq_eq, List.forall₂_map_left_iff, List.forall₂_map_right_iff]
    exact (kept.parts.imp fun _ _ becomes => becomes.role).flip
  intro slot listed
  rw [slots_withChildren (kept.before.slots_of_cast (cast x kept.live k kept.before.held)) same] at listed
  obtain ⟨s, part, rfl⟩ := List.mem_map.1 listed
  exact (kept.after.child part).role?

theorem property {source property source' property' : NodeId} {name : String} (access : k = .access source property)
    (access' : k.withChildren (ts'.map Tree.id) = .access source' property')
    (named : a.kind? property = some (.identifier name)) : b.kind? property' = some (.identifier name) := by
  subst access
  obtain ⟨s, _, rfl, rfl, rest⟩ := List.map_eq_cons_iff.1 kept.before.filled.symm
  obtain ⟨p, rfl, rfl⟩ := List.map_eq_singleton_iff.1 rest
  obtain ⟨s', _, -, last, rfl⟩ := List.forall₂_cons_left_iff.1 kept.parts
  obtain ⟨p', _, becomes, nothing, rfl⟩ := List.forall₂_cons_left_iff.1 last
  obtain rfl := List.forall₂_nil_left_iff.1 nothing
  obtain ⟨rfl, rfl⟩ : s'.id = source' ∧ p'.id = property' := by simpa [Kind.withChildren] using access'
  have kind : p.kind = .identifier name :=
    Option.some_injective _ ((kept.before.child (by simp)).kind.symm.trans named)
  obtain ⟨-, head, -⟩ := becomes.sameHead (by rw [kind]; rfl)
  rw [(kept.after.child (show p' ∈ [s', p'] by simp)).kind, head, kind]
  rfl

end KeptAt

end Tree

namespace Storage

variable {a b : Arena} {t t' : Tree} {x c : NodeId} {k : Kind}

theorem not_late_of_leaf (held : a.kind? c = some k) (leaf : k.children = []) (plain : k.isFunction = false)
    (early : ¬ a.MentionsLocal c) : ¬ a.Late c := by
  rintro ⟨y, way, asks⟩
  obtain rfl | ⟨z, ⟨l, held', -, child⟩, -⟩ := Relation.ReflTransGen.cases_head way
  · obtain named | ⟨name, ps, body, held'⟩ := asks
    · exact early named
    · cases held.symm.trans held'
      cases plain
  · cases held.symm.trans held'
    rw [leaf] at child
    cases child

def Idle (k : Kind) : Prop := k.role = .param ∨ ∃ name, k = .identifier name

theorem Idle.passed (idle : Idle k) (held : a.kind? c = some k) :
    ¬ a.Late c ∧ ∀ l, a.kind? c = some l → isWorthStoring l = false := by
  have leaf : k.children = [] ∧ k.isFunction = false ∧ isWorthStoring k = false ∧ ∀ t n, k ≠ .reference t n := by
    obtain param | ⟨name, rfl⟩ := idle
    · cases k with
      | param => exact ⟨rfl, rfl, rfl, by simp⟩
      | _ => cases param
    · exact ⟨rfl, rfl, rfl, by simp⟩
  refine ⟨not_late_of_leaf held leaf.1 leaf.2.1 ?_, fun l held' => ?_⟩
  · rintro ⟨t, n, -, held', -⟩
    exact leaf.2.2.2 t n (Option.some_injective _ (held.symm.trans held'))
  · cases held.symm.trans held'
    exact leaf.2.2.1

end Storage

namespace Storage

theorem table_passed {a : Arena} {c d : NodeId} {shown name : String} {ps : List NodeId}
    (held : a.kind? c = some (.reference d shown)) (table : a.kind? d = some (.definition name ps)) :
    ¬ a.Late c ∧ ∀ l, a.kind? c = some l → isWorthStoring l = false := by
  refine ⟨not_late_of_leaf held rfl rfl ?_, fun l held' => ?_⟩
  · rintro ⟨_, _, l, held', table', isLocal⟩
    cases held.symm.trans held'
    cases table.symm.trans table'
    cases isLocal
  · cases held.symm.trans held'
    rfl

section Recognized

variable {a b : Arena} {t t' : Tree} (cast : t.Cast a)
  (surface : ∀ {x k}, x ∈ t.ids → a.kind? x = some k → k.isSurface = true) (stands : t.StandsIn a)
  (becomes : t.Becomes t')

include stands becomes

theorem kept_of_becomes (there : t'.StandsIn b) (called : ∀ x ∈ t'.ids, ∀ member source, b.kind? x ≠ some (.intent
    member source)) {x : NodeId} {l : Kind} (live : x ∈ t'.ids) (free : t'.Unmaintained b x) (held : b.kind? x = some l)
    : l.isMaintained = true ∨ ∃ k ts ts', t.KeptAt a b x k ts ts' ∧ l = k.withChildren (ts'.map Tree.id) := by
  obtain ⟨m, standing, subset, made, inside⟩ | ⟨k, ts, ts', kept⟩ := becomes.at stands there live
  · have maintained : m.kind.isMaintained = true := by
      cases kind : m.kind with
      | intent member source => exact absurd (kind ▸ standing.kind) (called m.id (subset m.id_mem_ids) member source)
      | dataset | pipeline | reduce => rfl
      | _ =>
        rw [kind] at made
        cases made
    rw [m.ids_eq] at inside
    obtain rfl | below := List.mem_cons.1 inside
    · cases held.symm.trans standing.kind
      exact .inl maintained
    · exact absurd below (free m standing (subset m.id_mem_ids) maintained)
  · exact .inr ⟨k, ts, ts', kept, Option.some_injective _ (held.symm.trans kept.after.held)⟩

include cast surface

theorem orderly_of_becomes {tables : Set NodeId} (linked : t'.Linked b) (layered : t'.Layered b) (grounded : t'.Grounded
    tables ∅) (called : ∀ x ∈ t'.ids, ∀ member source, b.kind? x ≠ some (.intent member source)) (members : ∀ {x source
    property}, x ∈ t.ids → a.kind? x = some (.access source property) → ∃ name, a.kind? property = some (.identifier
    name)) : Orderly b t' := by
  have kept {x : NodeId} {l : Kind} := kept_of_becomes (x := x) (l := l) stands becomes linked.stands called
  have slots {x : NodeId} {k : Kind} {ts ts' : List Tree} (kept : t.KeptAt a b x k ts ts') :=
    kept.takes cast
  refine ⟨⟨linked, layered, fun top => top.global ?_,
    fun inside function => grounded.param_kinds linked.stands inside function,
    fun inside named => (grounded.sight linked.stands inside named).resolve_left fun nothing => nothing⟩,
    fun {x l y} live free held part => ?_, fun {x l y} live free held plain layer child passed => ?_⟩
  · intro p inside l held layer
    obtain maintained | ⟨k, ts, ts', kept, rfl⟩ :=
      kept inside (unmaintained_of_layer layered linked.stands held (by simp [layer])) held
    · rw [Kind.layer_of_isMaintained maintained] at layer
      cases layer
    · exact slots kept
  · obtain maintained | ⟨k, ts, ts', kept, rfl⟩ := kept live free held
    · rw [Kind.entered_of_isMaintained maintained] at part
      cases part
    · exact slots kept _ (Kind.takes_of_entered part)
  · obtain maintained | ⟨k, ts, ts', kept, rfl⟩ := kept live free held
    · cases plain.symm.trans maintained
    have surface := surface kept.live kept.before.held
    have label := Kind.mem_labels ((Kind.isSurface_withChildren ..).trans surface) layer child passed
    have takes := slots kept
    cases shown : k.withChildren (ts'.map Tree.id) with
    | function name ps b =>
      rw [shown] at label takes
      obtain ⟨l, found, role⟩ := Arena.exists_of_role? (takes (y, .param) (List.mem_append_left _ (List.mem_map_of_mem label)))
      exact Idle.passed (.inl role) found
    | access source property =>
      rw [shown] at label
      obtain rfl := List.mem_singleton.1 label
      obtain ⟨source₀, property₀, rfl⟩ := Kind.access_of_withChildren shown
      obtain ⟨name, named⟩ := members kept.live kept.before.held
      have found := kept.property rfl shown named
      exact Idle.passed (.inr ⟨name, rfl⟩) found
    | rows operand =>
      obtain ⟨operand₀, rfl⟩ := Kind.rows_of_withChildren shown
      exact absurd rfl (kept.other operand₀)
    | _ =>
      rw [shown] at label
      cases label

end Recognized

end Storage

theorem Arena.kind?_of_identifier? {a : Arena} {x : NodeId} {name : String} (named : a.identifier? x = some name) :
    a.kind? x = some (.identifier name) := by
  unfold identifier? at named
  split at named
  · rename_i held
    cases named
    exact held
  · cases named

theorem Arena.definitionOf?_eq_some {a : Arena} {x d : NodeId} {name : String} (found : a.definitionOf? x = some (d,
    name)) : ∃ shown ps, a.kind? x = some (.reference d shown) ∧ a.kind? d = some (.definition name ps) := by
  unfold definitionOf? at found
  split at found
  · rename_i held
    split at found
    · rename_i defined
      cases found
      exact ⟨_, _, held, defined⟩
    · cases found
  · cases found

theorem Typing.rows_of_infer {env : Resolution} {a : Arena} {x operand : NodeId} {above : Lineage} {found : Option Ty}
    (held : a.kind? x = some (.rows operand)) (inferred : infer env a x above = .ok found) :
    ∃ d shown name ps, a.kind? operand = some (.reference d shown) ∧ a.kind? d = some (.definition name ps) := by
  obtain ⟨k, there, inferred⟩ := except_bind_eq_ok.1 inferred
  cases held.symm.trans (Arena.expect_eq_ok.1 there)
  dsimp only at inferred
  split at inferred
  · rename_i d name found
    obtain ⟨shown, ps, named, defined⟩ := Arena.definitionOf?_eq_some found
    exact ⟨d, shown, name, ps, named, defined⟩
  · cases inferred

namespace Compilation

variable {program : Program} {c c₁ c₂ : Compilation} {limit : Nat}

section Typed

variable {t : Tree} (resolved : (lower program >>= resolve) = .ok c) (typed : c.assignTypes limit = .ok c₁) (held : c₁.Holds t)

include resolved typed held

theorem typed_member {x source property : NodeId} (live : x ∈ t.ids) (there : c₁.arena.kind? x = some (.access source
    property)) : ∃ name, c₁.arena.kind? property = some (.identifier name) := by
  obtain ⟨above, path⟩ := held.stands.exists_path [] live
  obtain ⟨k, ty, there', -, -, obeys⟩ := Typing.assignTypes_obeys resolved typed x above (held.root ▸ path)
  cases there.symm.trans there'
  obtain ⟨_, field, -, named, -⟩ := obeys
  exact ⟨field, Arena.kind?_of_identifier? named⟩

omit resolved in
theorem typed_rows {x operand : NodeId} (live : x ∈ t.ids) (there : c₁.arena.kind? x = some (.rows operand)) : ∃ d shown
    name ps, c₁.arena.kind? operand = some (.reference d shown) ∧ c₁.arena.kind? d = some (.definition name ps) := by
  obtain ⟨above, path⟩ := held.stands.exists_path [] live
  rw [← held.root] at path
  obtain ⟨⟨passes, w⟩, ran, last⟩ := except_bind_eq_ok.1 typed
  cases last
  obtain ⟨⟨found, inferred, -⟩, -⟩ := Typing.assignTypes_reaches (Pass.placed_eq_ok.1 ran) x above path
  exact Typing.rows_of_infer there inferred

end Typed

/-- Before its columns are split, a typed program is orderly, whether or not its rows have been recognized. -/
theorem orderly (resolved : (lower program >>= resolve) = .ok c) (typed : c.assignTypes limit = .ok c₁)
    (next : c₂ = c₁ ∨ c₁.recognizeRows = .ok c₂) : ∃ t : Tree, t.id = c₂.root ∧ Storage.Orderly c₂.arena t := by
  obtain ⟨t, held⟩ := typed_holds resolved typed
  have cast := held.cast
  have member {x source property : NodeId} (live : x ∈ t.ids)
      (there : c₁.arena.kind? x = some (.access source property)) := typed_member resolved typed held live there
  obtain rfl | recognized := next
  · refine ⟨t, held.root.symm, held.sighted, fun live _ there part => ?_,
      fun {x k y} live _ there _ layer child passed => ?_⟩
    · exact cast _ live _ there _ (Kind.takes_of_entered part)
    · have label := Kind.mem_labels (held.formed.surface held.stands live there) layer child passed
      cases k with
      | function name ps b =>
        obtain ⟨l, found, role⟩ := Arena.exists_of_role?
          (cast x live _ there (y, .param) (List.mem_append_left _ (List.mem_map_of_mem label)))
        exact Storage.Idle.passed (.inl role) found
      | access source property =>
        obtain rfl := List.mem_singleton.1 label
        obtain ⟨name, found⟩ := member live there
        exact Storage.Idle.passed (.inr ⟨name, rfl⟩) found
      | rows operand =>
        obtain rfl := List.mem_singleton.1 label
        obtain ⟨d, shown, name, ps, found, table⟩ := typed_rows typed held live there
        exact Storage.table_passed found table
      | _ => cases label
  · have grounded : t.Grounded t.ownTables ∅ := held.grounded.mono_tables (by simp)
    obtain ⟨⟨_, w⟩, ran, last⟩ := except_bind_eq_ok.1 recognized
    cases last
    rw [held.root] at ran
    obtain ⟨t', same, stands, once, grounded, tables, becomes, laid, called⟩ :=
      (Rows.recognize_ends held.formed held.role held.stands held.once grounded).ok (Pass.placed_eq_ok.1 ran)
    exact ⟨t', same.trans held.root.symm, Storage.orderly_of_becomes cast (held.formed.surface held.stands) held.stands becomes
      (grounded.linked stands once tables) (laid.layered stands) grounded called member⟩

theorem staged (resolved : (lower program >>= resolve) = .ok c) (typed : c.assignTypes limit = .ok c₁) (next : c₂ = c₁ ∨
    c₁.recognizeRows = .ok c₂) (plain : ∀ z above, c₂.arena.Descends [c₂.root] (z :: above) → ∀ k, c₂.arena.kind? z =
    some k → k.isEntry = true → ¬ c₂.arena.Recurs z) : ∃ t : Tree, t.id = c₂.root ∧ Storage.Staged c₂.arena t := by
  obtain ⟨t, root, orderly⟩ := orderly resolved typed next
  refine ⟨t, root, orderly, fun z inside => ?_⟩
  obtain ⟨above, path⟩ := orderly.stands.exists_path [] inside
  exact plain z above (root ▸ path)

end Compilation

end DerivedTables
