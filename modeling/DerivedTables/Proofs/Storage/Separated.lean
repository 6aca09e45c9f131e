import DerivedTables.Proofs.Eval.Refilled
import DerivedTables.Proofs.Scope.Regions
import DerivedTables.Proofs.Storage.Divided

/-!
Where evaluation goes after a split.
-/

namespace DerivedTables

namespace Storage

structure Cut where
  property : NodeId
  name : String
  derivation : Tree
  split : NodeId
  read : NodeId
  writes : List (String × NodeId)

structure Orderly (a : Arena) (t : Tree) : Prop extends t.Sighted a where
  entered : ∀ {x k c}, x ∈ t.ids → t.Unmaintained a x → a.kind? x = some k → c ∈ k.entered →
    a.role? c = some .expression
  passed : ∀ {x k c}, x ∈ t.ids → t.Unmaintained a x → a.kind? x = some k → k.isMaintained = false →
    k.layer ≠ .program → c ∈ k.children → c ∉ k.entered →
    ¬ a.Late c ∧ ∀ l, a.kind? c = some l → isWorthStoring l = false

structure Staged (a : Arena) (t : Tree) : Prop extends Orderly a t where
  plain : ∀ z ∈ t.ids, ∀ k, a.kind? z = some k → k.isEntry = true → ¬ a.Recurs z

structure Cut.In (c : Cut) (a b : Arena) (t : Tree) : Prop extends
    Column a b c.property c.name c.derivation c.split c.read c.writes where
  staged : Staged a t
  live : c.property ∈ t.ids
  stands : (Tree.node c.property (.derived c.name c.derivation.id) [c.derivation]).StandsIn a

section Cuts

variable {a b : Arena} {t : Tree} {c c' : Cut} {x y q w : NodeId} {k : Kind}

theorem not_maintained_of_late (late : a.Late x) (held : a.kind? x = some k) : k.isMaintained = false := by
  obtain ⟨z, way, asks⟩ := late
  obtain rfl | ⟨u, ⟨l, held', plain, -⟩, -⟩ := Relation.ReflTransGen.cases_head way
  · obtain ⟨_, _, _, held', -⟩ | ⟨_, _, _, held'⟩ := asks <;>
    · cases held.symm.trans held'
      rfl
  · cases held.symm.trans held'
    exact plain

theorem unmaintained_of_layer (layered : t.Layered a) (whole : t.StandsIn a) (held : a.kind? x = some k) (layer : k.layer ≠ .inner) :
    t.Unmaintained a x := by
  intro m stands inside maintained within
  obtain ⟨s, part, below⟩ := Tree.mem_idsOf.1 within
  obtain ⟨id, kind, parts⟩ := m
  have slot : s.id ∈ kind.children := stands.filled ▸ List.mem_map_of_mem part
  have above : kind.layer = .inner := by
    cases kind <;> simp_all [Kind.isMaintained, Kind.layer]
  have live : s.id ∈ t.ids := whole.mem_of_child inside stands.held slot
  have inner := layered.inner_ids whole (stands.child part) live (layered.inner inside stands.held (by simp [above]) _ slot) below
  exact layer (Option.some_injective _ ((Arena.layer?_of_kind? held).symm.trans inner))

theorem opened_of_late {s : Tree} (standing : s.StandsIn a) (subset : s.ids ⊆ t.ids) (free : t.Unmaintained a x)
    (late : a.Late x) (within : x ∈ s.ids) : s.Opened (isLate a) x := by
  induction s with
  | node id kind parts ih =>
    obtain rfl | below := List.mem_cons.1 within
    · exact .here _
    · obtain ⟨u, part, below⟩ := Tree.mem_idsOf.1 below
      have inner : u.ids ⊆ t.ids := fun y listed =>
        subset (.tail _ (Tree.mem_idsOf.2 ⟨u, part, listed⟩))
      have asks : a.Late u.id := late.of_exposes (free.exposed (standing.child part) inner below)
      exact .deeper part (needsReader_iff.2 asks) (ih u part (standing.child part) inner below)

theorem opened_parent {s : Tree} (linked : t.Linked a) (standing : s.StandsIn a) (inside : s.id ∈ t.ids)
    (opened : s.Opened (isLate a) x) (other : x ≠ s.id) (live : q ∈ t.ids) (held : a.kind? q = some k)
    (child : x ∈ k.children) : s.Opened (isLate a) q := by
  induction opened with
  | here => exact absurd rfl other
  | @deeper s u x part asks inner ih =>
    obtain ⟨id, kind, parts⟩ := s
    have slot : u.id ∈ kind.children := standing.filled ▸ List.mem_map_of_mem part
    have within : u.id ∈ t.ids := (linked.stands.sublist_within standing inside).subset
      (.tail _ (Tree.mem_idsOf.2 ⟨u, part, u.id_mem_ids⟩))
    by_cases top : x = u.id
    · subst top
      obtain rfl := linked.stands.parent_unique linked.once live inside held standing.held child slot
      exact .here (Tree.node _ kind parts)
    · exact .deeper part asks (ih (standing.child part) within top child)

theorem Orderly.opened_reached (orderly : Orderly a t) {s : Tree} (standing : s.StandsIn a) (inside : s.id ∈ t.ids)
    (free : t.Unmaintained a s.id) (inner : a.Inner s.id) (late : a.Late s.id) (opened : s.Opened (isLate a) x) :
    a.Reaches s.id x ∧ t.Unmaintained a x ∧ a.Late x := by
  induction opened with
  | here => exact ⟨.refl, free, late⟩
  | @deeper s u x part asks _ ih =>
    obtain ⟨id, kind, parts⟩ := s
    have asks := needsReader_iff.1 asks
    have slot : u.id ∈ kind.children := standing.filled ▸ List.mem_map_of_mem part
    have layer : kind.layer = .inner := Option.some_injective _ ((Arena.layer?_of_kind? standing.held).symm.trans inner)
    have enters : u.id ∈ kind.entered := by
      by_contra passed
      exact (orderly.passed inside free standing.held (not_maintained_of_late late standing.held) (by simp [layer]) slot
        passed).1 asks
    have leads : a.Leads id u.id := .of_part standing.held enters
    obtain ⟨way, rest⟩ := ih (standing.child part) (orderly.child_mem inside standing.held slot)
      (orderly.leads_unmaintained inside free leads) (orderly.layered.inner inside standing.held (by simp [layer]) _ slot) asks
    exact ⟨way.head leads, rest⟩

namespace Cut.In

variable (cut : c.In a b t)

include cut

theorem whole : c.derivation.StandsIn a := cut.stands.child (by simp)

theorem slot : a.kind? c.property = some (.derived c.name c.derivation.id) := cut.stands.held

theorem leads : a.Leads c.property c.derivation.id :=
  .of_part cut.slot (by simp [Kind.entered, Kind.isInert, Kind.children])

theorem eq_of_property (cut' : c'.In a b t) (same : c.property = c'.property) : c = c' := by
  have trees := cut.stands.unique cut'.stands same
  obtain ⟨p, name, d, split, read, ws⟩ := c
  obtain ⟨p', name', d', split', read', ws'⟩ := c'
  obtain ⟨rfl, ⟨rfl, -⟩, rfl, -⟩ : p = p' ∧ (name = name' ∧ d.id = d'.id) ∧ d = d' := by simpa using trees
  cases cut.held.symm.trans cut'.held
  cases cut.halves.symm.trans cut'.halves
  rfl

theorem top_mem : c.derivation.id ∈ t.ids := cut.staged.child_mem cut.live cut.slot (by simp [Kind.children])

theorem subset : c.derivation.ids ⊆ t.ids := (cut.staged.stands.sublist_within cut.whole cut.top_mem).subset

theorem inner : a.Inner c.derivation.id :=
  cut.staged.layered.inner cut.live cut.slot (by simp [Kind.layer]) _ (by simp [Kind.children])

theorem apart (cut' : c'.In a b t) (here : x ∈ c.derivation.ids) (there : x ∈ c'.derivation.ids) : c = c' := by
  by_contra other
  have first : IsColumn a (c.property, c.name, c.derivation.id) c.derivation := ⟨rfl, cut.stands⟩
  have second : IsColumn a (c'.property, c'.name, c'.derivation.id) c'.derivation := ⟨rfl, cut'.stands⟩
  refine first.apart cut.staged.layered cut.staged.stands cut.staged.once second cut.live cut'.live
    (fun same => other (cut.eq_of_property cut' same)) x ?_ ?_
  · simp [Tree.ids, Tree.idsOf, here]
  · simp [Tree.ids, Tree.idsOf, there]

theorem only_slot (live : q ∈ t.ids) (held : a.kind? q = some k) (child : c.derivation.id ∈ k.children) :
    q = c.property :=
  cut.staged.stands.parent_unique cut.staged.once live cut.live held cut.slot child (by simp [Kind.children])

theorem property_free : t.Unmaintained a c.property := unmaintained_of_layer cut.staged.layered cut.staged.stands cut.slot (by simp [Kind.layer])

theorem free : t.Unmaintained a c.derivation.id :=
  cut.staged.leads_unmaintained cut.live cut.property_free cut.leads

theorem left_reached (left : LeftTo a c.derivation x) : a.Reaches c.derivation.id x ∧ t.Unmaintained a x ∧ a.Late x :=
  cut.staged.opened_reached cut.whole cut.top_mem cut.free cut.inner (needsReader_iff.1 left.1)
    left.2

theorem left_parent (left : LeftTo a c.derivation x) (other : x ≠ c.derivation.id) (live : q ∈ t.ids)
    (held : a.kind? q = some k) (child : x ∈ k.children) : LeftTo a c.derivation q :=
  ⟨left.1, opened_parent cut.staged.toLinked cut.whole cut.top_mem left.2 other live held child⟩

theorem left_of_late (free : t.Unmaintained a x) (late : a.Late x) (within : x ∈ c.derivation.ids) :
    LeftTo a c.derivation x := by
  have asks := late.of_exposes (free.exposed cut.whole (cut.subset) within)
  exact ⟨needsReader_iff.2 asks, opened_of_late cut.whole (cut.subset) free late within⟩

theorem property_outside (cut' : c'.In a b t) : c'.property ∉ c.derivation.ids := by
  intro within
  have inner := cut.staged.layered.inner_ids cut.staged.stands cut.whole cut.top_mem cut.inner within
  rw [Arena.Inner, Arena.layer?_of_kind? cut'.slot] at inner
  cases inner

theorem written_cases (written : w ∈ c.writes.map Prod.snd) : ¬ a.Late w ∧ (w = c.derivation.id ∨
    ∃ x k, LeftTo a c.derivation x ∧ a.kind? x = some k ∧ w ∈ k.entered) := by
  obtain ⟨write, listed, rfl⟩ := List.mem_map.1 written
  obtain ⟨early, place⟩ := cut.written listed
  refine ⟨fun late => by simp [needsReader_iff.2 late] at early, place.imp_right ?_⟩
  rintro ⟨s, part, left, stands, listed, same, storable⟩
  obtain ⟨way, free, late⟩ := cut.left_reached left
  have live := cut.subset left.mem_ids
  have held := stands.kind
  have child : write.2 ∈ s.kind.children := stands.slots ▸ same ▸ List.mem_map_of_mem listed
  refine ⟨s.id, s.kind, left, held, ?_⟩
  by_contra passed
  have layer : s.kind.layer = .inner := Option.some_injective _ ((Arena.layer?_of_kind? held).symm.trans
    (cut.staged.layered.inner_ids cut.staged.stands cut.whole cut.top_mem cut.inner left.mem_ids))
  have worth := storable.worth
  rw [(cut.staged.passed live free held (not_maintained_of_late late held) (by simp [layer]) child passed).2 part.kind
    (same ▸ (stands.child listed).kind)] at worth
  cases worth

theorem written_reached (written : w ∈ c.writes.map Prod.snd) : a.Reaches c.derivation.id w := by
  obtain ⟨-, rfl | ⟨x, k, left, held, part⟩⟩ := cut.written_cases written
  · exact .refl
  · exact (cut.left_reached left).1.tail (.of_part held part)

theorem written_mem (written : w ∈ c.writes.map Prod.snd) : w ∈ c.derivation.ids := by
  obtain ⟨-, rfl | ⟨x, k, left, held, part⟩⟩ := cut.written_cases written
  · exact c.derivation.id_mem_ids
  · exact cut.whole.mem_of_child left.mem_ids held (Kind.mem_children_of_entered part)

theorem written_live (written : w ∈ c.writes.map Prod.snd) : w ∈ t.ids := cut.subset (cut.written_mem written)

theorem written_role (written : w ∈ c.writes.map Prod.snd) : a.role? w = some .expression := by
  obtain ⟨-, rfl | ⟨x, k, left, held, part⟩⟩ := cut.written_cases written
  · exact cut.staged.entered cut.live cut.property_free cut.slot (by simp [Kind.entered, Kind.isInert, Kind.children])
  · exact cut.staged.entered (cut.subset left.mem_ids) (cut.left_reached left).2.1 held part

theorem not_written_of_param {shown : String} {declared : Option Ty} (param : a.kind? w = some (.param shown declared)) :
    w ∉ c.writes.map Prod.snd := by
  intro written
  have role := cut.written_role written
  rw [Arena.role?_of_kind? param] at role
  cases role

theorem written_local (written : w ∈ c.writes.map Prod.snd) (held : a.kind? w = some k) : k.isGlobal = false := by
  have early := (cut.written_cases written).1
  have role := cut.written_role written
  rw [Arena.role?_of_kind? held] at role
  cases k with
  | function name params body => exact absurd ⟨w, .refl, .inr ⟨name, params, body, held⟩⟩ early
  | definition | column | derived | assignment => cases role
  | _ => rfl

end Cut.In

end Cuts

inductive Turns (a b : Arena) (t : Tree) (x y : NodeId) : NodeId → Prop
  | same : Turns a b t x y y
  | stored {c : Cut} {r : NodeId} {name : String} (cut : c.In a b t) (left : LeftTo a c.derivation x)
    (written : (name, y) ∈ c.writes) (beyond : a.size ≤ r) (held : b.kind? r = some (.reference y name)) :
    Turns a b t x y r
  | split {c : Cut} (cut : c.In a b t) (above : x = c.property) (here : y = c.derivation.id) : Turns a b t x y c.split

structure Separated (a b : Arena) (t : Tree) : Prop where
  staged : Staged a t
  cut : ∀ {p name y}, p ∈ t.ids → a.kind? p = some (.derived name y) → ∃ c : Cut, c.In a b t ∧ c.property = p
  kept : ∀ {x}, x ∈ t.ids → (∀ c : Cut, c.In a b t → x ≠ c.property ∧ ¬ LeftTo a c.derivation x) →
    b.kind? x = a.kind? x
  made : ∀ {x k}, a.size ≤ x → b.kind? x = some k →
    ∃ c : Cut, c.In a b t ∧ (x = c.split ∨ ∃ shown y, (shown, y) ∈ c.writes ∧ k = .reference y shown)

namespace Separated

variable {a b : Arena} {t : Tree} {c c' : Cut} {x y z w r start : NodeId} {k l : Kind} (sep : Separated a b t)

include sep

theorem lt_size (live : x ∈ t.ids) : x < a.size := sep.staged.stands.lt_size x live

theorem not_new (live : x ∈ t.ids) : ¬ a.size ≤ x := Nat.not_le.2 (sep.lt_size live)

theorem kind_cases (live : x ∈ t.ids) (held : a.kind? x = some k) : (∃ c : Cut, c.In a b t ∧ x = c.property) ∨
    (∃ c : Cut, c.In a b t ∧ LeftTo a c.derivation x ∧ ∃ children, b.kind? x = some (k.withChildren children) ∧
      List.Forall₂ (Replaces a.size b c.writes) k.children children) ∨
    b.kind? x = some k ∧ ∀ c : Cut, c.In a b t → x ≠ c.property ∧ ¬ LeftTo a c.derivation x := by
  by_cases property : ∃ c : Cut, c.In a b t ∧ x = c.property
  · exact .inl property
  · by_cases left : ∃ c : Cut, c.In a b t ∧ LeftTo a c.derivation x
    · obtain ⟨c, cut, left⟩ := left
      exact .inr (.inl ⟨c, cut, left, cut.opened left held⟩)
    · have off (c : Cut) (cut : c.In a b t) : x ≠ c.property ∧ ¬ LeftTo a c.derivation x :=
        ⟨fun same => property ⟨c, cut, same⟩, fun here => left ⟨c, cut, here⟩⟩
      exact .inr (.inr ⟨(sep.kept live off).trans held, off⟩)

theorem refilled (live : x ∈ t.ids) (held : a.kind? x = some k) :
    ∃ l, b.kind? x = some l ∧ k.Refilled (Turns a b t x) l := by
  obtain ⟨c, cut, rfl⟩ | ⟨c, cut, left, children, held', filled⟩ | ⟨held', -⟩ := sep.kind_cases live held
  · cases held.symm.trans cut.slot
    exact ⟨_, cut.held, [c.split], .cons (.split cut rfl rfl) .nil, rfl⟩
  · refine ⟨_, held', children, filled.imp fun y r here => ?_, rfl⟩
    cases here with
    | kept => exact .same
    | stored beyond written there => exact .stored cut left written beyond there
  · exact ⟨k, held', .of_same fun _ _ => .same⟩

theorem turns_param {name : Option String} {params : List NodeId} {body p : NodeId} (live : x ∈ t.ids)
    (held : a.kind? x = some (.function name params body)) (param : p ∈ params) (turns : Turns a b t x p r) : p = r := by
  obtain ⟨shown, declared, there⟩ := sep.staged.params live held p param
  cases turns with
  | same => rfl
  | stored cut left written => exact absurd (List.mem_map_of_mem written) (cut.not_written_of_param there)
  | split cut above => cases held.symm.trans (above ▸ cut.slot)

theorem resembles (live : x ∈ t.ids) (held : a.kind? x = some k) (refilled : k.Refilled (Turns a b t x) l) :
    k.Resembles (Turns a b t x) x l := by
  refine refilled.resembles (fun _ _ _ => .same) (fun split => ?_) ?_
  · exact sep.staged.layered.unsplit live held split
  · rintro name params body rfl p param q turns
    exact sep.turns_param live held param turns

theorem unread (live : x ∈ t.ids) (held : b.kind? x = some l) (child : w ∈ l.children) (cut : c.In a b t) :
    w ∉ c.writes.map Prod.snd := by
  intro written
  have within := cut.written_mem written
  have below := sep.lt_size (cut.subset within)
  obtain ⟨k, there⟩ := Arena.exists_kind?_of_lt (sep.lt_size live)
  obtain ⟨c', cut', rfl⟩ | ⟨c', cut', left, children, held', filled⟩ | ⟨held', off⟩ := sep.kind_cases live there
  · cases held.symm.trans cut'.held
    obtain rfl := List.mem_singleton.1 child
    exact absurd below (Nat.not_lt.2 cut'.beyond)
  · cases held.symm.trans held'
    rw [Kind.children_withChildren _ _ filled.length_eq.symm] at child
    obtain ⟨y, listed, here⟩ := Tree.exists_of_mem_forall₂ filled w child
    cases here with
    | kept unwritten =>
      have inside : w ∈ c'.derivation.ids := cut'.whole.mem_of_child left.mem_ids there listed
      obtain rfl := cut.apart cut' within inside
      exact unwritten written
    | stored beyond => exact absurd below (Nat.not_lt.2 beyond)
  · cases held.symm.trans held'
    obtain ⟨-, rfl | ⟨y, m, left, above, part⟩⟩ := cut.written_cases written
    · exact (off c cut).1 (cut.only_slot live there child)
    · obtain rfl := sep.staged.stands.parent_unique sep.staged.once live (cut.subset left.mem_ids) there above
        child (Kind.mem_children_of_entered part)
      exact (off c cut).2 left

end Separated

end Storage

end DerivedTables
