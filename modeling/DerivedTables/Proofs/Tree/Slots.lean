import DerivedTables.Proofs.Tree.Expression

/-!
Slots of a tree.
-/

namespace DerivedTables

inductive Role where
  | program | item | property | param | expression
  deriving DecidableEq

namespace Kind

def role : Kind → Role
  | root .. => .program
  | definition .. | assignment .. => .item
  | column .. | derived .. => .property
  | param .. => .param
  | _ => .expression

@[simp] theorem role_withChildren (k : Kind) (filled : List NodeId) : (k.withChildren filled).role = k.role := by
  unfold withChildren
  split <;> rfl

def takes : Kind → List (NodeId × Role)
  | root definitions assignments expressions =>
    (definitions ++ assignments).map (·, .item) ++ [(expressions, .expression)]
  | definition _ properties => properties.map (·, .property)
  | function _ params body => params.map (·, .param) ++ [(body, .expression)]
  | kind => kind.children.map (·, .expression)

@[simp] theorem map_fst_takes (k : Kind) : k.takes.map Prod.fst = k.children := by
  cases k <;> simp [takes, children, Function.comp_def]

theorem map_snd_takes {k : Kind} {filled : List NodeId} (fits : filled.length = k.children.length) :
    (k.withChildren filled).takes.map Prod.snd = k.takes.map Prod.snd := by
  unfold withChildren
  split <;> simp_all [takes, children, Function.comp_def]

theorem ne_program_of_takes {k : Kind} {slot : NodeId × Role} (listed : slot ∈ k.takes) : slot.2 ≠ .program := by
  obtain ⟨c, r⟩ := slot
  rintro ⟨⟩
  cases k <;> simp [takes] at listed

def isSurface : Kind → Bool
  | split .. | dataset .. | filter _ | pipeline .. | intent .. | reduce .. => false
  | _ => true

@[simp] theorem isSurface_withChildren (k : Kind) (filled : List NodeId) : (k.withChildren filled).isSurface = k.isSurface := by
  unfold withChildren
  split <;> rfl

end Kind

namespace Arena

def role? (a : Arena) (x : NodeId) : Option Role := (a.kind? x).map Kind.role

theorem role?_of_kind? {a : Arena} {x : NodeId} {k : Kind} (held : a.kind? x = some k) : a.role? x = some k.role := by
  simp [role?, held]

theorem exists_of_role? {a : Arena} {x : NodeId} {r : Role} (plays : a.role? x = some r) :
    ∃ k, a.kind? x = some k ∧ k.role = r :=
  Option.map_eq_some_iff.1 plays

end Arena

namespace Tree

variable {a : Arena} {t s : Tree} {p q c x y : NodeId} {k l : Kind}

theorem StandsIn.tree_at (stands : t.StandsIn a) (inside : x ∈ t.ids) :
    ∃ s : Tree, s.id = x ∧ s.StandsIn a ∧ s.ids ⊆ t.ids := by
  obtain ⟨s, rfl, standing⟩ := stands.exists_at inside
  exact ⟨s, rfl, standing, (stands.sublist_within standing inside).subset⟩

theorem StandsIn.child_at (stands : t.StandsIn a) (held : a.kind? t.id = some k) (child : c ∈ k.children) :
    ∃ s ∈ t.parts, s.id = c := by
  obtain ⟨id, kind, parts⟩ := t
  cases held.symm.trans stands.held
  rw [stands.filled] at child
  obtain ⟨s, part, rfl⟩ := List.mem_map.1 child
  exact ⟨s, part, rfl⟩

theorem ids_of_part (part : s ∈ t.parts) : s.ids ⊆ idsOf t.parts :=
  fun _ inside => mem_idsOf.2 ⟨s, part, inside⟩

theorem ids_eq (t : Tree) : t.ids = t.id :: idsOf t.parts := by
  cases t
  rfl

theorem StandsIn.child_mem (stands : t.StandsIn a)
    (inside : x ∈ t.ids) (held : a.kind? x = some k) (child : c ∈ k.children) : c ∈ idsOf t.parts := by
  obtain ⟨u, rfl, standing, -⟩ := stands.tree_at inside
  obtain ⟨s, part, rfl⟩ := standing.child_at held child
  rw [ids_eq] at inside
  have deeper := ids_of_part part s.id_mem_ids
  obtain top | below := List.mem_cons.1 inside
  · obtain rfl := standing.unique stands top
    exact deeper
  · obtain ⟨v, listed, below⟩ := mem_idsOf.1 below
    exact ids_of_part listed (((stands.child listed).sublist_within standing below).subset
      (u.ids_eq ▸ List.mem_cons_of_mem _ deeper))

theorem StandsIn.mem_of_child (stands : t.StandsIn a) (inside : x ∈ t.ids) (held : a.kind? x = some k)
    (child : c ∈ k.children) : c ∈ t.ids :=
  t.ids_eq ▸ List.mem_cons_of_mem _ (stands.child_mem inside held child)

theorem StandsIn.not_above (stands : t.StandsIn a) (once : t.ids.Nodup) (inside : p ∈ t.ids)
    (held : a.kind? p = some k) : t.id ∉ k.children := by
  intro child
  obtain ⟨u, rfl, standing, below⟩ := stands.tree_at inside
  obtain ⟨s, part, same⟩ := standing.child_at held child
  have deeper : t.id ∈ idsOf u.parts := ids_of_part part (same ▸ s.id_mem_ids)
  have fresh : t.id ∉ idsOf t.parts := (List.nodup_cons.1 (t.ids_eq ▸ once)).1
  rw [ids_eq] at inside
  obtain top | inner := List.mem_cons.1 inside
  · obtain rfl := standing.unique stands top
    exact fresh deeper
  · obtain ⟨v, listed, inner⟩ := mem_idsOf.1 inner
    have inner := ((stands.child listed).sublist_within standing inner).subset
    exact fresh (ids_of_part listed (inner (u.ids_eq ▸ List.mem_cons_of_mem _ deeper)))

theorem StandsIn.parent_unique (stands : t.StandsIn a) (once : t.ids.Nodup) (first : p ∈ t.ids)
    (second : q ∈ t.ids) (held : a.kind? p = some k) (held' : a.kind? q = some l) (child : c ∈ k.children)
    (child' : c ∈ l.children) : p = q := by
  induction t with
  | node id kind parts ih =>
    have apart : (idsOf parts).Nodup := (List.nodup_cons.1 once).2
    have slot {r : NodeId} {m : Kind} (inside : r ∈ (Tree.node id kind parts).ids) (held : a.kind? r = some m)
        (child : c ∈ m.children) : r = id ∧ (∃ s ∈ parts, s.id = c) ∨
          ∃ s ∈ parts, r ∈ s.ids ∧ c ∈ s.ids ∧ s.id ≠ c := by
      obtain rfl | below := List.mem_cons.1 inside
      · exact .inl ⟨rfl, stands.child_at held child⟩
      · obtain ⟨s, part, below⟩ := mem_idsOf.1 below
        have whole := stands.child part
        obtain ⟨u, rfl, standing, within⟩ := whole.tree_at below
        obtain ⟨v, listed, rfl⟩ := standing.child_at held child
        refine .inr ⟨s, part, below, within ?_, fun same => ?_⟩
        · exact ids_eq u ▸ List.mem_cons_of_mem _ (ids_of_part listed v.id_mem_ids)
        · exact whole.not_above (nodup_of_mem apart part) below held (same ▸ child)
    obtain ⟨rfl, s, part, root⟩ | ⟨s, part, below, under, other⟩ := slot first held child
    · obtain ⟨rfl, -⟩ | ⟨s', part', -, under', other'⟩ := slot second held' child'
      · rfl
      · obtain rfl := eq_of_shared apart part part' (root ▸ s.id_mem_ids) under'
        exact absurd root other'
    · obtain ⟨rfl, s', part', root⟩ | ⟨s', part', below', under', other'⟩ := slot second held' child'
      · obtain rfl := eq_of_shared apart part part' under (root ▸ s'.id_mem_ids)
        exact absurd root other
      · obtain rfl := eq_of_shared apart part part' under under'
        exact ih s part (stands.child part) (nodup_of_mem apart part) below below'

theorem StandsIn.exists_parent (stands : t.StandsIn a) (inside : c ∈ t.ids) (other : c ≠ t.id) :
    ∃ q ∈ t.ids, ∃ l, a.kind? q = some l ∧ c ∈ l.children := by
  induction t with
  | node id kind parts ih =>
    obtain rfl | below := List.mem_cons.1 inside
    · exact absurd rfl other
    obtain ⟨u, part, below⟩ := mem_idsOf.1 below
    by_cases top : c = u.id
    · exact ⟨id, by simp [ids], kind, stands.held, stands.filled ▸ top ▸ List.mem_map_of_mem part⟩
    · obtain ⟨q, within, rest⟩ := ih u part (stands.child part) below top
      exact ⟨q, List.mem_cons_of_mem _ (ids_of_part (t := .node id kind parts) part within), rest⟩

theorem StandsIn.parent_mem (stands : t.StandsIn a) (once : t.ids.Nodup) (standing : s.StandsIn a)
    (inside : s.id ∈ t.ids) (below : c ∈ s.ids) (other : c ≠ s.id) (there : p ∈ t.ids)
    (held : a.kind? p = some k) (child : c ∈ k.children) : p ∈ s.ids := by
  obtain ⟨q, within, l, held', child'⟩ := standing.exists_parent below other
  have live := (stands.sublist_within standing inside).subset within
  exact stands.parent_unique once there live held held' child child' ▸ within

def Cast (a : Arena) (t : Tree) : Prop :=
  ∀ x ∈ t.ids, ∀ k, a.kind? x = some k → ∀ slot ∈ k.takes, a.role? slot.1 = some slot.2

theorem StandsIn.role? (stands : t.StandsIn a) : a.role? t.id = some t.kind.role :=
  Arena.role?_of_kind? stands.kind

def slot (t : Tree) : NodeId × Role := (t.id, t.kind.role)

theorem slots_withChildren {kind : Kind} {parts parts' : List Tree} (slots : kind.takes = parts.map slot)
    (same : parts'.map (·.kind.role) = parts.map (·.kind.role)) :
    (kind.withChildren (parts'.map Tree.id)).takes = parts'.map slot := by
  have fits : (parts'.map Tree.id).length = kind.children.length := by
    rw [← kind.map_fst_takes, slots]
    simpa using congrArg List.length same
  rw [List.zip_of_prod (Kind.map_fst_takes _) (Kind.map_snd_takes fits), Kind.children_withChildren _ _ fits, slots, List.map_map]
  exact (congrArg (List.zip _) same.symm).trans List.zip_map'

theorem StandsIn.slots_of_cast {id : NodeId} {kind : Kind} {parts : List Tree} (stands : (Tree.node id kind parts).StandsIn a)
    (cast : ∀ slot ∈ kind.takes, a.role? slot.1 = some slot.2) : kind.takes = parts.map slot := by
  have roles : (kind.takes.map Prod.snd).map some = (parts.map (·.kind.role)).map some := by
    calc (kind.takes.map Prod.snd).map some = (kind.takes.map Prod.fst).map a.role? := by
          rw [List.map_map, List.map_map]
          exact List.map_congr_left fun slot listed => (cast slot listed).symm
      _ = (parts.map (·.kind.role)).map some := by
          rw [kind.map_fst_takes, stands.filled, List.map_map, List.map_map]
          exact List.map_congr_left fun s part => (stands.child part).role?
  rw [List.zip_of_prod kind.map_fst_takes (List.map_injective_iff.2 (Option.some_injective _) roles), stands.filled]
  exact List.zip_map'

/-- Every node is one that programs are lowered to, and its parts play the roles that it takes. -/
inductive Formed : Tree → Prop
  | node {id : NodeId} {kind : Kind} {parts : List Tree} (surface : kind.isSurface = true)
    (slots : kind.takes = parts.map slot) (each : ∀ s ∈ parts, Formed s) : Formed (node id kind parts)

namespace Formed

variable {id id' : NodeId} {kind : Kind} {parts parts' : List Tree}

theorem each (formed : (Tree.node id kind parts).Formed) : ∀ s ∈ parts, s.Formed := by
  cases formed
  assumption

theorem slots (formed : (Tree.node id kind parts).Formed) : kind.takes = parts.map slot := by
  cases formed
  assumption

theorem tree_at (formed : t.Formed) (stands : t.StandsIn a) (inside : x ∈ t.ids) :
    ∃ s : Tree, s.id = x ∧ s.Formed ∧ s.StandsIn a := by
  induction formed with
  | node surface slots each ih =>
    obtain rfl | below := List.mem_cons.1 inside
    · exact ⟨_, rfl, .node surface slots each, stands⟩
    · obtain ⟨s, part, below⟩ := mem_idsOf.1 below
      exact ih s part (stands.child part) below

theorem surface (formed : t.Formed) (stands : t.StandsIn a) (inside : x ∈ t.ids) (held : a.kind? x = some k) :
    k.isSurface = true := by
  obtain ⟨s, rfl, ⟨surface, -⟩, standing⟩ := formed.tree_at stands inside
  exact Option.some_injective _ (held.symm.trans standing.kind) ▸ surface

theorem cast (formed : t.Formed) (stands : t.StandsIn a) : t.Cast a := by
  intro x inside k held slot listed
  obtain ⟨_, rfl, @⟨id, kind, parts, -, slots, -⟩, standing⟩ := formed.tree_at stands inside
  obtain rfl : k = kind := Option.some_injective _ (held.symm.trans standing.held)
  rw [slots] at listed
  obtain ⟨s, part, rfl⟩ := List.mem_map.1 listed
  exact (standing.child part).role?

theorem refill (formed : (Tree.node id kind parts).Formed)
    (related : List.Forall₂ (fun s s' => s'.Formed ∧ s'.kind.role = s.kind.role) parts parts') :
    (Tree.node id' (kind.withChildren (parts'.map Tree.id)) parts').Formed := by
  obtain ⟨surface, slots, -⟩ := formed
  refine .node (by simpa using surface) (slots_withChildren slots ?_) fun s' part' => ?_
  · rw [← List.forall₂_eq_eq_eq, List.forall₂_map_left_iff, List.forall₂_map_right_iff]
    exact (related.imp fun _ _ both => both.2).flip
  · obtain ⟨s, -, formed, -⟩ := exists_of_mem_forall₂ related s' part'
    exact formed

theorem uniform {r : Role} (stands : (Tree.node id kind parts).StandsIn a) (surface : kind.isSurface = true)
    (takes : kind.takes = kind.children.map (·, r)) (each : ∀ s ∈ parts, s.Formed ∧ s.kind.role = r) :
    (Tree.node id kind parts).Formed := by
  refine .node surface ?_ fun s part => (each s part).1
  rw [takes, stands.filled, List.map_map]
  exact List.map_congr_left fun s part => by rw [slot, (each s part).2]; rfl

theorem snoc {first : List Tree} {last : Tree} {r : Role} (surface : kind.isSurface = true)
    (takes : kind.takes = (first.map Tree.id).map (·, r) ++ [(last.id, .expression)])
    (each : ∀ s ∈ first, s.Formed ∧ s.kind.role = r) (final : last.Formed ∧ last.kind.role = .expression) :
    (Tree.node id kind (first ++ [last])).Formed := by
  refine .node surface ?_ (List.forall_mem_append.2 ⟨fun s part => (each s part).1, by simpa using final.1⟩)
  rw [takes, List.map_append, List.map_map, List.map_singleton, slot, final.2]
  exact congrArg (· ++ _) (List.map_congr_left fun s part => by rw [slot, (each s part).2]; rfl)

end Formed

theorem IsParam.formed (leaf : t.IsParam) : t.Formed ∧ t.kind.role = .param := by
  obtain ⟨id, name, declared, rfl⟩ := leaf
  exact ⟨.node rfl rfl (by simp), rfl⟩

theorem Expression.formed (expression : t.Expression) (stands : t.StandsIn a) : t.Formed ∧ t.kind.role = .expression := by
  induction expression with
  | @atom id kind atom => cases kind <;> first | exact ⟨.node rfl rfl (by simp), rfl⟩ | cases atom
  | @compound id kind parts compound _ ih =>
    have each (s : Tree) (part : s ∈ parts) := ih s part (stands.child part)
    cases kind <;> first | exact ⟨.uniform stands rfl rfl each, rfl⟩ | cases compound
  | access _ ih =>
    exact ⟨.uniform stands rfl rfl (by simpa using ⟨ih (stands.child (by simp)), .node rfl rfl (by simp), rfl⟩), rfl⟩
  | binding _ _ bound follows =>
    exact ⟨.uniform stands rfl rfl (by simpa using ⟨bound (stands.child (by simp)), follows (stands.child (by simp))⟩), rfl⟩
  | function leaves _ ih => exact ⟨.snoc rfl rfl (fun s part => (leaves s part).formed) (ih (stands.child (by simp))), rfl⟩

theorem IsProperty.formed (property : t.IsProperty) (stands : t.StandsIn a) : t.Formed ∧ t.kind.role = .property := by
  cases property with
  | column => exact ⟨.node rfl rfl (by simp), rfl⟩
  | derived inside => exact ⟨.uniform stands rfl rfl (by simpa using inside.formed (stands.child (by simp))), rfl⟩
  | method leaves inside =>
    have body := inside.formed ((stands.child (.head _)).child (by simp))
    exact ⟨.uniform stands rfl rfl (List.forall_mem_singleton.2 ⟨.snoc rfl rfl (fun s part => (leaves s part).formed) body, rfl⟩), rfl⟩

theorem IsItem.formed (item : t.IsItem) (stands : t.StandsIn a) : t.Formed ∧ t.kind.role = .item := by
  cases item with
  | definition each => exact ⟨.uniform stands rfl rfl fun s part => (each s part).formed (stands.child part), rfl⟩
  | assignment inside => exact ⟨.uniform stands rfl rfl (by simpa using inside.formed (stands.child (by simp))), rfl⟩

theorem IsProgram.formed (program : t.IsProgram) (stands : t.StandsIn a) : t.Formed ∧ t.kind.role = .program := by
  obtain ⟨tables, values, last⟩ := program
  have items := List.forall_mem_append.2 ⟨fun s part => (tables s part).formed (stands.child (by simp [part])),
    fun s part => (values s part).formed (stands.child (by simp [part]))⟩
  exact ⟨.snoc rfl (by simp [Kind.takes]) items (last.formed (stands.child (by simp))), rfl⟩

end Tree

end DerivedTables
