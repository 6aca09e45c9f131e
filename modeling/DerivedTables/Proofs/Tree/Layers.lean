import DerivedTables.Proofs.Tree.Slots

/-!
The layers of a program.
-/

namespace DerivedTables

inductive Layer where
  | program | property | split | inner
  deriving DecidableEq

def Kind.layer : Kind → Layer
  | root .. | definition .. => .program
  | derived .. => .property
  | split .. => .split
  | _ => .inner

@[simp] theorem Kind.layer_withChildren (k : Kind) (filled : List NodeId) :
    (k.withChildren filled).layer = k.layer := by
  unfold withChildren
  split <;> rfl

theorem Kind.inner_of_role {k : Kind} (surface : k.isSurface = true) (plays : k.role = .expression ∨ k.role = .param) :
    k.layer = .inner := by
  cases k <;> simp_all [role, layer, isSurface]

theorem Kind.role_of_takes {k : Kind} {slot : NodeId × Role} (other : k.layer ≠ .program) (listed : slot ∈ k.takes) :
    slot.2 = .expression ∨ slot.2 = .param := by
  obtain ⟨c, r⟩ := slot
  cases k with
  | function => grind [takes]
  | _ => simp_all [takes, layer]

namespace Arena

variable {a : Arena} {x : NodeId} {k : Kind}

def layer? (a : Arena) (x : NodeId) : Option Layer := (a.kind? x).map Kind.layer

abbrev Inner (a : Arena) (x : NodeId) : Prop := a.layer? x = some .inner

theorem layer?_of_kind? (held : a.kind? x = some k) : a.layer? x = some k.layer := by
  simp [layer?, held]

end Arena

namespace Tree

variable {a : Arena} {s t : Tree} {x y : NodeId} {k : Kind}

inductive Inward : Tree → Prop
  | node {id : NodeId} {kind : Kind} {parts : List Tree} (inner : kind.layer = .inner)
    (each : ∀ s ∈ parts, Inward s) : Inward (node id kind parts)

inductive Laid : Tree → Prop
  | inner {t : Tree} (inward : t.Inward) : Laid t
  | property {id : NodeId} {kind : Kind} {parts : List Tree} (layer : kind.layer = .property)
    (each : ∀ s ∈ parts, s.Inward) : Laid (node id kind parts)
  | program {id : NodeId} {kind : Kind} {parts : List Tree} (layer : kind.layer = .program)
    (each : ∀ s ∈ parts, Laid s) : Laid (node id kind parts)

theorem Inward.layer (inward : t.Inward) : t.kind.layer = .inner := by
  cases inward
  assumption

theorem Inward.parts (inward : t.Inward) : ∀ s ∈ t.parts, s.Inward := by
  cases inward
  assumption

structure Layered (a : Arena) (t : Tree) : Prop where
  unsplit : ∀ {x k}, x ∈ t.ids → a.kind? x = some k → k.layer ≠ .split
  inner : ∀ {x k}, x ∈ t.ids → a.kind? x = some k → k.layer ≠ .program → ∀ y ∈ k.children, a.Inner y

theorem Layered.node {id : NodeId} {kind : Kind} {parts : List Tree} (stands : (Tree.node id kind parts).StandsIn a)
    (each : ∀ s ∈ parts, s.Layered a) (unsplit : kind.layer ≠ .split)
    (below : kind.layer ≠ .program → ∀ s ∈ parts, s.Inward) : (Tree.node id kind parts).Layered a := by
  refine ⟨fun {x k} inside held => ?_, fun {x k} inside held other y child => ?_⟩
  · obtain rfl | inside := List.mem_cons.1 inside
    · obtain rfl := Option.some_injective _ (held.symm.trans stands.held)
      exact unsplit
    · obtain ⟨s, part, inside⟩ := mem_idsOf.1 inside
      exact (each s part).unsplit inside held
  · obtain rfl | inside := List.mem_cons.1 inside
    · obtain rfl := Option.some_injective _ (held.symm.trans stands.held)
      obtain ⟨s, part, rfl⟩ := List.mem_map.1 (stands.filled ▸ child)
      rw [Arena.Inner, Arena.layer?_of_kind? (stands.child part).kind, (below other s part).layer]
    · obtain ⟨s, part, inside⟩ := mem_idsOf.1 inside
      exact (each s part).inner inside held other y child

theorem Inward.layered (inward : t.Inward) (stands : t.StandsIn a) : t.Layered a := by
  induction inward with
  | node inner each ih =>
    exact .node stands (fun s part => ih s part (stands.child part)) (by simp [inner]) fun _ => each

theorem Laid.layered (laid : t.Laid) (stands : t.StandsIn a) : t.Layered a := by
  induction laid with
  | inner inward => exact inward.layered stands
  | property layer each =>
    exact .node stands (fun s part => (each s part).layered (stands.child part)) (by simp [layer]) fun _ => each
  | program layer each ih =>
    exact .node stands (fun s part => ih s part (stands.child part)) (by simp [layer]) fun other => absurd layer other

theorem Layered.inner_ids (layered : t.Layered a) (whole : t.StandsIn a) (stands : s.StandsIn a) (live : s.id ∈ t.ids)
    (inner : a.Inner s.id) (inside : x ∈ s.ids) : a.Inner x := by
  have within := (whole.sublist_within stands live).subset
  clear live
  induction s with
  | node id kind parts ih =>
    obtain rfl | below := List.mem_cons.1 inside
    · exact inner
    · obtain ⟨s, part, below⟩ := mem_idsOf.1 below
      have own : kind.layer = .inner := by
        simpa using (Arena.layer?_of_kind? stands.held).symm.trans inner
      refine ih s part (stands.child part) ?_ below fun y there => within ((ids_sublist part).subset there)
      exact layered.inner (within (.head _)) stands.held (by simp [own]) _
        (stands.filled ▸ List.mem_map_of_mem part)

theorem Formed.part_role {id : NodeId} {kind : Kind} {parts : List Tree} (formed : (Tree.node id kind parts).Formed)
    (other : kind.layer ≠ .program) (part : s ∈ parts) : s.kind.role = .expression ∨ s.kind.role = .param := by
  have listed : s.slot ∈ kind.takes := formed.slots ▸ List.mem_map_of_mem part
  exact Kind.role_of_takes other listed

theorem Formed.inward (formed : t.Formed) (plays : t.kind.role = .expression ∨ t.kind.role = .param) : t.Inward := by
  induction formed with
  | @node id kind parts surface slots each ih =>
    have inner := Kind.inner_of_role surface plays
    have form : (Tree.node id kind parts).Formed := .node surface slots each
    exact .node inner fun s part => ih s part (form.part_role (by simp [inner]) part)

theorem Formed.laid (formed : t.Formed) : t.Laid := by
  induction formed with
  | @node id kind parts surface slots each ih =>
    have form : (Tree.node id kind parts).Formed := .node surface slots each
    have below (other : kind.layer ≠ .program) (s : Tree) (part : s ∈ parts) : s.Inward :=
      (each s part).inward (form.part_role other part)
    cases kind with
    | root | definition => exact .program rfl ih
    | derived => exact .property rfl (below nofun)
    | split => cases surface
    | _ => exact .inner (.node rfl (below nofun))

end Tree

end DerivedTables
