import DerivedTables.Proofs.Tree.Subtree

/-!
A node together with everything below it, taken out of its arena.
-/

namespace DerivedTables

inductive Tree where
  | node (id : NodeId) (kind : Kind) (parts : List Tree)

namespace Tree

@[induction_eliminator]
theorem induction {motive : Tree → Prop}
    (node : ∀ id kind parts, (∀ t ∈ parts, motive t) → motive (.node id kind parts)) (t : Tree) :
    motive t :=
  @Tree.rec motive (fun ts => ∀ t ∈ ts, motive t) node (by simp)
    (fun _ _ here rest => List.forall_mem_cons.2 ⟨here, rest⟩) t

def id : Tree → NodeId
  | node id _ _ => id

def kind : Tree → Kind
  | node _ kind _ => kind

def parts : Tree → List Tree
  | node _ _ parts => parts

@[simp] theorem id_node (id : NodeId) (kind : Kind) (parts : List Tree) :
    (node id kind parts).id = id := rfl

@[simp] theorem kind_node (id : NodeId) (kind : Kind) (parts : List Tree) :
    (node id kind parts).kind = kind := rfl

@[simp] theorem parts_node (id : NodeId) (kind : Kind) (parts : List Tree) :
    (node id kind parts).parts = parts := rfl

mutual
def ids : Tree → List NodeId
  | node id _ parts => id :: idsOf parts
def idsOf : List Tree → List NodeId
  | [] => []
  | t :: rest => t.ids ++ idsOf rest
end

mutual
def height : Tree → Nat
  | node _ _ parts => heightOf parts + 1
def heightOf : List Tree → Nat
  | [] => 0
  | t :: rest => max t.height (heightOf rest)
end

theorem idsOf_eq_flatMap (ts : List Tree) : idsOf ts = ts.flatMap ids := by
  induction ts with
  | nil => rfl
  | cons t rest ih => simp [idsOf, ih]

theorem mem_idsOf {ts : List Tree} {x : NodeId} : x ∈ idsOf ts ↔ ∃ t ∈ ts, x ∈ t.ids := by
  simp [idsOf_eq_flatMap]

@[simp] theorem id_mem_ids (t : Tree) : t.id ∈ t.ids := by
  cases t
  simp [ids]

theorem height_le_heightOf {t : Tree} {ts : List Tree} (listed : t ∈ ts) :
    t.height ≤ heightOf ts := by
  induction ts with
  | nil => cases listed
  | cons s rest ih =>
    simp only [heightOf]
    obtain rfl | listed := List.mem_cons.1 listed
    · exact Nat.le_max_left ..
    · exact (ih listed).trans (Nat.le_max_right ..)

mutual
theorem height_le_length_ids : (t : Tree) → t.height ≤ t.ids.length
  | node _ _ parts => by
    have within := heightOf_le_length_idsOf parts
    simp only [height, ids, List.length_cons]
    omega
theorem heightOf_le_length_idsOf : (ts : List Tree) → heightOf ts ≤ (idsOf ts).length
  | [] => Nat.le_refl 0
  | t :: rest => by
    have here := height_le_length_ids t
    have there := heightOf_le_length_idsOf rest
    simp only [heightOf, idsOf, List.length_append]
    omega
end

theorem nodup_of_mem {ts : List Tree} (once : (idsOf ts).Nodup) {t : Tree} (listed : t ∈ ts) :
    t.ids.Nodup := by
  rw [idsOf_eq_flatMap] at once
  exact (List.nodup_flatMap.1 once).1 t listed

theorem nodup_map_id {ts : List Tree} (once : (idsOf ts).Nodup) : (ts.map Tree.id).Nodup := by
  induction ts with
  | nil => exact List.nodup_nil
  | cons t rest ih =>
    obtain ⟨-, once, disjoint⟩ := List.nodup_append.1 once
    refine List.nodup_cons.2 ⟨fun listed => ?_, ih once⟩
    obtain ⟨s, part, same⟩ := List.mem_map.1 listed
    exact disjoint _ t.id_mem_ids _ (mem_idsOf.2 ⟨s, part, s.id_mem_ids⟩) same.symm

theorem eq_of_shared {ts : List Tree} (once : (idsOf ts).Nodup) {t u : Tree} (first : t ∈ ts)
    (second : u ∈ ts) {x : NodeId} (here : x ∈ t.ids) (there : x ∈ u.ids) : t = u := by
  induction ts with
  | nil => cases first
  | cons s rest ih =>
    obtain ⟨-, once, disjoint⟩ := List.nodup_append.1 once
    rw [List.mem_cons] at first second
    obtain rfl | first := first
    · obtain rfl | second := second
      · rfl
      · exact (disjoint x here x (mem_idsOf.2 ⟨u, second, there⟩) rfl).elim
    · obtain rfl | second := second
      · exact (disjoint x there x (mem_idsOf.2 ⟨t, first, here⟩) rfl).elim
      · exact ih once first second

theorem eq_of_map_id {ts ss : List Tree} (ids : ts.map Tree.id = ss.map Tree.id)
    (each : ∀ t ∈ ts, ∀ s ∈ ss, t.id = s.id → t = s) : ts = ss := by
  induction ts generalizing ss with
  | nil => simpa using ids
  | cons t rest ih =>
    cases ss with
    | nil => cases ids
    | cons s others =>
      simp only [List.map_cons, List.cons.injEq] at ids
      rw [each t (by simp) s (by simp) ids.1, ih ids.2 fun t part s other =>
        each t (.tail _ part) s (.tail _ other)]

theorem ids_sublist {id : NodeId} {kind : Kind} {parts : List Tree} {s : Tree} (part : s ∈ parts) :
    s.ids.Sublist (node id kind parts).ids := by
  rw [ids, idsOf_eq_flatMap]
  have inside := (List.singleton_sublist.2 part).flatMap ids
  rw [List.flatMap_singleton] at inside
  exact inside.trans (List.sublist_cons_self ..)

inductive StandsIn (a : Arena) : Tree → Prop
  | node {id : NodeId} {kind : Kind} {parts : List Tree} (held : a.kind? id = some kind)
    (slots : kind.children = parts.map Tree.id) (each : ∀ t ∈ parts, StandsIn a t) :
    StandsIn a (node id kind parts)

namespace StandsIn

variable {a b : Arena} {t : Tree}

theorem kind (stands : t.StandsIn a) : a.kind? t.id = some t.kind := by
  cases stands with
  | node held => exact held

theorem slots (stands : t.StandsIn a) : t.kind.children = t.parts.map Tree.id := by
  cases stands with
  | node _ slots => exact slots

theorem held {id : NodeId} {kind : Kind} {parts : List Tree}
    (stands : (Tree.node id kind parts).StandsIn a) : a.kind? id = some kind := stands.kind

theorem filled {id : NodeId} {kind : Kind} {parts : List Tree}
    (stands : (Tree.node id kind parts).StandsIn a) : kind.children = parts.map Tree.id := stands.slots

theorem child (stands : t.StandsIn a) {s : Tree} (child : s ∈ t.parts) : s.StandsIn a := by
  cases stands with
  | node _ _ each => exact each s child

theorem lt_size (stands : t.StandsIn a) : ∀ x ∈ t.ids, x < a.size := by
  induction t with
  | node id kind parts ih =>
    intro x listed
    obtain rfl | listed := List.mem_cons.1 listed
    · exact Arena.lt_size_of_kind? stands.kind
    · obtain ⟨s, child, listed⟩ := mem_idsOf.1 listed
      exact ih s child (stands.child child) x listed

theorem congr (stands : t.StandsIn a) (same : ∀ x ∈ t.ids, b.kind? x = a.kind? x) :
    t.StandsIn b := by
  induction t with
  | node id kind parts ih =>
    have here : b.kind? id = a.kind? id := same id (by simp [ids])
    refine .node (here.trans stands.kind) stands.slots fun s child => ?_
    refine ih s child (stands.child child) fun x listed => same x ?_
    exact .tail _ (mem_idsOf.2 ⟨s, child, listed⟩)

theorem extend (stands : t.StandsIn a) (grown : a.Extends b) : t.StandsIn b :=
  stands.congr fun x listed => grown.kind (stands.lt_size x listed)

theorem height_le_size (stands : t.StandsIn a) (once : t.ids.Nodup) : t.height ≤ a.size := by
  calc t.height
      ≤ t.ids.length := height_le_length_ids t
    _ ≤ (List.range a.size).length :=
        (once.subperm fun x listed => List.mem_range.2 (stands.lt_size x listed)).length_le
    _ = a.size := List.length_range

theorem preorder_eq (stands : t.StandsIn a) {fuel : Nat} (enough : t.height ≤ fuel) :
    a.preorder fuel t.id = t.ids := by
  induction t generalizing fuel with
  | node id kind parts ih =>
    cases fuel with
    | zero => simp [height] at enough
    | succ fuel =>
      simp only [height, Nat.add_le_add_iff_right] at enough
      have slots : kind.children = parts.map Tree.id := stands.slots
      have held : a.kind? id = some kind := stands.kind
      rw [id_node, Arena.preorder_succ held, slots, ids, idsOf_eq_flatMap, List.flatMap_map]
      congr 1
      exact List.flatMap_congr fun s child =>
        ih s child (stands.child child) ((height_le_heightOf child).trans enough)

theorem ids_of_leaf {k : Kind} (stands : t.StandsIn a) (held : a.kind? t.id = some k) (leaf : k.children = []) :
    t.ids = [t.id] := by
  obtain ⟨id, kind, parts⟩ := t
  cases held.symm.trans stands.held
  obtain rfl := List.map_eq_nil_iff.1 (stands.filled.symm.trans leaf)
  rfl

theorem descendants_eq (stands : t.StandsIn a) (once : t.ids.Nodup) :
    a.descendants t.id = t.ids :=
  stands.preorder_eq ((stands.height_le_size once).trans (Nat.le_succ _))

theorem unique {s : Tree} (first : t.StandsIn a) (second : s.StandsIn a) (same : t.id = s.id) :
    t = s := by
  induction t generalizing s with
  | node id kind parts ih =>
    obtain ⟨id', kind', others⟩ := s
    obtain rfl : id = id' := same
    obtain rfl : kind = kind' := Option.some_injective _ (first.kind.symm.trans second.kind)
    have slots : parts.map Tree.id = others.map Tree.id := first.slots.symm.trans second.slots
    rw [eq_of_map_id slots fun t part s other => ih t part (first.child part) (second.child other)]

theorem exists_at (stands : t.StandsIn a) {x : NodeId} (inside : x ∈ t.ids) : ∃ s : Tree, s.id = x ∧ s.StandsIn a := by
  induction t with
  | node id kind parts ih =>
    obtain rfl | below := List.mem_cons.1 inside
    · exact ⟨_, rfl, stands⟩
    · obtain ⟨s, part, below⟩ := mem_idsOf.1 below
      exact ih s part (stands.child part) below

theorem sublist_within {s : Tree} (stands : t.StandsIn a) (part : s.StandsIn a) (inside : s.id ∈ t.ids) :
    s.ids.Sublist t.ids := by
  induction t with
  | node id kind parts ih =>
    obtain top | below := List.mem_cons.1 inside
    · obtain rfl := part.unique stands top
      exact List.Sublist.refl _
    · obtain ⟨u, listed, below⟩ := mem_idsOf.1 below
      exact (ih u listed (stands.child listed) below).trans (ids_sublist listed)

theorem nested {s s' : Tree} (stands : t.StandsIn a) (once : t.ids.Nodup) (first : s.StandsIn a)
    (second : s'.StandsIn a) (inside : s.id ∈ t.ids) (inside' : s'.id ∈ t.ids) {x : NodeId} (here : x ∈ s.ids)
    (there : x ∈ s'.ids) : s.id ∈ s'.ids ∨ s'.id ∈ s.ids := by
  induction t with
  | node id kind parts ih =>
    obtain top | below := List.mem_cons.1 inside
    · obtain rfl := first.unique stands top
      exact .inr inside'
    obtain top | below' := List.mem_cons.1 inside'
    · obtain rfl := second.unique stands top
      exact .inl inside
    obtain ⟨u, part, below⟩ := mem_idsOf.1 below
    obtain ⟨u', part', below'⟩ := mem_idsOf.1 below'
    have inner := ((stands.child part).sublist_within first below).subset here
    have inner' := ((stands.child part').sublist_within second below').subset there
    obtain rfl := eq_of_shared (List.nodup_cons.1 once).2 part part' inner inner'
    exact ih u part (stands.child part) (nodup_of_mem (List.nodup_cons.1 once).2 part) below below'

end StandsIn

end Tree

theorem Arena.TreeWithin.exists_tree {a : Arena} {d : Nat} {id : NodeId} (within : a.TreeWithin d id) :
    ∃ t : Tree, t.id = id ∧ t.StandsIn a := by
  induction d generalizing id with
  | zero => exact within.elim
  | succ d ih =>
    obtain ⟨k, held, below⟩ := within
    have each : ∀ ids : List NodeId, (∀ c ∈ ids, a.TreeWithin d c) →
        ∃ ts : List Tree, ids = ts.map Tree.id ∧ ∀ t ∈ ts, t.StandsIn a := by
      intro ids trees
      induction ids with
      | nil => exact ⟨[], rfl, by simp⟩
      | cons c rest more =>
        rw [List.forall_mem_cons] at trees
        obtain ⟨t, rfl, stands⟩ := ih trees.1
        obtain ⟨ts, rfl, stand⟩ := more trees.2
        exact ⟨t :: ts, rfl, List.forall_mem_cons.2 ⟨stands, stand⟩⟩
    obtain ⟨parts, slots, stand⟩ := each k.children below
    exact ⟨.node id k parts, rfl, .node held slots stand⟩

theorem Arena.TreeShaped.exists_tree {a : Arena} {id : NodeId} (shaped : a.TreeShaped id) :
    ∃ t : Tree, t.id = id ∧ t.StandsIn a ∧ t.ids.Nodup ∧ a.descendants id = t.ids := by
  obtain ⟨t, rfl, stands⟩ := shaped.treeWithin.exists_tree
  -- The list is in full before anything is known of its repetitions.
  have listed : a.descendants t.id = t.ids := by
    have deep := stands.preorder_eq (Nat.le_max_left t.height (a.size + 1))
    rwa [shaped.treeWithin.preorder_eq (Nat.le_max_right ..)] at deep
  exact ⟨t, rfl, stands, listed ▸ shaped.once, listed⟩

end DerivedTables
