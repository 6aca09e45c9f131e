import DerivedTables.Proofs.Tree.Grounded

/-!
Copies of trees as trees. A copy points where the tree pointed, as far as the redirects go along.
-/

namespace DerivedTables

open Tree

variable {tables known known' : Set NodeId} {a b c : Arena} {f : NodeId → NodeId} {s t : Tree}

theorem Tree.StandsIn.treeWithin (stands : t.StandsIn a) {depth : Nat} (enough : t.height ≤ depth) :
    a.TreeWithin depth t.id := by
  induction t generalizing depth with
  | node id kind parts ih =>
    cases depth with
    | zero => simp [height] at enough
    | succ depth =>
      simp only [height, Nat.add_le_add_iff_right] at enough
      refine ⟨kind, stands.kind, fun c child => ?_⟩
      obtain ⟨s, part, rfl⟩ := List.mem_map.1 ((show kind.children = _ from stands.slots) ▸ child)
      exact ih s part (stands.child part) ((height_le_heightOf part).trans enough)

theorem Tree.StandsIn.whole (stands : t.StandsIn a) : Whole a t.ids := by
  refine ⟨fun x inside => Arena.exists_kind?_of_lt (stands.lt_size x inside), fun x inside k held c child => ?_⟩
  induction t with
  | node id kind parts ih =>
    obtain rfl | ⟨s, part, standing, below⟩ : x = id ∨ ∃ s ∈ parts, s.StandsIn a ∧ x ∈ s.ids := by
      obtain rfl | below := List.mem_cons.1 inside
      · exact .inl rfl
      · obtain ⟨s, part, below⟩ := mem_idsOf.1 below
        exact .inr ⟨s, part, stands.child part, below⟩
    · cases held.symm.trans stands.held
      obtain ⟨s, part, rfl⟩ := List.mem_map.1 (stands.filled ▸ child)
      exact .tail _ (mem_idsOf.2 ⟨s, part, s.id_mem_ids⟩)
    · exact .tail _ (mem_idsOf.2 ⟨s, part, ih s part standing below⟩)

namespace Tree

mutual
def renamed (c : Arena) (f : NodeId → NodeId) : Tree → Tree
  | node id kind parts => node (f id) ((c.kind? (f id)).getD kind) (renamedAll c f parts)
def renamedAll (c : Arena) (f : NodeId → NodeId) : List Tree → List Tree
  | [] => []
  | t :: rest => t.renamed c f :: renamedAll c f rest
end

theorem renamedAll_eq_map (ts : List Tree) : renamedAll c f ts = ts.map (renamed c f) := by
  induction ts with
  | nil => rfl
  | cons t rest ih => rw [renamedAll, ih, List.map_cons]

@[simp] theorem id_renamed (t : Tree) : (t.renamed c f).id = f t.id := by
  cases t
  rfl

theorem map_id_renamed (ts : List Tree) : (ts.map (renamed c f)).map Tree.id = (ts.map Tree.id).map f := by
  rw [List.map_map, List.map_map]
  exact List.map_congr_left fun t _ => id_renamed t

theorem ids_renamed (t : Tree) : (t.renamed c f).ids = t.ids.map f := by
  induction t with
  | node id kind parts ih =>
    rw [renamed, ids, ids, renamedAll_eq_map, List.map_cons, idsOf_eq_flatMap, idsOf_eq_flatMap, List.flatMap_map,
      List.map_flatMap, List.flatMap_congr ih]

theorem renamed_node {id : NodeId} {kind l : Kind} {parts : List Tree} (held : c.kind? (f id) = some l) :
    (node id kind parts).renamed c f = node (f id) l (parts.map (renamed c f)) := by
  rw [renamed, held, Option.getD_some, renamedAll_eq_map]

variable {nodes : List NodeId} {id : NodeId} {kind : Kind} {parts : List Tree}

theorem renames_node (rendered : Rendered a nodes c f) (stands : (node id kind parts).StandsIn a)
    (inside : ∀ x ∈ (node id kind parts).ids, x ∈ nodes) : (∃ l, c.kind? (f id) = some l ∧ kind.Renames f l) ∧ ∀ s ∈
    parts, s.StandsIn a ∧ ∀ x ∈ s.ids, x ∈ nodes := by
  refine ⟨rendered.renames id (inside id (by simp [ids])) kind stands.held, fun s part => ?_⟩
  exact ⟨stands.child part, fun x below => inside x (.tail _ (mem_idsOf.2 ⟨s, part, below⟩))⟩

theorem StandsIn.renamed (rendered : Rendered a nodes c f) (stands : t.StandsIn a)
    (inside : ∀ x ∈ t.ids, x ∈ nodes) : (t.renamed c f).StandsIn c := by
  induction t with
  | node id kind parts ih =>
    obtain ⟨⟨l, held, renames⟩, below⟩ := renames_node rendered stands inside
    rw [renamed_node held]
    refine .node held ?_ fun s' part' => ?_
    · rw [renames.children, stands.filled, map_id_renamed]
    · obtain ⟨s, part, rfl⟩ := List.mem_map.1 part'
      exact ih s part (below s part).1 (below s part).2

theorem isFunction_of_renames {k l : Kind} (renames : k.Renames f l) : l.isFunction = k.isFunction := by
  cases renames with
  | same => cases k <;> rfl
  | reference => rfl

theorem IsParam.renamed (leaf : t.IsParam) (rendered : Rendered a nodes c f) (stands : t.StandsIn a)
    (inside : ∀ x ∈ t.ids, x ∈ nodes) : (t.renamed c f).IsParam := by
  obtain ⟨id, name, declared, rfl⟩ := leaf
  obtain ⟨⟨l, held, renames⟩, -⟩ := renames_node rendered stands inside
  rw [renamed_node held]
  cases renames
  exact ⟨f id, name, declared, rfl⟩

theorem maps_union {shown shown' : Set NodeId} (maps : ∀ x ∈ known, f x ∈ known')
    (more : ∀ x ∈ shown, f x ∈ shown') : ∀ x ∈ known ∪ shown, f x ∈ known' ∪ shown' := by
  rintro x (outer | inner)
  · exact .inl (maps x outer)
  · exact .inr (more x inner)

theorem shown_renamed (rendered : Rendered a nodes c f) (stand : ∀ s ∈ parts, s.StandsIn a ∧ ∀ x ∈ s.ids, x ∈ nodes)
    {l : Kind} (renames : kind.Renames f l) : ∀ x ∈ shown parts kind, f x ∈ shown (parts.map (renamed c f)) l := by
  have listed (ts : List Tree) : ∀ x ∈ roots ts, f x ∈ roots (ts.map (renamed c f)) := by
    intro x listed
    obtain ⟨t, part, rfl⟩ := List.mem_map.1 listed
    exact List.mem_map.2 ⟨_, List.mem_map_of_mem part, id_renamed t⟩
  intro x visible
  cases renames with
  | reference => cases visible
  | same =>
    cases kind with
    | root | function =>
      have there := listed _ x visible
      rwa [List.map_dropLast] at there
    | definition => exact listed _ x visible
    | derived name d =>
      obtain ⟨s, part, rfl, function⟩ := visible
      obtain ⟨sid, skind, sparts⟩ := s
      obtain ⟨⟨m, held, renames⟩, -⟩ := renames_node rendered (stand _ part).1 (stand _ part).2
      have there : (Tree.node sid skind sparts).renamed c f ∈ parts.map (renamed c f) := List.mem_map_of_mem part
      rw [renamed_node held] at there
      obtain ⟨d', same⟩ : ∃ d', Kind.rename f (.derived name d) = .derived name d' := ⟨_, rfl⟩
      rw [same]
      exact ⟨_, there, rfl, (isFunction_of_renames renames).trans function⟩
    | _ => cases visible

theorem Grounded.renamed (rendered : Rendered a nodes c f) (grounded : t.Grounded tables known) (stands : t.StandsIn a)
    (inside : ∀ x ∈ t.ids, x ∈ nodes) (maps : ∀ x ∈ known, f x ∈ known') : (t.renamed c f).Grounded tables known' := by
  induction grounded generalizing known' with
  | @binding known id _ _ _ value next _ _ boundIH followsIH =>
    obtain ⟨⟨l, held, renames⟩, below⟩ := renames_node rendered stands inside
    simp only [List.forall_mem_cons] at below
    rw [renamed_node held]
    cases renames
    refine .binding (boundIH below.1.1 below.1.2 maps) (followsIH below.2.1.1 below.2.1.2 ?_)
    rintro x (rfl | other)
    · exact Set.mem_insert ..
    · exact Set.mem_insert_of_mem _ (maps x other)
  | @other known id kind parts sees _ ih =>
    obtain ⟨⟨l, held, renames⟩, below⟩ := renames_node rendered stands inside
    rw [renamed_node held]
    refine .other ?_ fun t' part' => ?_
    · cases renames with
      | reference => exact maps _ sees
      | same =>
        cases kind with
        | reference => exact maps _ sees
        | function =>
          intro p' part'
          rw [← List.map_dropLast] at part'
          obtain ⟨p, part, rfl⟩ := List.mem_map.1 part'
          have standing := below p (List.mem_of_mem_dropLast part)
          exact (sees p part).renamed rendered standing.1 standing.2
        | binding | split => cases sees
        | _ => exact sees
    · obtain ⟨t, part, rfl⟩ := List.mem_map.1 part'
      exact ih t part (below t part).1 (below t part).2 (maps_union maps (shown_renamed rendered below renames))

end Tree

end DerivedTables
