import DerivedTables.Proofs.Scope.Recursion
import DerivedTables.Proofs.Storage.Late

/-!
Ways into a part of the tree. Evaluation comes into the inside of an expression only through its
top, so it never comes to the parts of anything maintained, and what it comes to there that reads a
parameter or let is for the reader all the way up.
-/

namespace DerivedTables

def Tree.Unmaintained (a : Arena) (t : Tree) (x : NodeId) : Prop :=
  ∀ m : Tree, m.StandsIn a → m.id ∈ t.ids → m.kind.isMaintained = true → x ∉ Tree.idsOf m.parts

namespace Tree

theorem Unmaintained.exposed {a : Arena} {t s : Tree} {x : NodeId} (free : t.Unmaintained a x)
    (standing : s.StandsIn a) (subset : s.ids ⊆ t.ids) (within : x ∈ s.ids) : Relation.ReflTransGen a.Exposes s.id x := by
  induction s with
  | node id kind parts ih =>
    obtain rfl | below := List.mem_cons.1 within
    · exact .refl
    · obtain ⟨u, part, below'⟩ := mem_idsOf.1 below
      have plain : kind.isMaintained = false := by
        by_contra maintained
        exact free _ standing (subset (id_mem_ids _)) (by simpa using maintained) below
      have inner : u.ids ⊆ t.ids := fun y listed => subset (.tail _ (mem_idsOf.2 ⟨u, part, listed⟩))
      exact (ih u part (standing.child part) inner below').head
        ⟨kind, standing.held, plain, standing.filled ▸ List.mem_map_of_mem part⟩

theorem AtTop.slot {a : Arena} {t : Tree} {x y : NodeId} (top : t.AtTop a x y) :
    ∃ p ∈ t.ids, ∃ k, a.kind? p = some k ∧ y ∈ k.children ∧ k.layer ≠ .inner := by
  cases top with
  | @listed p k inside held listed =>
    refine ⟨p, inside, k, held, Kind.mem_children_of_lists listed, ?_⟩
    cases k with
    | root | definition => simp [Kind.layer]
    | _ => cases listed
  | @own p name k s inside held => exact ⟨p, inside, _, held, by simp [Kind.children], by simp [Kind.layer]⟩

namespace Sighted

variable {a : Arena} {t s : Tree} {x y z start : NodeId} {k : Kind} (sighted : t.Sighted a)

include sighted

theorem top_of_inner (top : t.AtTop a x y) (standing : s.StandsIn a) (inside : s.id ∈ t.ids) (inner : a.Inner s.id)
    (within : y ∈ s.ids) : y = s.id := by
  by_contra other
  obtain ⟨p, live, k, held, child, layer⟩ := top.slot
  have above := sighted.stands.parent_mem sighted.once standing inside within other live held child
  have inner := sighted.layered.inner_ids sighted.stands standing inside inner above
  exact layer (Option.some_injective _ ((Arena.layer?_of_kind? held).symm.trans inner))

theorem enters (live : x ∈ t.ids) (leads : a.Leads x y) (standing : s.StandsIn a) (inside : s.id ∈ t.ids)
    (inner : a.Inner s.id) (within : y ∈ s.ids) (outside : x ∉ s.ids) : y = s.id := by
  by_contra other
  obtain ⟨k, held, part⟩ | ⟨b, shown, name, next, held, binding⟩ | ⟨name, -, -, top⟩ := sighted.leads_cases live leads
  · exact outside (sighted.stands.parent_mem sighted.once standing inside within other live held
      (Kind.mem_children_of_entered part))
  · obtain ⟨above, u, rfl, whole, below⟩ := sighted.named_let live held binding
    have around := sighted.stands.parent_mem sighted.once standing inside within other above binding
      (by simp [Kind.children])
    have last : u.id ∈ s.ids := standing.mem_of_child around binding (by simp [Kind.children])
    exact outside ((standing.sublist_within whole last).subset below)
  · exact other (sighted.top_of_inner top standing inside inner within)

theorem reaches_through (live : start ∈ t.ids) (standing : s.StandsIn a) (inside : s.id ∈ t.ids) (inner : a.Inner s.id)
    (outside : start ∉ s.ids) (reaches : a.Reaches start x) (within : x ∈ s.ids) : a.Reaches s.id x := by
  induction reaches with
  | refl => exact absurd within outside
  | @tail y z before leads ih =>
    by_cases already : y ∈ s.ids
    · exact (ih already).tail leads
    · rw [sighted.enters (sighted.reaches_mem live before) leads standing inside inner within already]
      exact .refl

theorem leads_unmaintained (live : x ∈ t.ids) (free : t.Unmaintained a x) (leads : a.Leads x y) :
    t.Unmaintained a y := by
  intro m stands inside maintained within
  obtain ⟨s, part, within⟩ := mem_idsOf.1 within
  have whole := stands.child part
  have slot : s.id ∈ m.kind.children := by
    obtain ⟨id, kind, parts⟩ := m
    exact stands.filled ▸ List.mem_map_of_mem part
  have there := sighted.child_mem inside stands.kind slot
  have outside : x ∉ s.ids := fun below => free m stands inside maintained (mem_idsOf.2 ⟨s, part, below⟩)
  have layer : m.kind.layer = .inner := by
    cases kind : m.kind <;> simp_all [Kind.isMaintained, Kind.layer]
  have inner : a.Inner s.id := sighted.layered.inner inside stands.kind (by simp [layer]) _ slot
  obtain rfl := sighted.enters live leads whole there inner within outside
  have only {p : NodeId} {l : Kind} (above : p ∈ t.ids) (held : a.kind? p = some l) (child : s.id ∈ l.children) :
      l = m.kind := by
    obtain rfl := sighted.stands.parent_unique sighted.once above inside held stands.kind child slot
    exact Option.some_injective _ (held.symm.trans stands.kind)
  obtain ⟨k, held, part⟩ | ⟨b, shown, name, next, held, binding⟩ | ⟨name, -, -, top⟩ := sighted.leads_cases live leads
  · rw [only live held (Kind.mem_children_of_entered part)] at part
    cases kind : m.kind <;> simp_all [Kind.isMaintained, Kind.entered, Kind.isInert]
  · obtain ⟨above, -⟩ := sighted.named_let live held binding
    rw [← only above binding (by simp [Kind.children])] at maintained
    cases maintained
  · obtain ⟨p, above, l, held, child, other⟩ := top.slot
    exact other (only above held child ▸ layer)

theorem reaches_unmaintained (live : start ∈ t.ids) (free : t.Unmaintained a start) (reaches : a.Reaches start x) :
    t.Unmaintained a x := by
  induction reaches with
  | refl => exact free
  | tail before leads ih => exact sighted.leads_unmaintained (sighted.reaches_mem live before) ih leads

theorem late_of_free (live : x ∈ t.ids) (free : a.Free x y) : a.Late x := by
  induction free with
  | @read x y name held within =>
    obtain ⟨z, above, k, s, binder, bound, -⟩ := sighted.covered live (.read held within)
    refine ⟨x, .refl, .inl ⟨y, name, ?_⟩⟩
    obtain ⟨rfl, shown, v, next, rfl⟩ | ⟨shown, declared, param⟩ := sighted.bound_kind above binder bound
    · exact ⟨_, held, binder, rfl⟩
    · exact ⟨_, held, param, rfl⟩
  | @named x y b v next shown name held binding => exact ⟨x, .refl, .inl ⟨b, shown, _, held, binding, rfl⟩⟩
  | @part x y c k before after bound held run inside unbound ih =>
    have part : c ∈ k.entered := Arena.mem_entered_of_runs run (List.mem_append_right before List.mem_cons_self)
    have child := Kind.mem_children_of_entered part
    refine (ih (sighted.child_mem live held child)).of_exposes (.single ⟨k, held, ?_, child⟩)
    cases k <;> first | rfl | cases run
  | @body x y b name params held => exact ⟨x, .refl, .inr ⟨name, params, b, held⟩⟩

end Sighted

end Tree

end DerivedTables
