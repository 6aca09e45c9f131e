import DerivedTables.Proofs.Eval.Undisturbed
import DerivedTables.Proofs.Tree.Grounded
import DerivedTables.Proofs.Tree.Layers

/-!
What a name can stand for, read off the tree.
-/

namespace DerivedTables

namespace Kind

def scope : Kind → Option NodeId
  | binding _ _ next => some next
  | function _ _ body => some body
  | _ => none

def lists : Kind → List NodeId
  | root definitions assignments _ => definitions ++ assignments
  | definition _ properties => properties
  | _ => []

theorem mem_children_of_scope {k : Kind} {c : NodeId} (shown : k.scope = some c) : c ∈ k.children := by
  cases k <;> cases shown <;> simp [children]

theorem mem_children_of_lists {k : Kind} {c : NodeId} (listed : c ∈ k.lists) : c ∈ k.children := by
  cases k with
  | root definitions assignments e => exact List.mem_append_left _ listed
  | definition => exact listed
  | _ => cases listed

theorem mem_lists_of_takes {k : Kind} {slot : NodeId × Role} (listed : slot ∈ k.takes)
    (plays : slot.2 = .item ∨ slot.2 = .property) : slot.1 ∈ k.lists := by
  obtain ⟨c, r⟩ := slot
  cases k <;> simp_all [takes, lists] <;> grind

theorem takes_of_entered {k : Kind} {c : NodeId} (part : c ∈ k.entered) : (c, .expression) ∈ k.takes := by
  cases k with
  | function name ps b =>
    obtain rfl := List.mem_singleton.1 part
    exact List.mem_append_right _ (List.mem_singleton.2 rfl)
  | access source property =>
    obtain rfl := List.mem_singleton.1 part
    exact List.mem_map_of_mem List.mem_cons_self
  | root | definition => cases part
  | _ => exact List.mem_map_of_mem (mem_children_of_entered part)

end Kind

def Arena.Covers (a : Arena) (z y x : NodeId) : Prop :=
  ∃ (k : Kind) (s : Tree), a.kind? z = some k ∧ y ∈ k.binds z ∧ k.scope = some s.id ∧ s.StandsIn a ∧ x ∈ s.ids

namespace Tree

variable {a : Arena} {t s : Tree} {p c x y z : NodeId} {k : Kind} {tables known : Set NodeId}

inductive AtTop (a : Arena) (t : Tree) (x y : NodeId) : Prop
  | listed {p : NodeId} {k : Kind} (inside : p ∈ t.ids) (held : a.kind? p = some k) (listed : y ∈ k.lists)
  | own {p : NodeId} {name : String} {k : Kind} {s : Tree} (inside : p ∈ t.ids)
    (held : a.kind? p = some (.derived name y)) (there : a.kind? y = some k) (function : k.isFunction = true)
    (whole : s.StandsIn a) (same : s.id = y) (within : x ∈ s.ids)

theorem AtTop.mono (top : s.AtTop a x y) (subset : s.ids ⊆ t.ids) : t.AtTop a x y := by
  cases top with
  | listed inside held listed => exact .listed (subset inside) held listed
  | own inside held there function whole same within => exact .own (subset inside) held there function whole same within

theorem StandsIn.shown_cases {id : NodeId} {kind : Kind} {parts : List Tree} (stands : (Tree.node id kind parts).StandsIn a)
    (visible : x ∈ shown parts kind) : x ∈ kind.lists ∨ (∃ name s, kind = .derived name s.id ∧ parts = [s] ∧ x ∈ s.own) ∨
    ∃ name ps b, kind = .function name ps b ∧ x ∈ ps := by
  have filled := stands.filled
  cases kind with
  | root =>
    have front := congrArg List.dropLast filled
    rw [Kind.children, List.dropLast_concat, ← List.map_dropLast] at front
    rw [Kind.lists, front]
    exact .inl visible
  | definition =>
    rw [Kind.children] at filled
    rw [Kind.lists, filled]
    exact .inl visible
  | derived name d =>
    obtain ⟨s, rfl, rfl⟩ := List.map_eq_singleton_iff.1 filled.symm
    exact .inr (.inl ⟨name, s, rfl, rfl, by simpa using visible⟩)
  | function name ps b =>
    obtain ⟨params, body, rfl, rfl, rfl⟩ := stands.function_parts
    exact .inr (.inr ⟨name, _, _, rfl, by simpa [shown, roots] using visible⟩)
  | _ => cases visible

/-- A name in a grounded tree stands for something known, for something at the top, or for what is
bound around it. -/
theorem Grounded.sight (grounded : t.Grounded tables known) (stands : t.StandsIn a) {target : NodeId}
    {name : String} (inside : x ∈ t.ids) (held : a.kind? x = some (.reference target name)) :
    target ∈ known ∨ t.AtTop a x target ∨ ∃ z ∈ t.ids, a.Covers z target x := by
  have lift {s : Tree} {id : NodeId} {kind : Kind} {parts : List Tree} {shown known : Set NodeId} (part : s ∈ parts)
      (found : target ∈ shown ∨ s.AtTop a x target ∨ ∃ z ∈ s.ids, a.Covers z target x)
      (here : target ∈ shown → target ∈ known ∨ (node id kind parts).AtTop a x target ∨
        ∃ z ∈ (node id kind parts).ids, a.Covers z target x) :
      target ∈ known ∨ (node id kind parts).AtTop a x target ∨
        ∃ z ∈ (node id kind parts).ids, a.Covers z target x := by
    have subset : s.ids ⊆ (node id kind parts).ids := (ids_sublist part).subset
    obtain shown | top | ⟨z, within, covers⟩ := found
    · exact here shown
    · exact .inr (.inl (top.mono subset))
    · exact .inr (.inr ⟨z, subset within, covers⟩)
  induction grounded with
  | @binding known id _ _ shown value next bound follows boundIH followsIH =>
    obtain same | ⟨s, part, standing, below⟩ := mem_ids_cases stands inside held
    · cases same
    obtain rfl | rfl : s = value ∨ s = next := by simpa using part
    · exact lift part (boundIH standing below) .inl
    · refine lift part (followsIH standing below) ?_
      rintro (rfl | there)
      · have scope := congrArg some (List.cons.inj (List.cons.inj stands.filled).2).1
        exact .inr (.inr ⟨_, id_mem_ids _, _, s, stands.held, List.mem_singleton.2 rfl, scope, standing, below⟩)
      · exact .inl there
  | @other known id kind parts sees each ih =>
    obtain rfl | ⟨s, part, standing, below⟩ := mem_ids_cases stands inside held
    · exact .inl sees
    refine lift part (ih s part standing below) (Or.imp_right fun visible => ?_)
    obtain listed | ⟨_, u, rfl, rfl, own⟩ | ⟨_, ps, b, rfl, param⟩ := stands.shown_cases visible
    · exact .inl (.listed (id_mem_ids _) stands.held listed)
    · obtain rfl := List.mem_singleton.1 part
      obtain ⟨rfl, function⟩ := own
      exact .inl (.own (id_mem_ids _) stands.held standing.kind function standing rfl below)
    · obtain ⟨params, body, rfl, rfl, rfl⟩ := stands.function_parts
      obtain leaf | last := List.mem_append.1 part
      · obtain ⟨p, q, declared, rfl⟩ := sees s (by simpa using leaf)
        obtain rfl : x = p := by simpa [ids, idsOf] using below
        cases held.symm.trans standing.held
      · obtain rfl := List.mem_singleton.1 last
        exact .inr ⟨_, id_mem_ids _, _, s, stands.held, param, rfl, standing, below⟩

theorem AtTop.global (top : t.AtTop a x y) (cast : ∀ p ∈ t.ids, ∀ k, a.kind? p = some k → k.layer = .program →
    ∀ slot ∈ k.takes, a.role? slot.1 = some slot.2) : ∃ k, a.kind? y = some k ∧ k.isGlobal = true := by
  cases top with
  | @listed p k inside held listed =>
    have slots := cast p inside k held
    cases k with
    | root definitions assignments e =>
      obtain ⟨l, there, role⟩ := Arena.exists_of_role?
        (slots rfl (y, .item) (List.mem_append_left _ (List.mem_map_of_mem listed)))
      exact ⟨l, there, by cases l <;> first | rfl | cases role⟩
    | definition shown properties =>
      obtain ⟨l, there, role⟩ := Arena.exists_of_role? (slots rfl (y, .property) (List.mem_map_of_mem listed))
      exact ⟨l, there, by cases l <;> first | rfl | cases role⟩
    | _ => cases listed
  | @own p name k s inside held there function => exact ⟨k, there, by cases k <;> first | rfl | cases function⟩

structure Sighted (a : Arena) (t : Tree) : Prop extends t.Linked a where
  layered : t.Layered a
  top_global : ∀ {x y : NodeId}, t.AtTop a x y → ∃ k, a.kind? y = some k ∧ k.isGlobal = true
  params : ∀ {x : NodeId} {name : Option String} {params : List NodeId} {body : NodeId}, x ∈ t.ids →
    a.kind? x = some (.function name params body) → ∀ p ∈ params, ∃ shown declared,
      a.kind? p = some (.param shown declared)
  sight : ∀ {x target : NodeId} {name : String}, x ∈ t.ids → a.kind? x = some (.reference target name) →
    t.AtTop a x target ∨ ∃ z ∈ t.ids, a.Covers z target x

namespace Sighted

variable (sighted : t.Sighted a)

include sighted

theorem child_mem (live : x ∈ t.ids) (held : a.kind? x = some k) (child : c ∈ k.children) : c ∈ t.ids :=
  sighted.stands.mem_of_child live held child

theorem children_nodup (live : x ∈ t.ids) (held : a.kind? x = some k) : k.children.Nodup := by
  obtain ⟨⟨id, kind, parts⟩, rfl, standing⟩ := sighted.stands.exists_at live
  cases held.symm.trans standing.held
  have once := (sighted.stands.sublist_within standing live).nodup sighted.once
  exact standing.filled ▸ nodup_map_id (List.nodup_cons.1 once).2

theorem child_ne (live : x ∈ t.ids) (held : a.kind? x = some k) (child : c ∈ k.children) : c ≠ x := by
  rintro rfl
  obtain ⟨s, rfl, standing⟩ := sighted.stands.exists_at live
  exact standing.not_above ((sighted.stands.sublist_within standing live).nodup sighted.once) s.id_mem_ids held child

theorem bound_kind (live : x ∈ t.ids) (held : a.kind? x = some k) (bound : y ∈ k.binds x) :
    (y = x ∧ ∃ name v next, k = .binding name v next) ∨ ∃ shown declared, a.kind? y = some (.param shown declared) := by
  cases k with
  | binding name v next => exact .inl ⟨List.mem_singleton.1 bound, name, v, next, rfl⟩
  | function name params body =>
    exact .inr (sighted.params live held y bound)
  | split => exact absurd rfl (sighted.layered.unsplit live held)
  | _ => cases bound

theorem bound_local (live : x ∈ t.ids) (held : a.kind? x = some k) (bound : y ∈ k.binds x) (l : Kind)
    (there : a.kind? y = some l) : l.isGlobal = false := by
  obtain ⟨rfl, name, v, next, rfl⟩ | ⟨shown, declared, param⟩ := sighted.bound_kind live held bound
  · cases there.symm.trans held
    rfl
  · cases there.symm.trans param
    rfl

theorem covers_up (above : z ∈ t.ids) (covers : a.Covers z y c) (live : p ∈ t.ids) (held : a.kind? p = some k)
    (child : c ∈ k.children) : (z = p ∧ y ∈ k.binds p ∧ k.scope = some c) ∨ a.Covers z y p := by
  obtain ⟨l, s, binder, bound, shown, standing, below⟩ := covers
  have slot := Kind.mem_children_of_scope shown
  by_cases top : c = s.id
  · subst top
    obtain rfl := sighted.stands.parent_unique sighted.once above live binder held slot child
    cases binder.symm.trans held
    exact .inl ⟨rfl, bound, shown⟩
  · have inside := sighted.child_mem above binder slot
    exact .inr ⟨l, s, binder, bound, shown, standing,
      sighted.stands.parent_mem sighted.once standing inside below top live held child⟩

theorem named_let {b v next : NodeId} {name shown : String} (live : x ∈ t.ids)
    (held : a.kind? x = some (.reference b shown)) (binding : a.kind? b = some (.binding name v next)) :
    b ∈ t.ids ∧ ∃ s : Tree, s.id = next ∧ s.StandsIn a ∧ x ∈ s.ids := by
  obtain top | ⟨z, above, k, s, binder, bound, shown, standing, below⟩ := sighted.sight live held
  · obtain ⟨k, there, global⟩ := sighted.top_global top
    cases there.symm.trans binding
    cases global
  · obtain ⟨rfl, _, _, _, rfl⟩ | ⟨_, _, param⟩ := sighted.bound_kind above binder bound
    · cases binder.symm.trans binding
      exact ⟨above, s, (Option.some_injective _ shown).symm, standing, below⟩
    · cases param.symm.trans binding

theorem covered (live : x ∈ t.ids) (free : a.Free x y) : ∃ z ∈ t.ids, a.Covers z y x := by
  induction free with
  | @read x y name held within =>
    refine (sighted.sight live held).resolve_left fun top => ?_
    obtain ⟨k, there, global⟩ := sighted.top_global top
    rw [within k there] at global
    cases global
  | @named x y b v next shown name held binding inside ih =>
    obtain ⟨above, s, rfl, standing, below⟩ := sighted.named_let live held binding
    have children := sighted.children_nodup above binding
    obtain ⟨z, outer, covers⟩ := ih (sighted.child_mem above binding (by simp [Kind.children]))
    obtain ⟨rfl, -, shown⟩ | covers := sighted.covers_up outer covers above binding (by simp [Kind.children])
    · simp_all [Kind.scope, Kind.children]
    · obtain ⟨l, u, binder, bound, shown, wide, reached⟩ := covers
      obtain ⟨w, same, whole, subset⟩ := wide.tree_at reached
      obtain ⟨q, part, next⟩ := whole.child_at (same ▸ binding) (c := s.id) (by simp [Kind.children])
      have inner : s.id ∈ u.ids := subset (w.ids_eq ▸ List.mem_cons_of_mem _ (ids_of_part part (next ▸ q.id_mem_ids)))
      exact ⟨z, outer, l, u, binder, bound, shown, wide, (wide.sublist_within standing inner).subset below⟩
  | @part x y c k before after bound held run inside unbound ih =>
    have child : c ∈ k.children := Kind.mem_children_of_entered
      (Arena.mem_entered_of_runs run (List.mem_append_right before List.mem_cons_self))
    obtain ⟨z, outer, covers⟩ := ih (sighted.child_mem live held child)
    obtain ⟨rfl, binds, shown⟩ | covers := sighted.covers_up outer covers live held child
    · -- Only a let binds something for a part of its own run, and it does so before that part.
      have children := sighted.children_nodup live held
      cases k with
      | binding name v next =>
        cases shown
        obtain rfl := List.mem_singleton.1 binds
        cases before with
        | nil => simp_all [Kind.runs, Kind.children]
        | cons step rest =>
          obtain rfl : step = (v, [y]) := (List.cons.inj (List.mem_singleton.1 run)).1
          exact absurd (List.mem_singleton.2 rfl) (unbound _ List.mem_cons_self)
      | function => cases run
      | _ => cases shown
    · exact ⟨z, outer, covers⟩
  | @body x y b name params held inside unbound ih =>
    have child : b ∈ (Kind.function name params b).children := by simp [Kind.children]
    obtain ⟨z, outer, covers⟩ := ih (sighted.child_mem live held child)
    obtain ⟨rfl, binds, -⟩ | covers := sighted.covers_up outer covers live held child
    · exact absurd binds unbound
    · exact ⟨z, outer, covers⟩

theorem top_uncovered {w : NodeId} (top : t.AtTop a w y) (above : z ∈ t.ids) : ¬ a.Covers z x y := by
  intro covers
  have outside {p : NodeId} {k : Kind} (live : p ∈ t.ids) (held : a.kind? p = some k) (child : y ∈ k.children)
      (unscoped : k.scope = none) (layer : k.layer ≠ .inner) : False := by
    obtain ⟨-, -, shown⟩ | ⟨l, s, binder, bound, shown, standing, below⟩ :=
      sighted.covers_up above covers live held child
    · cases unscoped.symm.trans shown
    · have slot := Kind.mem_children_of_scope shown
      have inner : a.Inner s.id :=
        sighted.layered.inner above binder (by cases l <;> cases shown <;> simp [Kind.layer]) _ slot
      have inner := sighted.layered.inner_ids sighted.stands standing (sighted.child_mem above binder slot) inner below
      exact layer (Option.some_injective _ ((Arena.layer?_of_kind? held).symm.trans inner))
  cases top with
  | @listed p k inside held listed =>
    have child := Kind.mem_children_of_lists listed
    cases k with
    | root | definition => exact outside inside held child rfl (by simp [Kind.layer])
    | _ => cases listed
  | own inside held => exact outside inside held (by simp [Kind.children]) rfl (by simp [Kind.layer])

theorem closed {target : NodeId} {name : String} (live : x ∈ t.ids) (held : a.kind? x = some (.reference target name))
    (self : target ∈ a.code target) : ¬ a.Free target y := by
  intro free
  have there := sighted.links live held target (List.mem_singleton.2 rfl)
  obtain ⟨z, above, covers⟩ := sighted.covered there free
  obtain top | ⟨z, above, k, s, binder, bound, -⟩ := sighted.sight live held
  · exact sighted.top_uncovered top above covers
  · obtain ⟨rfl, shown, v, next, rfl⟩ | ⟨shown, declared, param⟩ := sighted.bound_kind above binder bound
    · rw [Arena.code, binder] at self
      exact sighted.child_ne above binder (by simp [Kind.children]) (List.mem_singleton.1 self).symm
    · rw [Arena.code, param] at self
      cases self

theorem leads_mem (live : x ∈ t.ids) (leads : a.Leads x y) : y ∈ t.ids := by
  obtain ⟨k, held, part | ⟨target, name, rfl, code⟩⟩ := leads
  · exact sighted.child_mem live held (Kind.mem_children_of_entered part)
  · have there := sighted.links live held target (List.mem_singleton.2 rfl)
    obtain ⟨shown, v, next, binding, lone⟩ | ⟨-, none_ | lone⟩ := a.code_cases target
    · obtain rfl := List.mem_singleton.1 (lone ▸ code)
      exact sighted.child_mem there binding (by simp [Kind.children])
    · cases none_ ▸ code
    · exact List.mem_singleton.1 (lone ▸ code) ▸ there

theorem reaches_mem (live : x ∈ t.ids) (reaches : a.Reaches x y) : y ∈ t.ids := by
  induction reaches with
  | refl => exact live
  | tail _ leads ih => exact sighted.leads_mem ih leads

theorem sound (live : x ∈ t.ids) (solid : ∀ y, a.Reaches x y → a.role? y ≠ some .param)
    (undisturbed : a.Undisturbed x) : a.Sound (a.Reaches x) where
  leads reaches leads := reaches.tail leads
  outside reaches held self _ := sighted.closed (sighted.reaches_mem live reaches) held self
  binds reaches held bound l := sighted.bound_local (sighted.reaches_mem live reaches) held bound l
  steady reaches held run listed := undisturbed _ _ reaches held run listed
  solid reaches param := solid _ reaches (Arena.role?_of_kind? param)

end Sighted

section Solid

variable (cast : t.Cast a) (sighted : t.Sighted a)

include cast

theorem Cast.entered_role (live : x ∈ t.ids) (held : a.kind? x = some k) (part : c ∈ k.entered) :
    a.role? c ≠ some .param := by
  simp [cast x live k held _ (Kind.takes_of_entered part)]

include sighted

theorem Cast.leads_role (live : x ∈ t.ids) (leads : a.Leads x y) : a.role? y ≠ some .param := by
  obtain ⟨k, held, part | ⟨target, name, rfl, code⟩⟩ := leads
  · exact cast.entered_role live held part
  · have there := sighted.links live held target (List.mem_singleton.2 rfl)
    cases held' : a.kind? target with
    | none => simp [Arena.code, held'] at code
    | some l =>
      cases l with
      | param | column | definition => simp [Arena.code, held'] at code
      | binding shown v next =>
        obtain rfl : y = v := by simpa [Arena.code, held'] using code
        exact cast.entered_role there held' (by simp [Kind.entered, Kind.isInert, Kind.children])
      | _ =>
        obtain rfl : y = target := by simpa [Arena.code, held'] using code
        simp [Arena.role?_of_kind? held', Kind.role]

theorem Cast.reaches_role (live : x ∈ t.ids) (solid : a.role? x ≠ some .param) (reaches : a.Reaches x y) :
    a.role? y ≠ some .param := by
  obtain rfl | ⟨z, before, leads⟩ := Relation.ReflTransGen.cases_tail reaches
  · exact solid
  · exact cast.leads_role sighted (sighted.reaches_mem live before) leads

end Solid

end Tree

end DerivedTables
