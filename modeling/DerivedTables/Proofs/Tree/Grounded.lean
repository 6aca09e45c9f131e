import DerivedTables.Proofs.Lowering.Program
import Mathlib.Data.Set.Insert

/-!
Where the references of a tree lead.
-/

namespace DerivedTables

namespace Kind

def links : Kind → List NodeId
  | reference target _ => [target]
  | dataset _ table => [table]
  | _ => []

def isFunction : Kind → Bool
  | function .. => true
  | _ => false

def isPlain : Kind → Bool
  | root .. | definition .. | derived .. | split .. | function .. | binding .. | reference .. | dataset .. =>
    false
  | _ => true

end Kind

namespace Tree

variable {ts : List Tree}

theorem mem_ids_cases {a : Arena} {y id : NodeId} {k kind : Kind} (stands : (node id kind ts).StandsIn a)
    (inside : y ∈ (node id kind ts).ids) (held : a.kind? y = some k) :
    k = kind ∨ ∃ t ∈ ts, t.StandsIn a ∧ y ∈ t.ids := by
  obtain rfl | inside := List.mem_cons.1 inside
  · exact .inl (Option.some_injective _ (held.symm.trans stands.held))
  · obtain ⟨t, part, inside⟩ := mem_idsOf.1 inside
    exact .inr ⟨t, part, stands.child part, inside⟩

theorem StandsIn.function_parts {a : Arena} {id b : NodeId} {name : Option String} {ps : List NodeId} {parts : List Tree}
    (stands : (Tree.node id (.function name ps b) parts).StandsIn a) :
    ∃ params body, parts = params ++ [body] ∧ params.map Tree.id = ps ∧ body.id = b := by
  obtain ⟨params, last, rfl, front, back⟩ := List.map_eq_append_iff.1 stands.filled.symm
  obtain ⟨body, rfl, same⟩ := List.map_eq_singleton_iff.1 back
  exact ⟨params, body, rfl, front, same⟩

def roots (ts : List Tree) : Set NodeId := {x | x ∈ ts.map Tree.id}

theorem mem_roots {t : Tree} (part : t ∈ ts) : t.id ∈ roots ts := List.mem_map_of_mem part

theorem roots_subset_ids {x : NodeId} (listed : x ∈ roots ts) : x ∈ idsOf ts := by
  obtain ⟨t, part, rfl⟩ := List.mem_map.1 listed
  exact mem_idsOf.2 ⟨t, part, t.id_mem_ids⟩

def own (t : Tree) : Set NodeId := {x | x = t.id ∧ t.kind.isFunction = true}

structure Linked (a : Arena) (t : Tree) : Prop where
  stands : t.StandsIn a
  once : t.ids.Nodup
  links : ∀ {y k}, y ∈ t.ids → a.kind? y = some k → ∀ x ∈ k.links, x ∈ t.ids

theorem roots_apart {t : Tree} (once : (idsOf ts).Nodup) (part : t ∈ ts) : ∀ x ∈ roots ts, x ∉ idsOf t.parts := by
  obtain ⟨id, kind, parts⟩ := t
  intro x root inside
  obtain ⟨s, other, rfl⟩ := List.mem_map.1 root
  obtain rfl := eq_of_shared once other part s.id_mem_ids (.tail _ inside)
  exact (List.nodup_cons.1 (nodup_of_mem once part)).1 inside

/-- What a node shows to its parts: a program its items, a table its columns, a function its parameters, and a
derived column the method it is. -/
def shown (parts : List Tree) : Kind → Set NodeId
  | .root .. | .function .. => roots parts.dropLast
  | .definition .. => roots parts
  | .derived .. => {x | ∃ s ∈ parts, x ∈ s.own}
  | _ => ∅

/-- What a node may refer to, where `known` is visible. -/
def Sees (tables known : Set NodeId) (parts : List Tree) : Kind → Prop
  | .reference target _ => target ∈ known
  | .dataset _ table => table ∈ tables
  | .function .. => ∀ p ∈ parts.dropLast, p.IsParam
  | .binding .. | .split .. => False
  | _ => True

inductive Grounded (tables : Set NodeId) : Set NodeId → Tree → Prop
  | binding {known : Set NodeId} {id v k : NodeId} {name : String} {value next : Tree}
    (bound : Grounded tables known value) (follows : Grounded tables (insert id known) next) :
    Grounded tables known (node id (.binding name v k) [value, next])
  | other {known : Set NodeId} {id : NodeId} {kind : Kind} {parts : List Tree} (sees : Sees tables known parts kind)
    (each : ∀ t ∈ parts, Grounded tables (known ∪ shown parts kind) t) : Grounded tables known (node id kind parts)

@[simp] theorem shown_withChildren (kind : Kind) (filled : List NodeId) : shown ts (kind.withChildren filled) = shown ts kind := by
  unfold Kind.withChildren
  split <;> rfl

@[simp] theorem sees_withChildren {tables known : Set NodeId} (kind : Kind) (filled : List NodeId) :
    Sees tables known ts (kind.withChildren filled) ↔ Sees tables known ts kind := by
  unfold Kind.withChildren
  split <;> rfl

theorem shown_of_plain {kind : Kind} (plain : kind.isPlain = true) : shown ts kind = ∅ := by
  cases kind <;> first | rfl | cases plain

@[simp] theorem shown_derived {name : String} {d : NodeId} {t : Tree} : shown [t] (.derived name d) = t.own := by
  ext x
  simp [shown]

theorem mem_of_shown {x : NodeId} {kind : Kind} (visible : x ∈ shown ts kind) : ∃ t ∈ ts, t.id = x := by
  cases kind with
  | root | function =>
    obtain ⟨t, part, same⟩ := List.mem_map.1 visible
    exact ⟨t, List.mem_of_mem_dropLast part, same⟩
  | definition => exact List.mem_map.1 visible
  | derived =>
    obtain ⟨t, part, rfl, -⟩ := visible
    exact ⟨t, part, rfl⟩
  | _ => cases visible

structure Kept (fixed : Set NodeId) (s s' : Tree) : Prop where
  leaf : s.IsParam → s'.IsParam
  id : s.id ∈ fixed → s'.id = s.id
  function : s.id ∈ fixed → s.kind.isFunction = true → s'.kind.isFunction = true

section Kept

variable {us : List Tree} {kind : Kind}

theorem forall₂_dropLast {R : Tree → Tree → Prop} (related : List.Forall₂ R ts us) : List.Forall₂ R ts.dropLast us.dropLast := by
  rw [List.dropLast_eq_take, List.dropLast_eq_take, related.length_eq]
  exact List.forall₂_take _ related

theorem Sees.kept {tables known fixed : Set NodeId} (sees : Sees tables known ts kind)
    (related : List.Forall₂ (Kept fixed) ts us) : Sees tables known us kind := by
  cases kind with
  | function =>
    intro p' part'
    obtain ⟨p, part, kept⟩ := exists_of_mem_forall₂ (forall₂_dropLast related) p' part'
    exact kept.leaf (sees p part)
  | _ => exact sees

theorem shown_subset (related : List.Forall₂ (Kept (shown ts kind)) ts us) : shown ts kind ⊆ shown us kind := by
  have listed {xs ys : List Tree} (related : List.Forall₂ (Kept (shown ts kind)) xs ys) (fixed : roots xs ⊆ shown ts kind) :
      roots xs ⊆ roots ys := by
    rintro x root
    obtain ⟨s, part, rfl⟩ := List.mem_map.1 root
    obtain ⟨s', part', kept⟩ := exists_of_mem_forall₂ related.flip s part
    exact List.mem_map.2 ⟨s', part', kept.id (fixed root)⟩
  cases kind with
  | root | function => exact listed (forall₂_dropLast related) subset_rfl
  | definition => exact listed related subset_rfl
  | derived =>
    rintro x ⟨s, part, own⟩
    obtain ⟨s', part', kept⟩ := exists_of_mem_forall₂ related.flip s part
    obtain rfl := own.1
    exact ⟨s', part', (kept.id ⟨s, part, own⟩).symm, kept.function ⟨s, part, own⟩ own.2⟩
  | _ => exact Set.empty_subset _

end Kept

namespace Grounded

variable {tables known more : Set NodeId} {a : Arena} {t t' : Tree} {id : NodeId} {kind : Kind}

section Introduction

theorem plain (plain : kind.isPlain = true) (each : ∀ t ∈ ts, Grounded tables known t) :
    Grounded tables known (node id kind ts) := by
  refine .other (by cases kind <;> trivial) ?_
  rwa [shown_of_plain plain, Set.union_empty]

theorem reference {target : NodeId} {shown : String} (there : target ∈ known) :
    Grounded tables known (node id (.reference target shown) []) := .other there (by simp)

theorem dataset {table : NodeId} {name : String} (there : table ∈ tables) :
    Grounded tables known (node id (.dataset name table) []) := .other there (by simp)

theorem function {name : Option String} {ps : List NodeId} {b : NodeId} {params : List Tree} {body : Tree}
    (leaves : ∀ t ∈ params, t.IsParam) (inside : Grounded tables (known ∪ roots params) body) :
    Grounded tables known (node id (.function name ps b) (params ++ [body])) := by
  refine .other (by simpa [Sees] using leaves) (List.forall_mem_append.2 ⟨fun t part => ?_, ?_⟩)
  · obtain ⟨_, _, _, rfl⟩ := leaves t part
    exact .other trivial (by simp)
  · simpa [shown] using inside

theorem derived {name : String} {d : NodeId} (inside : Grounded tables (known ∪ t.own) t) :
    Grounded tables known (node id (.derived name d) [t]) := .other trivial (by simpa using inside)

theorem definition {name : String} {ps : List NodeId} (each : ∀ t ∈ ts, Grounded tables (known ∪ roots ts) t) :
    Grounded tables known (node id (.definition name ps) ts) := .other trivial each

theorem root {ds vs : List NodeId} {x : NodeId} {e : Tree} (each : ∀ t ∈ ts, Grounded tables (known ∪ roots ts) t)
    (last : Grounded tables (known ∪ roots ts) e) : Grounded tables known (node id (.root ds vs x) (ts ++ [e])) := by
  refine .other trivial (List.forall_mem_append.2 ⟨?_, ?_⟩)
  · simpa [shown] using each
  · simpa [shown] using last

end Introduction

theorem weaken {others : Set NodeId} (grounded : t.Grounded tables known) (wider : tables ⊆ others) (larger : known ⊆ more) :
    t.Grounded others more := by
  induction grounded generalizing more with
  | binding _ _ bound follows => exact .binding (bound larger) (follows (Set.insert_subset_insert larger))
  | @other _ _ kind _ sees _ ih =>
    refine .other ?_ fun t part => ih t part (Set.union_subset_union_left _ larger)
    cases kind <;> first | exact sees | exact larger sees | exact wider sees

theorem mono (grounded : t.Grounded tables known) (larger : known ⊆ more) : t.Grounded tables more :=
  grounded.weaken subset_rfl larger

theorem mono_tables {others : Set NodeId} (grounded : t.Grounded tables known) (wider : tables ⊆ others) :
    t.Grounded others known := grounded.weaken wider subset_rfl

theorem subtree (grounded : t.Grounded tables known) {y : NodeId} (inside : y ∈ t.ids) :
    ∃ s : Tree, s.id = y ∧ s.Grounded tables (known ∪ {x | x ∈ t.ids}) ∧ ∀ {a}, t.StandsIn a → s.StandsIn a := by
  have below {known near : Set NodeId} {id : NodeId} {kind : Kind} {ts : List Tree} {t s : Tree} (part : t ∈ ts)
      (subset : near ⊆ known ∪ {x | x ∈ (node id kind ts).ids})
      (found : s.id = y ∧ s.Grounded tables (near ∪ {x | x ∈ t.ids}) ∧ ∀ {a}, t.StandsIn a → s.StandsIn a) :
      s.id = y ∧ s.Grounded tables (known ∪ {x | x ∈ (node id kind ts).ids}) ∧
        ∀ {a}, (node id kind ts).StandsIn a → s.StandsIn a := by
    refine ⟨found.1, found.2.1.mono (Set.union_subset subset fun x inner => ?_), fun whole => found.2.2 (whole.child part)⟩
    exact .inr (.tail _ (mem_idsOf.2 ⟨t, part, inner⟩))
  have whole := grounded
  induction grounded with
  | @binding known id _ _ _ value next bound follows boundIH followsIH =>
    obtain rfl | inside := List.mem_cons.1 inside
    · exact ⟨_, rfl, whole.mono Set.subset_union_left, fun stands => stands⟩
    · obtain ⟨t, part, inner⟩ := mem_idsOf.1 inside
      obtain rfl | rfl : t = value ∨ t = next := by simpa using part
      · obtain ⟨s, found⟩ := boundIH inner bound
        exact ⟨s, below part Set.subset_union_left found⟩
      · obtain ⟨s, found⟩ := followsIH inner follows
        exact ⟨s, below part (Set.insert_subset (.inr (.head _)) Set.subset_union_left) found⟩
  | other _ each ih =>
    obtain rfl | inside := List.mem_cons.1 inside
    · exact ⟨_, rfl, whole.mono Set.subset_union_left, fun stands => stands⟩
    · obtain ⟨t, part, inner⟩ := mem_idsOf.1 inside
      obtain ⟨s, found⟩ := ih t part inner (each t part)
      refine ⟨s, below part (Set.union_subset_union_right _ fun x visible => ?_) found⟩
      obtain ⟨u, sibling, rfl⟩ := mem_of_shown visible
      exact .tail _ (mem_idsOf.2 ⟨u, sibling, u.id_mem_ids⟩)

theorem links (grounded : t.Grounded tables known) (stands : t.StandsIn a) {x y : NodeId} {k : Kind}
    (inside : y ∈ t.ids) (held : a.kind? y = some k) (linked : x ∈ k.links) : x ∈ tables ∨ x ∈ known ∨ x ∈ t.ids := by
  obtain ⟨⟨id, kind, parts⟩, rfl, grounded, below⟩ := grounded.subtree inside
  cases held.symm.trans (below stands).held
  cases grounded with
  | binding => cases linked
  | other sees =>
    cases k with
    | reference => exact .inr ((List.mem_singleton.1 linked) ▸ sees)
    | dataset => exact .inl ((List.mem_singleton.1 linked) ▸ sees)
    | _ => cases linked

theorem linked (grounded : t.Grounded tables ∅) (stands : t.StandsIn a) (once : t.ids.Nodup)
    (inside : ∀ x ∈ tables, x ∈ t.ids) : t.Linked a :=
  ⟨stands, once, fun here held x linked => (grounded.links stands here held linked).elim (inside x) fun there =>
    there.elim False.elim fun there => there⟩

theorem param_kinds (grounded : t.Grounded tables known) (stands : t.StandsIn a) {y : NodeId} {name : Option String}
    {params : List NodeId} {body : NodeId} (inside : y ∈ t.ids) (held : a.kind? y = some (.function name params body)) :
    ∀ p ∈ params, ∃ shown declared, a.kind? p = some (.param shown declared) := by
  obtain ⟨⟨id, kind, parts⟩, rfl, grounded, below⟩ := grounded.subtree inside
  have stands := below stands
  cases held.symm.trans stands.held
  cases grounded with
  | other leaves =>
    intro p listed
    obtain ⟨ts, body, rfl, rfl, rfl⟩ := stands.function_parts
    obtain ⟨t, part, rfl⟩ := List.mem_map.1 listed
    have leaf := stands.child (List.mem_append_left _ part)
    obtain ⟨p, shown, declared, rfl⟩ := leaves t (by simpa using part)
    exact ⟨shown, declared, leaf.held⟩

section Inversion

theorem of_other (grounded : (node id kind ts).Grounded tables known) (other : ∀ name v k, kind ≠ .binding name v k) :
    Sees tables known ts kind ∧ ∀ t ∈ ts, t.Grounded tables (known ∪ shown ts kind) := by
  cases grounded with
  | binding => exact absurd rfl (other _ _ _)
  | other sees each => exact ⟨sees, each⟩

theorem parts (grounded : (node id kind ts).Grounded tables known) (plain : kind.isPlain = true) :
    ∀ t ∈ ts, t.Grounded tables known := by
  have each := (grounded.of_other (by rintro _ _ _ rfl; cases plain)).2
  rwa [shown_of_plain plain, Set.union_empty] at each

theorem target {target : NodeId} {shown : String}
    (grounded : (node id (.reference target shown) ts).Grounded tables known) : target ∈ known :=
  (grounded.of_other (by simp)).1

theorem let_parts {name : String} {v k : NodeId} {value next : Tree}
    (grounded : (node id (.binding name v k) [value, next]).Grounded tables known) :
    value.Grounded tables known ∧ next.Grounded tables (insert id known) := by
  cases grounded with
  | binding bound follows => exact ⟨bound, follows⟩
  | other sees => cases sees

theorem body {name : Option String} {ps : List NodeId} {b : NodeId} {params : List Tree} {body : Tree}
    (grounded : (node id (.function name ps b) (params ++ [body])).Grounded tables known) :
    body.Grounded tables (known ∪ roots params) := by
  simpa [shown] using (grounded.of_other (by simp)).2 body (by simp)

theorem derivation {name : String} {d : NodeId}
    (grounded : (node id (.derived name d) [t]).Grounded tables known) : t.Grounded tables (known ∪ t.own) := by
  simpa using (grounded.of_other (by simp)).2 t (by simp)

theorem columns {name : String} {ps : List NodeId} (grounded : (node id (.definition name ps) ts).Grounded tables known)
    : ∀ t ∈ ts, t.Grounded tables (known ∪ roots ts) := (grounded.of_other (by simp)).2

end Inversion

end Grounded

theorem isPlain_of_compound {k : Kind} (compound : k.isCompound = true) : k.isPlain = true := by
  cases k <;> first | rfl | cases compound

variable {tables known : Set NodeId} {picked : NodeId → Prop} {target : NodeId} {name : String} {t t' : Tree}

theorem Continued.grounded (expression : t.Expression) (grounded : t.Grounded tables known)
    (there : target ∈ known) (continued : Continued picked target name t t') : t'.Grounded tables known := by
  induction expression generalizing known t' with
  | @atom id kind atom =>
    obtain ⟨-, -, fresh, rfl⟩ | ⟨-, parts', below, rfl⟩ := continued
    · exact .reference there
    · cases below.forall₂
      have same : kind.withChildren ([].map Tree.id) = kind := by
        cases kind <;> first | rfl | cases atom
      rwa [same]
  | @compound id kind parts compound _ ih =>
    obtain ⟨rfl, -⟩ | ⟨-, parts', below, rfl⟩ := continued
    · cases compound
    · refine .plain (isPlain_of_compound ((isCompound_withChildren _ _).trans compound)) fun t' part' => ?_
      obtain ⟨t, part, here⟩ := exists_of_mem_forall₂ below.forall₂ t' part'
      exact ih t part (grounded.parts (isPlain_of_compound compound) t part) there here
  | access _ ih =>
    obtain ⟨null, -⟩ | ⟨-, parts', below, rfl⟩ := continued
    · cases null
    obtain _ | ⟨here, _ | ⟨leaf, _ | _⟩⟩ := below.forall₂
    obtain ⟨null, -⟩ | ⟨-, _, nothing, rfl⟩ := leaf
    · cases null
    cases nothing.forall₂
    have source := ih (grounded.parts rfl _ (by simp)) there here
    exact .plain rfl (by simpa using ⟨source, .plain rfl (by simp)⟩)
  | binding _ _ valueIH nextIH =>
    obtain ⟨null, -⟩ | ⟨-, parts', below, rfl⟩ := continued
    · cases null
    obtain _ | ⟨here, _ | ⟨after, _ | _⟩⟩ := below.forall₂
    exact .binding (valueIH grounded.let_parts.1 there here)
      (nextIH grounded.let_parts.2 (Set.mem_insert_of_mem _ there) after)
  | @function id params body leaves _ ih =>
    obtain ⟨null, -⟩ | ⟨-, parts', below, rfl⟩ := continued
    · cases null
    obtain ⟨b', rfl, here⟩ := below.eq_of_params leaves
    have kind : (Kind.function none (params.map Tree.id) body.id).withChildren ((params ++ [b']).map Tree.id) =
        .function none (params.map Tree.id) b'.id := by
      simp [Kind.withChildren]
    rw [kind]
    exact .function leaves (ih grounded.body (.inl there) here)

end Tree

open Tree

variable {tables : Set NodeId}

theorem lowers_grounded : (∀ (e : Expr) {t}, e.Lowers t → t.Grounded tables ∅) ∧
    (∀ es {t}, BlockLowers es t → t.Grounded tables ∅) ∧ ∀ es {ts}, ArgsLower es ts → ∀ t ∈ ts, t.Grounded tables
    ∅ := by
  have both := lowers_induct (P := fun t => t.Expression ∧ t.Grounded tables ∅) ?atom ?compound ?access ?function
    ?binding ?continued
  · exact ⟨fun e _ lowers => (both.1 e lowers).2, fun es _ lowers => (both.2.1 es lowers).2,
      fun es _ lowers t part => (both.2.2 es lowers t part).2⟩
  case atom =>
    refine fun {id kind} atom plain => ⟨.atom atom, .plain ?_ (by simp)⟩
    cases kind <;> first | rfl | exact absurd rfl (plain _ _) | cases atom
  case compound =>
    exact fun compound each => ⟨.compound compound fun t part => (each t part).1,
      .plain (isPlain_of_compound compound) fun t part => (each t part).2⟩
  case access =>
    exact fun inside => ⟨.access inside.1, .plain rfl (by simpa using ⟨inside.2, .plain rfl (by simp)⟩)⟩
  case function => exact fun leaves inside => ⟨.function leaves inside.1, .function leaves (inside.2.mono (by simp))⟩
  case binding =>
    exact fun bound follows => ⟨.binding bound.1 follows.1, .binding bound.2 (follows.2.mono (by simp))⟩
  case continued =>
    -- The ends go on with the let, and they all stand in what follows it.
    exact fun {_ id _ _ _ _} whole next ends => ⟨.binding next.1 (ends.expression whole.1),
      .binding next.2 (ends.grounded whole.1 (whole.2.mono (by simp)) (Set.mem_insert id ∅))⟩

theorem Member.Lowers.grounded {member : Member} {t : Tree} (lowers : member.Lowers t) : t.Grounded tables ∅ := by
  obtain ⟨name, ⟨base, isArray⟩ | context, span⟩ | ⟨name, expr, span⟩ | ⟨name, params, body, span⟩ := member
  · obtain ⟨id, rfl⟩ := lowers
    exact .plain rfl (by simp)
  · cases lowers
  · obtain ⟨id, e, inside, rfl⟩ := lowers
    exact .derived ((lowers_grounded.1 _ inside).mono (by simp))
  · obtain ⟨id, f, ps, b, leaves, inside, rfl⟩ := lowers
    exact .derived (t := node f _ _) (.function leaves.isParam ((lowers_grounded.1 _ inside).mono (by simp)))

theorem members_grounded {members : List Member} {ts : List Tree}
    (lower : List.Forall₂ Member.Lowers members ts) : ∀ t ∈ ts, t.Grounded tables ∅ := by
  induction lower with
  | nil => simp
  | cons first _ ih => exact List.forall_mem_cons.2 ⟨first.grounded, ih⟩

theorem StatementsLower.grounded {statements : List Statement} {ds vs : List Tree} {es : List Expr}
    (lower : StatementsLower statements ds vs es) : ∀ t ∈ ds ++ vs, t.Grounded tables ∅ := by
  induction statements generalizing ds vs es with
  | nil =>
    obtain ⟨rfl, rfl, rfl⟩ := lower
    simp
  | cons statement rest ih =>
    cases statement with
    | definition name members span =>
      obtain ⟨id, ps, others, columns, lower, rfl⟩ := lower
      refine List.forall_mem_cons.2 ⟨.definition fun t part => ?_, ih lower⟩
      exact (members_grounded columns t part).mono (by simp)
    | assignment name value span =>
      obtain ⟨id, e, others, inside, lower, rfl⟩ := lower
      have rest := List.forall_mem_append.1 (ih lower)
      refine List.forall_mem_append.2 ⟨rest.1, List.forall_mem_cons.2 ⟨.plain rfl ?_, rest.2⟩⟩
      simpa using lowers_grounded.1 _ inside
    | expression expr =>
      obtain ⟨others, lower, rfl⟩ := lower
      exact ih lower

theorem Program.Lowers.grounded {program : Program} {t : Tree} (lowers : program.Lowers t) : t.Grounded tables ∅ := by
  obtain ⟨id, ds, vs, es, e, lower, last, rfl⟩ := lowers
  exact .root (fun t part => (lower.grounded t part).mono (by simp))
    ((lowers_grounded.2.1 _ last).mono (by simp))

end DerivedTables
