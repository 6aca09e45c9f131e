import DerivedTables.Proofs.Scope.Sight
import DerivedTables.Proofs.Scope.Unaliased
import DerivedTables.Proofs.Tree.WellFormed

/-!
What is left of a program without the lets that only rename.
-/

namespace DerivedTables

open Tree Alias

theorem forall₂_append_left {α β : Type} {R : α → β → Prop} {xs ys : List α} {zs : List β} (related : List.Forall₂ R (xs
    ++ ys) zs) : ∃ first last, zs = first ++ last ∧ List.Forall₂ R xs first ∧ List.Forall₂ R ys last := by
  induction xs generalizing zs with
  | nil => exact ⟨[], zs, rfl, .nil, related⟩
  | cons x xs ih =>
    cases related with
    | @cons _ z _ zs here rest =>
      obtain ⟨first, last, rfl, before, after⟩ := ih rest
      exact ⟨z :: first, last, rfl, .cons here before, after⟩

namespace Arena

variable {a b : Arena} {x y z target next : NodeId}

/-- What a let only gives another name to, and what follows the let. -/
def alias? (a : Arena) (x : NodeId) : Option (NodeId × NodeId) :=
  match a.kind? x with
  | some (.binding _ value next) => (a.target? value).map (·, next)
  | _ => none

theorem alias?_eq_some (found : a.alias? x = some (target, next)) :
    ∃ name value shown, a.kind? x = some (.binding name value next) ∧ a.kind? value = some (.reference target shown) := by
  unfold alias? at found
  split at found
  · rename_i name value next' held
    obtain ⟨target', named, same⟩ := Option.map_eq_some_iff.1 found
    cases same
    obtain ⟨shown, bound⟩ := of_target?_eq_some named
    exact ⟨name, value, shown, held, bound⟩
  · cases found

theorem alias?_of_let {name shown : String} {value : NodeId} (held : a.kind? x = some (.binding name value next))
    (bound : a.kind? value = some (.reference target shown)) : a.alias? x = some (target, next) := by
  rw [alias?, held]
  exact congrArg (Option.map (·, next)) (target?_eq_some bound)

theorem alias?_of_other {k : Kind} (held : a.kind? x = some k) (other : ∀ name value next, k ≠ .binding name value next) :
    a.alias? x = none := by
  rw [alias?, held]
  split
  · rename_i same
    exact absurd (Option.some_injective _ same) (other _ _ _)
  · rfl

theorem alias?_of_value {name : String} {value : NodeId} {k : Kind} (held : a.kind? x = some (.binding name value next))
    (bound : a.kind? value = some k) (other : ∀ target shown, k ≠ .reference target shown) : a.alias? x = none := by
  cases found : a.alias? x with
  | none => rfl
  | some pair =>
    obtain ⟨_, _, _, held', bound'⟩ := alias?_eq_some (show a.alias? x = some (pair.1, pair.2) from found)
    cases held.symm.trans held'
    exact absurd (Option.some_injective _ (bound.symm.trans bound')) (other _ _)

/-- The second node is what is left of the first: a let that only renames leaves what is left of what follows. -/
inductive Remains (a : Arena) : NodeId → NodeId → Prop
  | kept {x : NodeId} (other : a.alias? x = none) : Remains a x x
  | skip {x y target next : NodeId} (renames : a.alias? x = some (target, next)) (follows : Remains a next y) : Remains a x y

inductive StandsFor (a : Arena) : NodeId → NodeId → Prop
  | self {x : NodeId} (other : a.alias? x = none) : StandsFor a x x
  | through {x y target next : NodeId} (renames : a.alias? x = some (target, next)) (further : StandsFor a target y) :
    StandsFor a x y

theorem Remains.unique (first : a.Remains x y) (second : a.Remains x z) : y = z := by
  induction first with
  | kept other =>
    cases second with
    | kept => rfl
    | skip renames => cases other.symm.trans renames
  | skip renames _ ih =>
    cases second with
    | kept other => cases other.symm.trans renames
    | skip renames' follows =>
      cases renames.symm.trans renames'
      exact ih follows

end Arena

namespace Tree

variable {a b : Arena} {t t' : Tree} {ts : List Tree} {aliases : Aliases} {x : NodeId} {k : Kind}

inductive Cleared (a : Arena) : Tree → Tree → Prop
  | skip {id target : NodeId} {kind : Kind} {value next t' : Tree} (renames : a.alias? id = some (target, next.id))
    (bound : value.parts = []) (follows : Cleared a next t') : Cleared a (node id kind [value, next]) t'
  | reference {id target target' : NodeId} {shown shown' : String} (stands : a.StandsFor target target') :
    Cleared a (node id (.reference target shown) []) (node id (.reference target' shown') [])
  | kept {id : NodeId} {kind : Kind} {parts parts' : List Tree} (other : a.alias? id = none)
    (plain : ∀ target shown, kind ≠ .reference target shown) (count : parts.length = parts'.length)
    (each : ∀ p ∈ parts.zip parts', Cleared a p.1 p.2) :
    Cleared a (node id kind parts) (node id (kind.withChildren (parts'.map Tree.id)) parts')

theorem unaliasAll_stays {x : NodeId} (each : ∀ t ∈ ts, ∀ aliases, (t.unalias aliases).2[x]? = aliases[x]?)
    (aliases : Aliases) : (unaliasAll aliases ts).2[x]? = aliases[x]? := by
  induction ts generalizing aliases with
  | nil => rfl
  | cons t rest ih =>
    simp only [List.forall_mem_cons] at each
    exact (ih each.2 _).trans (each.1 aliases)

theorem unalias_stays (stands : t.StandsIn a) (other : x ∈ t.ids → a.alias? x = none) (aliases : Aliases) :
    (t.unalias aliases).2[x]? = aliases[x]? := by
  induction t generalizing aliases with
  | node id kind parts ih =>
    by_cases inside : x ∈ (node id kind parts).ids
    · have below (us : List Tree) (each : ∀ u ∈ us, u ∈ parts) : (unaliasAll aliases us).2[x]? = aliases[x]? :=
        unaliasAll_stays (fun u part aliases => ih u (each u part) (stands.child (each u part)) (fun _ => other inside) aliases)
          aliases
      unfold unalias
      split
      · rename_i name v next value follows same
        cases same
        split
        · rename_i target shown bound
          have slots := stands.filled
          simp only [Kind.children, List.map_cons, List.map_nil, List.cons.injEq, and_true] at slots
          have renames := Arena.alias?_of_let stands.held (slots.1 ▸ bound ▸ (stands.child (s := value) (by simp)).kind)
          rw [ih follows (by simp) (stands.child (by simp)) (fun _ => other inside), Std.TreeMap.getElem?_insert, if_neg]
          rintro same
          rw [Std.LawfulEqCmp.compare_eq_iff_eq.1 same] at renames
          cases (other inside).symm.trans renames
        · exact below [value, follows] (by simp)
      · rfl
      · rename_i same
        cases same
        exact below parts fun _ part => part
    · exact unalias_off _ aliases x inside

theorem unaliasAll_cleared (known : Set NodeId) (each : ∀ t ∈ ts, ∀ {aliases : Aliases}, (∀ x ∈ t.ids, aliases[x]? =
    none) → (∀ x ∈ known, a.StandsFor x (standsFor aliases x)) → t.Cleared a (t.unalias aliases).1) (stand : ∀ t ∈ ts,
    t.StandsIn a) (once : (idsOf ts).Nodup) (fresh : ∀ x ∈ idsOf ts, aliases[x]? = none) (apart : ∀ x ∈ known, x ∈ idsOf
    ts → a.alias? x = none) (follows : ∀ x ∈ known, a.StandsFor x (standsFor aliases x)) : ∀ p ∈ ts.zip (unaliasAll
    aliases ts).1, p.1.Cleared a p.2 := by
  induction ts generalizing aliases with
  | nil => simp
  | cons t ts ih =>
    simp only [List.forall_mem_cons] at each stand
    obtain ⟨-, onceRest, disjoint⟩ := List.nodup_append.1 once
    simp only [idsOf, List.mem_append] at fresh apart
    rw [unaliasAll, List.zip_cons_cons, List.forall_mem_cons]
    refine ⟨each.1 (fun x inside => fresh x (.inl inside)) follows, ih each.2 stand.2 onceRest (fun x inside => ?_)
      (fun x listed inside => apart x listed (.inr inside)) fun x listed => ?_⟩
    · rw [unalias_off t aliases x fun here => disjoint x here x inside rfl]
      exact fresh x (.inr inside)
    · have same := unalias_stays stand.1 (fun here => apart x listed (.inl here)) aliases
      rw [standsFor, same]
      exact follows x listed

theorem Cast.part {id : NodeId} {kind : Kind} {parts : List Tree} {s : Tree} (cast : (Tree.node id kind parts).Cast a)
    (part : s ∈ parts) : s.Cast a := fun x inside => cast x ((ids_sublist part).subset inside)

theorem Cast.shown {id : NodeId} {kind : Kind} {parts : List Tree} (cast : (Tree.node id kind parts).Cast a)
    (stands : (Tree.node id kind parts).StandsIn a) (visible : x ∈ shown parts kind) :
    ∃ k, a.kind? x = some k ∧ (k.role = .expression → k.isFunction = true) := by
  have slot {r : Role} (takes : (x, r) ∈ kind.takes) (other : r ≠ .expression) :
      ∃ k, a.kind? x = some k ∧ (k.role = .expression → k.isFunction = true) := by
    obtain ⟨k, held, plays⟩ := Arena.exists_of_role? (cast id (id_mem_ids (.node id _ _)) kind stands.held _ takes)
    exact ⟨k, held, fun same => absurd (plays.symm.trans same) other⟩
  obtain listed | ⟨_, s, rfl, rfl, rfl, function⟩ | ⟨_, ps, b, rfl, param⟩ := stands.shown_cases visible
  · cases kind with
    | root => exact slot (List.mem_append_left _ (List.mem_map_of_mem listed)) nofun
    | definition => exact slot (List.mem_map_of_mem listed) nofun
    | _ => cases listed
  · exact ⟨_, (stands.child (s := s) (by simp)).kind, fun _ => function⟩
  · exact slot (List.mem_append_left _ (List.mem_map_of_mem param)) nofun

theorem Cast.alias? {id : NodeId} {kind : Kind} {parts : List Tree} (cast : (Tree.node id kind parts).Cast a)
    (stands : (Tree.node id kind parts).StandsIn a) : ∀ x ∈ Tree.shown parts kind, a.alias? x = none := by
  intro x visible
  obtain ⟨k, held, fixed⟩ := cast.shown stands visible
  refine Arena.alias?_of_other held ?_
  rintro name value next rfl
  cases fixed rfl

structure Clears (a : Arena) (known : Set NodeId) (t : Tree) : Prop where
  run : ∀ {aliases : Aliases}, t.StandsIn a → t.ids.Nodup → t.Cast a → (∀ x ∈ t.ids, aliases[x]? = none) →
    (∀ x ∈ known, x ∈ t.ids → a.alias? x = none) → (∀ x ∈ known, a.StandsFor x (standsFor aliases x)) →
    t.Cleared a (t.unalias aliases).1

namespace Clears

variable {known : Set NodeId} {id : NodeId}

theorem node {kind : Kind} {parts : List Tree} (shown : Set NodeId) (noReference : ∀ target shown, kind ≠ .reference
    target shown) (noLet : ∀ name value next, kind ≠ .binding name value next) (each : ∀ t ∈ parts, Clears a shown t)
    (near : (Tree.node id kind parts).StandsIn a → (Tree.node id kind parts).Cast a → ∀ x ∈ shown, x ∈ known ∨
    a.alias? x = none ∧ x ∈ idsOf parts) : Clears a known (Tree.node id kind parts) := by
  refine ⟨fun {aliases} stands once cast fresh apart follows => ?_⟩
  have once' := (List.nodup_cons.1 once).2
  have apart' : ∀ x ∈ shown, x ∈ idsOf parts → a.alias? x = none := fun x listed inside =>
    (near stands cast x listed).elim (fun listed => apart x listed (.tail _ inside)) And.left
  have fresh' : ∀ x ∈ idsOf parts, aliases[x]? = none := fun x inside => fresh x (.tail _ inside)
  rw [unalias_other noReference noLet]
  refine .kept (Arena.alias?_of_other stands.held noLet) noReference (length_unaliasAll ..)
    (unaliasAll_cleared shown (fun s part {aliases} fresh follows => ?_) (fun s part => stands.child part) once'
      fresh' apart' fun x listed => ?_)
  · exact (each s part).run (stands.child part) (nodup_of_mem once' part) (cast.part part) fresh
      (fun x listed inside => apart' x listed (mem_idsOf.2 ⟨s, part, inside⟩)) follows
  · obtain listed | ⟨other, inside⟩ := near stands cast x listed
    · exact follows x listed
    · rw [standsFor, fresh' x inside]
      exact .self other

theorem binding {name : String} {v k : NodeId} {value next : Tree} (first : Clears a known value)
    (second : Clears a (insert id known) next) (seen : value.Grounded ∅ known) :
    Clears a known (Tree.node id (.binding name v k) [value, next]) := by
  refine ⟨fun {aliases} stands once cast fresh apart follows => ?_⟩
  obtain ⟨rfl, rfl⟩ : v = value.id ∧ k = next.id := by simpa [Kind.children] using stands.filled
  obtain ⟨new, once'⟩ := List.nodup_cons.1 once
  simp only [idsOf, List.append_nil, List.mem_append, not_or] at new once'
  obtain ⟨onceValue, onceNext, disjoint⟩ := List.nodup_append.1 once'
  simp only [ids, idsOf, List.append_nil, List.mem_cons, List.mem_append] at fresh apart
  have standsValue := stands.child (s := value) (by simp)
  have standsNext := stands.child (s := next) (by simp)
  have inNext : ∀ x ∈ insert id known, x ∈ next.ids → a.alias? x = none := by
    rintro x (rfl | listed) inside
    · exact absurd inside new.2
    · exact apart x listed (.inr (.inr inside))
  by_cases renames : ∃ target shown, value.kind = .reference target shown
  · obtain ⟨target, shown, same⟩ := renames
    have here := Arena.alias?_of_let stands.held (same ▸ standsValue.kind)
    obtain ⟨vid, vkind, vparts⟩ := value
    obtain rfl : vkind = .reference target shown := same
    obtain rfl : vparts = [] := by simpa [Kind.children] using standsValue.filled
    have stood := follows target seen.target
    rw [unalias]
    refine .skip here rfl (second.run standsNext onceNext (cast.part (by simp)) (fun x inside => ?_) inNext ?_)
    · rw [Std.TreeMap.getElem?_insert, if_neg, fresh x (.inr (.inr inside))]
      rintro equal
      exact new.2 (Std.LawfulEqCmp.compare_eq_iff_eq.1 equal ▸ inside)
    · rintro x listed
      by_cases self : x = id
      · subst self
        refine .through here ?_
        rw [standsFor, Std.TreeMap.getElem?_insert_self, Option.map_some, Option.getD_some, target_follow]
        exact stood
      · rw [standsFor, Std.TreeMap.getElem?_insert, if_neg fun equal => self (Std.LawfulEqCmp.compare_eq_iff_eq.1 equal).symm]
        exact follows x (listed.resolve_left self)
  · have stays : ∀ target shown, value.kind ≠ .reference target shown :=
      fun target shown same => renames ⟨target, shown, same⟩
    have other := Arena.alias?_of_value stands.held standsValue.kind stays
    have unchanged (x : NodeId) (apart : x ∉ value.ids) : (value.unalias aliases).2[x]? = aliases[x]? :=
      unalias_off value aliases x apart
    rw [unalias_binding stays]
    refine .kept other (by simp) rfl ?_
    simp only [unaliasAll, List.zip_cons_cons, List.zip_nil_right, List.forall_mem_cons, List.not_mem_nil, false_imp_iff,
      implies_true, and_true]
    refine ⟨first.run standsValue onceValue (cast.part (by simp)) (fun x inside => fresh x (.inr (.inl inside)))
        (fun x listed inside => apart x listed (.inr (.inl inside))) follows,
      second.run standsNext onceNext (cast.part (by simp)) (fun x inside => ?_) inNext ?_⟩
    · rw [unchanged x fun here => disjoint x here x inside rfl]
      exact fresh x (.inr (.inr inside))
    · rintro x (rfl | listed)
      · rw [standsFor, unchanged x new.1, fresh x (.inl rfl)]
        exact .self other
      · rw [standsFor, unalias_stays standsValue (fun inside => apart x listed (.inr (.inl inside)))]
        exact follows x listed

end Clears

theorem Grounded.clears {known : Set NodeId} (grounded : t.Grounded ∅ known) : Clears a known t := by
  induction grounded with
  | binding bound _ first second => exact .binding first second bound
  | @other known id kind parts sees each ih =>
    by_cases refers : ∃ target shown, kind = .reference target shown
    · obtain ⟨target, shown, rfl⟩ := refers
      refine ⟨fun {aliases} stands once cast fresh apart follows => ?_⟩
      obtain rfl := List.map_eq_nil_iff.1 stands.filled.symm
      rw [unalias]
      exact .reference (target_follow .. ▸ follows _ sees)
    · refine .node (known ∪ shown parts kind) (fun _ _ same => refers ⟨_, _, same⟩) (by rintro _ _ _ rfl; exact sees) ih
        fun stands cast x => Or.imp_right fun visible => ⟨cast.alias? stands x visible, ?_⟩
      obtain ⟨s, part, rfl⟩ := mem_of_shown visible
      exact mem_idsOf.2 ⟨s, part, s.id_mem_ids⟩

namespace Cleared

theorem remains (cleared : t.Cleared a t') (stands : t.StandsIn a) : a.Remains t.id t'.id := by
  induction cleared with
  | skip renames _ _ ih => exact .skip renames (ih (stands.child (by simp)))
  | reference => exact .kept (Arena.alias?_of_other stands.held (by simp))
  | kept other => exact .kept other

theorem not_alias (cleared : t.Cleared a t') (stands : t.StandsIn a) (inside : x ∈ t'.ids) : a.alias? x = none := by
  induction cleared with
  | skip _ _ _ ih => exact ih (stands.child (by simp)) inside
  | reference =>
    obtain rfl : x = _ := by simpa [ids, idsOf] using inside
    exact Arena.alias?_of_other stands.held (by simp)
  | kept other _ count _ ih =>
    obtain rfl | below := List.mem_cons.1 inside
    · exact other
    · obtain ⟨s', part', below⟩ := mem_idsOf.1 below
      have related := List.forall₂_iff_zip.2 ⟨count, fun {s s'} pair => ih (s, s') pair⟩
      obtain ⟨s, part, there⟩ := exists_of_mem_forall₂ related s' part'
      exact there (stands.child part) below

theorem mem_ids (cleared : t.Cleared a t') (stands : t.StandsIn a) (inside : x ∈ t.ids) (held : a.kind? x = some k)
    (plain : ∀ target shown, k ≠ .reference target shown) (other : a.alias? x = none) : x ∈ t'.ids := by
  induction cleared with
  | @skip id target kind value next t' renames bound follows ih =>
    obtain rfl | below := List.mem_cons.1 inside
    · cases other.symm.trans renames
    · obtain ⟨_, _, shown, binding, named⟩ := Arena.alias?_eq_some renames
      cases stands.held.symm.trans binding
      simp only [idsOf, List.append_nil, List.mem_append] at below
      obtain here | there := below
      · obtain ⟨vid, vkind, vparts⟩ := value
        obtain rfl : vparts = [] := bound
        obtain rfl : x = vid := by simpa [ids, idsOf] using here
        have slots := stands.filled
        simp only [Kind.children, List.map_cons, List.map_nil, List.cons.injEq, id_node] at slots
        rw [slots.1, held] at named
        exact absurd (Option.some_injective _ named) (plain _ _)
      · exact ih (stands.child (by simp)) there
  | reference => simpa [ids, idsOf] using inside
  | kept _ _ count _ ih =>
    obtain rfl | below := List.mem_cons.1 inside
    · exact id_mem_ids (.node x _ _)
    · obtain ⟨s, part, below⟩ := mem_idsOf.1 below
      have related := List.forall₂_iff_zip.2 ⟨count, fun {s s'} pair => ih (s, s') pair⟩
      obtain ⟨s', part', there⟩ := exists_of_mem_forall₂ related.flip s part
      exact .tail _ (mem_idsOf.2 ⟨s', part', there (stands.child part) below⟩)

inductive Became (a : Arena) : Kind → Kind → Prop
  | reference {target target' : NodeId} {shown shown' : String} (stands : a.StandsFor target target') :
    Became a (.reference target shown) (.reference target' shown')
  | node {k : Kind} {left : List NodeId} (plain : ∀ target shown, k ≠ .reference target shown)
    (parts : List.Forall₂ a.Remains k.children left) : Became a k (k.withChildren left)

theorem became (cleared : t.Cleared a t') (stands : t.StandsIn a) (there : t'.StandsIn b) (inside : x ∈ t'.ids) :
    ∃ k l, x ∈ t.ids ∧ a.kind? x = some k ∧ b.kind? x = some l ∧ Became a k l := by
  induction cleared with
  | skip _ _ _ ih =>
    obtain ⟨k, l, inside, held, held', became⟩ := ih (stands.child (by simp)) there inside
    exact ⟨k, l, by simp [ids, idsOf, inside], held, held', became⟩
  | reference stood =>
    obtain rfl : x = _ := by simpa [ids, idsOf] using inside
    exact ⟨_, _, id_mem_ids (.node x _ _), stands.held, there.held, .reference stood⟩
  | @kept id kind parts parts' other plain count each ih =>
    obtain rfl | below := List.mem_cons.1 inside
    · refine ⟨kind, _, id_mem_ids (.node x _ _), stands.held, there.held, .node plain ?_⟩
      rw [stands.filled, List.forall₂_map_left_iff, List.forall₂_map_right_iff]
      exact List.forall₂_iff_zip.2 ⟨count, fun {s s'} pair => (each (s, s') pair).remains (stands.child (List.of_mem_zip pair).1)⟩
    · obtain ⟨s', part', below⟩ := mem_idsOf.1 below
      have related := List.forall₂_iff_zip.2 ⟨count, fun {s s'} pair => ih (s, s') pair⟩
      obtain ⟨s, part, there'⟩ := exists_of_mem_forall₂ related s' part'
      obtain ⟨k, l, inside, held, held', became⟩ := there' (stands.child part) (there.child part') below
      exact ⟨k, l, List.mem_cons_of_mem _ (mem_idsOf.2 ⟨s, part, inside⟩), held, held', became⟩

variable {id : NodeId} {kind : Kind} {parts us : List Tree} {known known' : Set NodeId}

theorem of_other (cleared : (node id kind parts).Cleared a t') (stands : (node id kind parts).StandsIn a)
    (noReference : ∀ target shown, kind ≠ .reference target shown) (noLet : ∀ name value next, kind ≠ .binding name value next) :
    ∃ parts', t' = node id (kind.withChildren (parts'.map Tree.id)) parts' ∧ List.Forall₂ (Cleared a) parts parts' := by
  cases cleared with
  | skip renames =>
    obtain ⟨_, _, _, held, -⟩ := Arena.alias?_eq_some renames
    exact absurd (Option.some_injective _ (stands.held.symm.trans held)) (noLet _ _ _)
  | reference => exact absurd rfl (noReference _ _)
  | kept _ _ count each => exact ⟨_, rfl, List.forall₂_iff_zip.2 ⟨count, fun {s s'} pair => each (s, s') pair⟩⟩

theorem eq_leaf (cleared : (node id kind []).Cleared a t') (stands : (node id kind []).StandsIn a)
    (noReference : ∀ target shown, kind ≠ .reference target shown) (noLet : ∀ name value next, kind ≠ .binding name value next) :
    t' = node id kind [] := by
  obtain ⟨parts', rfl, related⟩ := cleared.of_other stands noReference noLet
  cases related
  rw [← stands.filled, kind.withChildren_children]

theorem formed (cleared : t.Cleared a t') (stands : t.StandsIn a) (formed : t.Formed) : t'.Formed ∧ t'.kind.role = t.kind.role := by
  induction cleared with
  | skip renames _ _ ih =>
    obtain ⟨_, _, _, held, -⟩ := Arena.alias?_eq_some renames
    cases stands.held.symm.trans held
    obtain ⟨below, role⟩ := ih (stands.child (by simp)) (formed.each _ (by simp))
    have slots := formed.slots
    simp only [Kind.takes, Kind.children, List.map_cons, List.cons.injEq, slot, Prod.mk.injEq] at slots
    exact ⟨below, role.trans slots.2.1.2.symm⟩
  | reference => exact ⟨.node rfl rfl (by simp), rfl⟩
  | kept _ _ count _ ih =>
    refine ⟨formed.refill (List.forall₂_iff_zip.2 ⟨count, fun {s s'} pair => ?_⟩), Kind.role_withChildren ..⟩
    exact ih (s, s') pair (stands.child (List.of_mem_zip pair).1) (formed.each s (List.of_mem_zip pair).1)

def Follows (a : Arena) (known known' : Set NodeId) : Prop := ∀ x ∈ known, ∀ y, a.StandsFor x y → y ∈ known'

theorem Follows.union (follows : Follows a known known') {shown : Set NodeId} (others : ∀ x ∈ shown, a.alias? x = none) :
    Follows a (known ∪ shown) (known' ∪ shown) := by
  rintro x (outer | inner) y stood
  · exact .inl (follows x outer y stood)
  · cases stood with
    | self => exact .inr inner
    | through renames => cases (others x inner).symm.trans renames

theorem keeps {fixed : Set NodeId} (cleared : t.Cleared a t') (stands : t.StandsIn a)
    (others : ∀ x ∈ fixed, a.alias? x = none) : Kept fixed t t' where
  leaf := by
    rintro ⟨id, name, declared, rfl⟩
    rw [cleared.eq_leaf stands (by simp) (by simp)]
    exact ⟨id, name, declared, rfl⟩
  id visible := (cleared.remains stands).unique (.kept (others _ visible))
  function _ function := by
    obtain ⟨id, kind, parts⟩ := t
    obtain ⟨parts', rfl, -⟩ := cleared.of_other stands (by rintro _ _ rfl; cases function) (by rintro _ _ _ rfl; cases function)
    cases kind <;> first | rfl | cases function

theorem grounded (cleared : t.Cleared a t') (stands : t.StandsIn a) (cast : t.Cast a) (grounded : t.Grounded ∅ known)
    (follows : Follows a known known') : t'.Grounded ∅ known' := by
  induction grounded generalizing t' known' with
  | @binding known id v k name value next bound _ valueIH nextIH =>
    cases cleared with
    | skip renames _ rest =>
      refine nextIH rest (stands.child (by simp)) (cast.part (by simp)) ?_
      obtain ⟨_, _, shown, held, named⟩ := Arena.alias?_eq_some renames
      cases stands.held.symm.trans held
      have slots := (List.cons.inj stands.filled).1
      -- The let is gone, and what it renamed stands in its place.
      rintro x (rfl | listed) y stood
      · cases stood with
        | self other => cases other.symm.trans renames
        | through renames' further =>
          cases renames.symm.trans renames'
          refine follows _ ?_ y further
          have there := (stands.child (s := value) (by simp)).kind.symm.trans (slots ▸ named)
          obtain ⟨v, kind, parts⟩ := value
          obtain rfl : kind = _ := Option.some_injective _ there
          exact bound.target
      · exact follows x listed y stood
    | kept other _ count each =>
      obtain _ | ⟨here, _ | ⟨there, _ | _⟩⟩ : List.Forall₂ (Cleared a) _ _ :=
        List.forall₂_iff_zip.2 ⟨count, fun {s s'} pair => each (s, s') pair⟩
      refine .binding (valueIH here (stands.child (by simp)) (cast.part (by simp)) follows)
        (nextIH there (stands.child (by simp)) (cast.part (by simp)) ?_)
      rw [← Set.union_singleton, ← Set.union_singleton]
      exact follows.union (by simpa using other)
  | @other known id kind parts sees _ ih =>
    by_cases refers : ∃ target shown, kind = .reference target shown
    · obtain ⟨target, shown, rfl⟩ := refers
      cases cleared with
      | skip renames =>
        obtain ⟨_, _, _, held, -⟩ := Arena.alias?_eq_some renames
        cases stands.held.symm.trans held
      | reference stood => exact .reference (follows _ sees _ stood)
      | kept _ plain => exact absurd rfl (plain _ _)
    · obtain ⟨parts', rfl, related⟩ := cleared.of_other stands (fun _ _ same => refers ⟨_, _, same⟩) (by rintro _ _ _ rfl; exact sees)
      have others := cast.alias? stands
      have kept : List.Forall₂ (Kept (shown parts kind)) parts parts' := List.forall₂_iff_zip.2 ⟨related.length_eq,
        fun {s s'} pair => ((List.forall₂_iff_zip.1 related).2 pair).keeps (stands.child (List.of_mem_zip pair).1) others⟩
      refine .other ?_ fun t' part' => ?_
      · rw [sees_withChildren]
        cases kind with
        | reference => exact absurd ⟨_, _, rfl⟩ refers
        | _ => exact sees.kept kept
      · obtain ⟨t, part, here⟩ := exists_of_mem_forall₂ related t' part'
        refine ih t part here (stands.child part) (cast.part part) fun x visible y stood => ?_
        rw [shown_withChildren]
        exact Set.union_subset_union_right _ (shown_subset kept) (follows.union others x visible y stood)

end Cleared

theorem Formed.cleared (formed : t.Formed) (stands : t.StandsIn a) (once : t.ids.Nodup) (grounded : t.Grounded ∅ ∅) :
    t.Cleared a (t.unalias ∅).1 ∧ (t.unalias ∅).1.Grounded ∅ ∅ := by
  have cast := formed.cast stands
  have cleared : t.Cleared a (t.unalias ∅).1 := grounded.clears.run stands once cast
    (fun x _ => Std.TreeMap.getElem?_emptyc) (fun x listed => absurd listed (Set.notMem_empty x))
    fun x listed => absurd listed (Set.notMem_empty x)
  exact ⟨cleared, cleared.grounded stands cast grounded fun x listed => absurd listed (Set.notMem_empty x)⟩

end Tree

end DerivedTables
