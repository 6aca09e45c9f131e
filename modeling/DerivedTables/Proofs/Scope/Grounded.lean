import DerivedTables.Proofs.Compilation.FrontEnd
import DerivedTables.Proofs.Scope.Cleared

/-!
Binding names and taking out the lets that only rename keep a program a program, and grounded.
-/

namespace DerivedTables

namespace Tree

open Alias

variable {tables known known' : Set NodeId} {view : View} {t t' : Tree} {ts ts' : List Tree} {aliases : Aliases}

def View.Within (view : View) (known : Set NodeId) : Prop := ∀ {name id}, view name = some id → id ∈ known

theorem View.Within.with {names : List (String × NodeId)} {shown : Set NodeId} (sees : View.Within view known)
    (near : ∀ x ∈ names, x.2 ∈ shown) : View.Within (view.with names) (known ∪ shown) := by
  intro name id found
  obtain here | ⟨-, above⟩ := Option.or_eq_some_iff.1 found
  · exact .inr (near _ (mem_of_lookup here))
  · exact .inl (sees above)

theorem snd_paramNames {params : List Tree} (leaves : ∀ t ∈ params, t.IsParam) :
    ∀ x ∈ paramNames params, x.2 ∈ roots params := by
  intro x listed
  have second := List.mem_map_of_mem (f := Prod.snd) listed
  rwa [map_snd_paramNames leaves] at second

theorem snd_declaredNames (ts : List Tree) : ∀ x ∈ declaredNames ts, x.2 ∈ roots ts := by
  intro x listed
  obtain ⟨t, part, shown⟩ := List.mem_filterMap.1 listed
  obtain ⟨_, _, rfl⟩ := Option.map_eq_some_iff.1 shown
  exact mem_roots part

namespace Resolves

variable {id : NodeId} {kind : Kind} {parts parts' : List Tree}

theorem kind_cases (resolves : t.Resolves t') :
    t'.kind = t.kind ∨ ∃ target name, t.kind = .identifier name ∧ t'.kind = .reference target name := by
  cases resolves with
  | same | inside => exact .inl rfl
  | name => exact .inr ⟨_, _, rfl, rfl⟩

theorem role (resolves : t.Resolves t') : t'.kind.role = t.kind.role := by
  obtain same | ⟨_, _, plain, named⟩ := resolves.kind_cases
  · rw [same]
  · rw [plain, named]
    rfl

theorem formed (resolves : t.Resolves t') (formed : t.Formed) : t'.Formed := by
  induction resolves with
  | same => exact formed
  | name =>
    obtain ⟨-, slots, each⟩ := formed
    exact .node rfl slots each
  | @inside id kind parts parts' count each ih =>
    have related := List.forall₂_iff_zip.2 ⟨count, fun {s s'} pair => each (s, s') pair⟩
    have filled : kind.children = parts.map Tree.id := by
      rw [← kind.map_fst_takes, formed.slots, List.map_map]
      rfl
    rw [← kind.withChildren_children, filled, ← (all_ids related).1]
    refine formed.refill (List.forall₂_iff_zip.2 ⟨count, fun {s s'} pair => ?_⟩)
    exact ⟨ih (s, s') pair (formed.each s (List.of_mem_zip pair).1), (each (s, s') pair).role⟩

theorem keeps {fixed : Set NodeId} (resolves : t.Resolves t') : Kept fixed t t' where
  leaf := by
    rintro ⟨id, name, declared, rfl⟩
    cases resolves with
    | same => exact ⟨id, name, declared, rfl⟩
    | inside count =>
      obtain rfl := List.length_eq_zero_iff.1 count.symm
      exact ⟨id, name, declared, rfl⟩
  id _ := resolves.ids_eq.1
  function _ function := by
    obtain same | ⟨_, _, plain, -⟩ := resolves.kind_cases
    · rwa [same]
    · rw [plain] at function
      cases function

/-- What the names are bound in sees what it saw. -/
theorem grounded (related : List.Forall₂ Resolves parts parts') (sees : Sees tables known parts kind)
    (each : ∀ t' ∈ parts', t'.Grounded tables (known ∪ shown parts kind)) : (node id kind parts').Grounded tables known := by
  have kept : List.Forall₂ (Kept (shown parts kind)) parts parts' := related.imp fun _ _ resolves => resolves.keeps
  exact .other (sees.kept kept) fun t' part' => (each t' part').mono (Set.union_subset_union_right _ (shown_subset kept))

end Resolves

theorem exists_of_mem_mapM {bind : Tree → Option Tree} (done : ts.mapM bind = some ts') (part' : t' ∈ ts') :
    ∃ t ∈ ts, bind t = some t' := by
  obtain ⟨t, -, here⟩ := exists_of_mem_forall₂ (forall₂_of_mapM done) t' part'
  exact ⟨t, here⟩

theorem Expression.resolve_grounded (expression : t.Expression) (grounded : t.Grounded tables known)
    (sees : View.Within view known) (done : t.resolve view = some t') : t'.Grounded tables known := by
  induction expression generalizing known view t' with
  | @atom id kind atom =>
    by_cases named : ∃ name, kind = .identifier name
    · obtain ⟨name, rfl⟩ := named
      obtain ⟨target, found, rfl⟩ := Option.map_eq_some_iff.1 done
      exact .reference (sees found)
    · rw [resolve_leaf fun name same => named ⟨name, same⟩] at done
      cases done
      exact grounded
  | compound compound _ ih =>
    rw [resolve_compound compound, resolveAll_eq_mapM] at done
    obtain ⟨parts', below, rfl⟩ := Option.map_eq_some_iff.1 done
    refine .plain (isPlain_of_compound compound) fun t' part' => ?_
    obtain ⟨t, part, found⟩ := exists_of_mem_mapM below part'
    exact ih t part (grounded.parts (isPlain_of_compound compound) t part) sees found
  | access _ ih =>
    obtain ⟨source', found, rfl⟩ := Option.map_eq_some_iff.1 done
    exact .plain rfl (by simpa using ⟨ih (grounded.parts rfl _ (by simp)) sees found, .plain rfl (by simp)⟩)
  | @binding id name value next _ _ valueIH nextIH =>
    obtain ⟨value', found, done⟩ := Option.bind_eq_some_iff.1 done
    obtain ⟨next', found', rfl⟩ := Option.map_eq_some_iff.1 done
    have inner : View.Within (view.with [(name, id)]) (insert id known) := by
      rw [← Set.union_singleton]
      exact sees.with (by simp)
    exact .binding (valueIH grounded.let_parts.1 sees found) (nextIH grounded.let_parts.2 inner found')
  | function leaves inside ih =>
    rw [resolve_function leaves inside] at done
    split at done
    · obtain ⟨body', found, rfl⟩ := Option.map_eq_some_iff.1 done
      exact .function leaves (ih grounded.body (sees.with (snd_paramNames leaves)) found)
    · cases done

theorem IsProperty.resolve_grounded (property : t.IsProperty) (grounded : t.Grounded tables known)
    (sees : View.Within view known) (done : t.resolve view = some t') : t'.Grounded tables known := by
  cases property with
  | column =>
    cases done
    exact grounded
  | @derived id name e inside =>
    rw [resolve_single (by simp [Resolution.declaration?])] at done
    obtain ⟨e', found, rfl⟩ := Option.map_eq_some_iff.1 done
    refine Resolves.grounded (.cons (resolves_of_resolve found) .nil) trivial (List.forall_mem_singleton.2 ?_)
    rw [shown_derived]
    exact inside.resolve_grounded grounded.derivation (fun shown => .inl (sees shown)) found
  | @method id f name shown params body leaves inside =>
    rw [resolve_single (by simp [Resolution.declaration?]), resolve_function leaves inside] at done
    obtain ⟨function, found, rfl⟩ := Option.map_eq_some_iff.1 done
    split at found
    · obtain ⟨body', below, rfl⟩ := Option.map_eq_some_iff.1 found
      have outer : View.Within (view.with [(shown, f)]) (known ∪ {x | x = f ∧ true = true}) :=
        sees.with (by simp)
      have both := inside.resolve_grounded grounded.derivation.body (outer.with (snd_paramNames leaves)) below
      exact .derived (t := node f _ _) (.function leaves both)
    · cases found

theorem IsItem.resolve_grounded (item : t.IsItem) (grounded : t.Grounded tables known)
    (sees : View.Within view known) (done : t.resolveItem view = some t') : t'.Grounded tables known := by
  cases item with
  | @definition id name properties each =>
    rw [resolveItem] at done
    split at done
    · obtain ⟨parts', found, rfl⟩ := Option.map_eq_some_iff.1 done
      refine Resolves.grounded (resolves_of_resolveAll found) trivial fun t' part' => ?_
      rw [resolveAll_eq_mapM] at found
      obtain ⟨t, part, shown⟩ := exists_of_mem_mapM found part'
      exact (each t part).resolve_grounded (grounded.columns t part) (sees.with (snd_declaredNames properties)) shown
    · cases done
  | assignment inside =>
    rw [resolveItem, resolve_single (by simp [Resolution.declaration?])] at done
    · obtain ⟨e', found, rfl⟩ := Option.map_eq_some_iff.1 done
      exact .plain rfl (by simpa using inside.resolve_grounded (grounded.parts rfl _ (by simp)) sees found)
    · simp

theorem IsProgram.resolve_grounded (program : t.IsProgram) (grounded : t.Grounded tables ∅)
    (done : t.resolveProgram = some t') : t'.Grounded tables ∅ := by
  cases program with
  | @root id definitions assignments e defined values last =>
    rw [resolveProgram] at done
    split at done
    · obtain ⟨parts', found, rfl⟩ := Option.map_eq_some_iff.1 done
      rw [Resolution.declaredNames_items last] at found
      obtain ⟨trivial, each⟩ := grounded.of_other (by simp)
      have sees : View.Within (View.with (fun _ => none) (declaredNames (definitions ++ assignments)))
          (∅ ∪ shown (definitions ++ assignments ++ [e]) (.root (definitions.map Tree.id) (assignments.map Tree.id) e.id)) := by
        rw [shown, List.dropLast_concat]
        exact View.Within.with (fun found => by cases found) (snd_declaredNames _)
      refine Resolves.grounded (resolves_mapM (fun _ _ _ => resolves_of_resolveItem) found) trivial fun t' part' => ?_
      obtain ⟨t, part, bound⟩ := exists_of_mem_mapM found part'
      have grounded := each t part
      simp only [List.mem_append, List.mem_singleton] at part
      obtain (table | value) | rfl := part
      · exact (defined t table).resolve_grounded grounded sees bound
      · exact (values t value).resolve_grounded grounded sees bound
      · rw [Resolution.resolveItem_expression last] at bound
        exact last.resolve_grounded grounded sees bound
    · cases done

variable {a : Arena}

/-- The tree is that of a program, stands in the arena, and all that it points at is part of it. -/
structure Entire (a : Arena) (t : Tree) : Prop where
  formed : t.Formed
  role : t.kind.role = .program
  stands : t.StandsIn a
  once : t.ids.Nodup
  grounded : t.Grounded ∅ ∅

namespace Entire

theorem cast (entire : t.Entire a) : t.Cast a := entire.formed.cast entire.stands

theorem sighted (entire : t.Entire a) : t.Sighted a := by
  refine ⟨entire.grounded.linked entire.stands entire.once (by simp), entire.formed.laid.layered entire.stands,
    fun top => top.global fun p inside k held _ => entire.cast p inside k held,
    fun inside function => entire.grounded.param_kinds entire.stands inside function, fun inside named => ?_⟩
  exact (entire.grounded.sight entire.stands inside named).resolve_left fun nothing => nothing

theorem resolved {root : NodeId} {w : Workspace Resolution.Notes} (entire : t.Entire a) (program : t.IsProgram)
    (done : Resolution.resolveNames t.id ⟨a, ⟨.initial, ∅⟩⟩ = .ok root w) :
    ∃ t' : Tree, t.resolveProgram = some t' ∧ Resolution.Bound a t t' w ∧ t'.Entire w.arena ∧ t'.id = root := by
  have outcome := Resolution.resolveNames_program program entire.stands entire.once
  cases found : t.resolveProgram with
  | none =>
    rw [found] at outcome
    obtain ⟨e, w', failed⟩ := outcome
    cases done.symm.trans failed
  | some t' =>
    rw [found] at outcome
    obtain ⟨w', ran, bound⟩ := outcome
    cases done.symm.trans ran
    have resolves := resolves_of_resolveProgram found
    exact ⟨t', rfl, bound, ⟨resolves.formed entire.formed, resolves.role.trans entire.role, bound.stands,
      bound.same.2 ▸ entire.once, program.resolve_grounded entire.grounded found⟩, bound.same.1⟩

theorem removeAll_cleared (entire : t.Entire a) :
    ∃ b notes t', removeAll t.id ⟨a, ∅⟩ = .ok t.id ⟨b, notes⟩ ∧ t'.Entire b ∧ t'.id = t.id ∧ t.Cleared a t' := by
  obtain ⟨b, ran, rewritten⟩ := removeAll_run (w := ⟨a, ∅⟩) entire.stands entire.once
  obtain ⟨cleared, grounded⟩ := entire.formed.cleared entire.stands entire.once entire.grounded
  obtain ⟨formed, role⟩ := cleared.formed entire.stands entire.formed
  have same : (t.unalias ∅).1.id = t.id := by
    have role := entire.role
    obtain ⟨id, kind, parts⟩ := t
    rw [unalias_other (by rintro _ _ rfl; cases role) (by rintro _ _ _ rfl; cases role), id_node, id_node]
  exact ⟨b, _, _, same ▸ ran, ⟨formed, role.trans entire.role, rewritten.stands, rewritten.once, grounded⟩, same, cleared⟩

end Entire

end Tree

namespace Compilation

variable {program : Program} {c c₀ : Compilation} {t t₁ t₂ : Tree} {w : Workspace Resolution.Notes}

structure Holds (c : Compilation) (t : Tree) : Prop extends t.Entire c.arena where
  root : c.root = t.id

theorem lower_holds (done : lower program = .ok c) : ∃ t, program.Lowers t ∧ c.Holds t := by
  obtain ⟨t, lowers, stands, once, root⟩ := lower_eq_ok done
  obtain ⟨formed, role⟩ := lowers.isProgram.formed stands
  exact ⟨t, lowers, ⟨formed, role, stands, once, lowers.grounded⟩, root⟩

/-- A program with its names bound, and then without the lets that only rename. -/
structure Named (c₀ c : Compilation) (t t₁ t₂ : Tree) (w : Workspace Resolution.Notes) : Prop where
  names : t.resolveProgram = some t₁
  bound : Resolution.Bound c₀.arena t t₁ w
  entire : t₁.Entire w.arena
  cleared : t₁.Cleared w.arena t₂
  holds : c.Holds t₂
  resolution : c.resolution = w.notes.result

theorem Holds.named (held : c₀.Holds t) (program : t.IsProgram) (done : c₀.resolve = .ok c) :
    ∃ t₁ t₂ w, Named c₀ c t t₁ t₂ w := by
  obtain ⟨⟨_, w⟩, ran, rest⟩ := except_bind_eq_ok.1 done
  obtain ⟨⟨_, w'⟩, ran', last⟩ := except_bind_eq_ok.1 rest
  cases last
  rw [Pass.placed_eq_ok, held.root] at ran
  obtain ⟨t₁, names, bound, entire, rfl⟩ := held.resolved program ran
  obtain ⟨b, notes, t₂, removed, entire', same, cleared⟩ := entire.removeAll_cleared
  rw [Pass.placed_eq_ok, removed] at ran'
  cases ran'
  exact ⟨t₁, t₂, w, names, bound, entire, cleared, ⟨entire', same.symm⟩, rfl⟩

theorem resolved_holds (done : (lower program >>= resolve) = .ok c) : ∃ t, c.Holds t := by
  obtain ⟨c₀, lowered, resolved⟩ := except_bind_eq_ok.1 done
  obtain ⟨t, lowers, held⟩ := lower_holds lowered
  obtain ⟨_, t₂, _, named⟩ := held.named lowers.isProgram resolved
  exact ⟨t₂, named.holds⟩

end Compilation

end DerivedTables
