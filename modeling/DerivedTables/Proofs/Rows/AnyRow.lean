import DerivedTables.Proofs.Rows.Counted
import DerivedTables.Proofs.Rows.Leaving

/-!
Asking whether any row satisfies a predicate becomes a fold of its own, and the fold becomes an
aggregate.
-/

namespace DerivedTables

open Tree

namespace Kind

variable {f g : NodeId → NodeId} {k l m : Kind}

theorem rename_rename (f g : NodeId → NodeId) (k : Kind) : (k.rename f).rename g = k.rename (g ∘ f) := by
  cases k with
  | split read writes => simp [rename_split, Function.comp_def]
  | _ => simp [rename, children, withChildren]

theorem Renames.comp (first : Renames f k l) (second : Renames g l m) : Renames (g ∘ f) k m := by
  cases first with
  | same =>
    generalize isRenamed : k.rename f = l at second
    cases second with
    | same =>
      rw [← isRenamed, rename_rename]
      exact .same k
    | reference target name other =>
      cases k with
      | reference t n =>
        cases isRenamed
        exact .reference t name other
      | _ => cases isRenamed
  | reference target name other =>
    cases second with
    | same => exact .reference target name other
    | reference => exact .reference target name _

end Kind

theorem Rendered.comp {a b d : Arena} {ids : List NodeId} {f g : NodeId → NodeId} (first : Rendered a ids b f)
    (second : Rendered b (ids.map f) d g) : Rendered a ids d (g ∘ f) where
  renames x listed k held := by
    obtain ⟨l, held', renames⟩ := first.renames x listed k held
    obtain ⟨m, held'', renames'⟩ := second.renames (f x) (List.mem_map_of_mem listed) l held'
    exact ⟨m, held'', renames.comp renames'⟩
  injective x here y there same := first.injective x here y there
    (second.injective _ (List.mem_map_of_mem here) _ (List.mem_map_of_mem there) same)

namespace Rows

variable {w w' : Workspace RowsSummary}
variable {node predicate reduce source : NodeId}

theorem callOn_includes {rest : List NodeId} (done : callOn node .includes source predicate rest w = .ok reduce w') :
    ∃ name param body fold initial, ∃ w₁ w₂ : Workspace RowsSummary,
      w.arena.kind? predicate = some (.function name [param] body) ∧
      anyRow predicate param body w = .ok fold w₁ ∧ w₁.arena.Retains w₂.arena ∧
      w₂.arena.kind? initial = some (.boolean false) ∧
      (invertFold fold source initial : Recognizing NodeId) w₂ = .ok reduce w' := by
  obtain ⟨k, _, ran, done⟩ := bind_eq_ok.1 done
  obtain ⟨rfl, held⟩ := Pass.kind_run ran
  cases k with
  | function name params body =>
    match params with
    | [param] =>
      obtain ⟨fold, w₁, made, done⟩ := bind_eq_ok.1 done
      obtain ⟨initial, w₂, ran, done⟩ := bind_eq_ok.1 done
      obtain ⟨later, start⟩ := (Pass.push_ends ⟨.boolean false, some .boolean, none⟩).ok ran
      obtain ⟨_, w₃, ran, done⟩ := bind_eq_ok.1 done
      cases ran
      refine ⟨name, param, body, fold, initial, w₁, _, held, made, ?_, ?_, done⟩
      · exact later
      · exact start _ (.refl _)
    | [] => cases done
    | _ :: _ :: _ => cases done
  | _ => cases done

theorem call_includes (done : call node .includes source [predicate] w = .ok reduce w') :
    ∃ w₁, callOn node .includes source predicate [] w = .ok reduce w₁ ∧ w₁.arena.Retains w'.arena := by
  simp only [call, arity, List.length_singleton, ne_eq, not_true_eq_false, if_false] at done
  obtain ⟨made, w₁, called, done⟩ := bind_eq_ok.1 done
  obtain ⟨span, _, ran, done⟩ := bind_eq_ok.1 done
  cases ran
  split at done
  · cases done
    exact ⟨_, called, Arena.retains_setSpan _ _ _⟩
  · cases done
    exact ⟨_, called, .refl _⟩

theorem leave_includes {callee : NodeId} {lineage : Lineage}
    (held : w.arena.kind? node = some (.invoke callee [predicate]))
    (intent : w.arena.kind? callee = some (.intent .includes source))
    (done : leave node lineage () w = .ok (some reduce) w') :
    ∃ w₁, callOn node .includes source predicate [] w = .ok reduce w₁ ∧ w₁.arena.Retains w'.arena := by
  obtain ⟨_, _, ran, done⟩ := bind_eq_ok.1 done
  obtain ⟨rfl, found⟩ := Pass.kind_run ran
  cases held.symm.trans found
  obtain ⟨_, _, ran, done⟩ := bind_eq_ok.1 done
  obtain ⟨rfl, found⟩ := Pass.kind_run ran
  cases intent.symm.trans found
  obtain ⟨made, w₁, called, done⟩ := bind_eq_ok.1 done
  cases done
  exact call_includes called

end Rows

/-- Only the call names the function, and only the function names what is in it. -/
def Arena.Private (a : Arena) (call function : NodeId) : Prop :=
  ∀ x < a.size, ∀ k ∈ a.kind? x, ∀ y ∈ k.names, y ∈ a.descendants function →
    x = call ∨ x ∈ a.descendants function ∧ y ≠ function

instance (a : Arena) (call function : NodeId) : Decidable (a.Private call function) :=
  inferInstanceAs (Decidable (∀ x < a.size, ∀ k ∈ a.kind? x, ∀ y ∈ k.names,
    y ∈ a.descendants function → x = call ∨ x ∈ a.descendants function ∧ y ≠ function))

section
variable {a b d : Arena} {node callee predicate : NodeId} {param body fold : Tree} {name : Option String}

/-- A call that is handed a function has no value, so no way leads from outside into a predicate. -/
theorem Arena.Private.selfContained (hidden : a.Private node predicate) (wellFormed : a.WellFormed) (call : a.kind? node
    = some (.invoke callee [predicate])) (function : a.kind? predicate = some (.function name [param.id] body.id))
    (stands : body.StandsIn a) (parts : a.descendants predicate = predicate :: param.id :: body.ids) : SelfContained a
    body.ids param.id fun x => x < a.size ∧ x ∉ a.descendants predicate := by
  refine ⟨stands.whole, wellFormed, ?_, ?_, fun _ => And.left⟩
  · intro x listed t n held
    by_cases inside : t ∈ a.descendants predicate
    · obtain rfl | ⟨-, other⟩ := hidden x (lt_size_of_kind? held) _ held t (by simp [Kind.names]) inside
      · cases call.symm.trans held
      · simp only [parts, List.mem_cons, other, false_or] at inside
        exact inside.elim (fun isParam => .inr (.inl isParam)) .inl
    · exact .inr (.inr ⟨wellFormed.target held, inside⟩)
  · rintro x ⟨old, away⟩ k held y link
    refine ⟨wellFormed.toClosed.link held link, fun inside => ?_⟩
    obtain rfl | ⟨within, -⟩ := hidden x old k held y (mem_names_of_mem_links link) inside
    · cases call.symm.trans held
      have idle : a.isFunction predicate := isFunction_iff.2 ⟨_, _, _, function⟩
      simp [links, idle] at link
    · exact away within

theorem Rows.AnyRow.steps_eq {t p q s : Tree} {fold : Fold} (asked : AnyRow a b param body t) (stands : t.StandsIn b)
    (planted : fold.Planted b p q s) (same : fold.node = t.id) : ∃ (row : Slot) (holds : Tree) (id : NodeId), fold.row =
    row.id ∧ fold.steps = [⟨id, .or, true, holds.id⟩] ∧ holds.StandsIn b ∧ body.Copy a b
    (.ofList [(param.id, row.redirect)]) holds ∧ row.id ∈ t.ids ∧ ∀ x ∈ holds.ids, x ∈ t.ids := by
  obtain ⟨acc, row, use, holds, id, -, -, wraps, ⟨used, rfl, -⟩, copied, -⟩ := asked
  have standing := wraps.body_stands stands
  have inside : ∀ x ∈ holds.ids, x ∈ t.ids := fun x below =>
    wraps.body_subset ((ids_sublist (show holds ∈ _ by simp)).subset below)
  have isRow : row.id ∈ t.ids := by simp [wraps.ids_eq]
  obtain ⟨name, held⟩ := wraps.function stands
  obtain ⟨name', upright⟩ := planted.stands
  have root := upright.held
  rw [same] at root
  simp only [held, List.map_cons, List.map_nil, Option.some.injEq, Kind.function.injEq, List.cons.injEq] at root
  obtain ⟨-, ⟨isAcc, isRow', -⟩, isBody⟩ := root
  have spine := planted.spine
  rw [← isAcc, ← isBody] at spine
  refine ⟨row, holds, id, isRow'.symm, ?_, standing.child (by simp), copied, isRow, inside⟩
  have leaf := (standing.child (show _ ∈ _ from .head _)).held
  generalize found : fold.steps = steps at spine
  -- The accumulator is read on the left, so the chain cannot go on to the right.
  cases spine with
  | use chain => cases standing.held.symm.trans chain
  | left chain _ _ rest =>
    cases standing.held.symm.trans chain
    cases rest with
    | use => rfl
    | left other => cases leaf.symm.trans other
    | right other => cases leaf.symm.trans other
  | right chain _ free _ =>
    cases standing.held.symm.trans chain
    refine absurd leaf (free used ?_ _)
    rw [Arena.descendants, Tree.id, Arena.preorder_succ leaf]
    exact .head _

variable {N : Type} [Arithmetic N] {context : List (String × Value N)} {r v : Value N}

theorem Rows.AnyRow.valued {t p q s : Tree} {fold : Fold} (asked : AnyRow a b param body t) (grown : Grown a b t)
    (planted : fold.Planted b p q s) (same : fold.node = t.id) (wellFormed : a.WellFormed)
    (hidden : a.Private node predicate) (call : a.kind? node = some (.invoke callee [predicate]))
    (stands : (Tree.node predicate (.function name [param.id] body.id) [param, body]).StandsIn a)
    (once : (Tree.node predicate (.function name [param.id] body.id) [param, body]).ids.Nodup)
    (called : Setting.Calls ⟨d, context⟩ predicate [r] v) : fold.Valued b ⟨d, context⟩ r fun _ => v := by
  obtain ⟨n, ty, isParam⟩ := wellFormed.params stands.held param.id (by simp)
  have parts : a.descendants predicate = predicate :: param.id :: body.ids := by
    have leaf : param.ids = [param.id] := (stands.child (show param ∈ _ from .head _)).ids_of_leaf isParam rfl
    exact (stands.descendants_eq once).trans (by rw [ids, idsOf, leaf, idsOf_singleton]; rfl)
  have operand := hidden.selfContained wellFormed call stands.held (stands.child (by simp)) parts
  rw [← stands.descendants_eq once, Tree.id, parts] at once
  simp only [List.nodup_cons, List.mem_cons, not_or] at once
  obtain ⟨row, holds, whole, isRow, steps, standing, ⟨f, copied, rfl⟩, rowInside, inside⟩ := asked.steps_eq grown.stands planted same
  intro acc₂ row₂ body₂ t₂ o step u anew isStep copy within
  rw [steps, List.mem_singleton] at isStep
  subst isStep
  obtain ⟨o', same', stands', g, copied', rfl⟩ := copy
  obtain rfl := stands'.unique standing same'
  rw [isRow] at copied'
  rw [ids_renamed, ids_renamed] at within
  rw [ids_renamed] at inside
  have rendered' := copied'.rendered
  rw [ids_renamed] at rendered'
  have first : Stands a body.ids param.id (fun x => x < a.size ∧ x ∉ a.descendants predicate) d predicate param.id id :=
    .here (grown.larger.trans anew.larger) ⟨n, ty, isParam⟩ ⟨once.2.1, once.1.2⟩ fun x listed out => out.2 (parts ▸ listed)
  have second : Stands a body.ids param.id (fun x => x < a.size ∧ x ∉ a.descendants predicate) d acc₂.id row₂.id (g ∘ f) := by
    refine anew.places grown.larger (copied.rendered.comp rendered')
      (fun x listed => within _ (List.mem_map_of_mem (List.mem_map_of_mem listed))) ?_ (fun _ => And.left) ?_
    · rw [Function.comp_apply, copied.redirect _ row.redirect (by rw [Fold.getElem?_single, if_pos rfl])]
      exact copied'.redirect _ row₂.redirect (by rw [Fold.getElem?_single]; exact if_pos rfl)
    · intro x listed target m held notOwn notParam
      have old := wellFormed.target held
      have away {y : NodeId} (new : y ∈ t.ids) : y ≠ target := fun same => absurd old (Nat.not_lt.2 (grown.fresh _ (same ▸ new)))
      rw [Function.comp_apply, copied.other target notOwn (by rw [Fold.getElem?_single, if_neg (Ne.symm notParam)])]
      refine copied'.other target (fun new => away (inside target (by rwa [ids_renamed] at new)) rfl) ?_
      rw [Fold.getElem?_single, if_neg (away rowInside)]
  rw [id_renamed, id_renamed]
  exact first.settled operand second body.id_mem_ids (called.evaluates (first.base.kind_of_some stands.held))

end

end DerivedTables
