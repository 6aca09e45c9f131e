import DerivedTables.Proofs.Typing.Errors
import DerivedTables.Proofs.Typing.Passes

/-!
Passes repeat until one of them changes nothing.
-/

namespace DerivedTables

def Arena.untyped (a : Arena) : Arena := ⟨a.nodes.map fun n => { n with ty := none }⟩

@[simp] theorem Arena.untyped_setTy (a : Arena) (x : NodeId) (ty : Ty) : (a.setTy x ty).untyped = a.untyped := by
  simp only [untyped, setTy, modify, mk.injEq]
  apply Array.ext
  · simp
  · intro i here there
    simp only [Array.getElem_map, Array.getElem_modify]
    split <;> rfl

namespace Pass

variable {ε ω α β : Type}

def Leaves (m : Pass ε ω α) (w : Workspace ω) (fails : ε → Prop) (gives : α → Prop)
    (change : Workspace ω → Workspace ω → Prop) : Prop :=
  match m w with
  | .ok x w' => gives x ∧ change w w'
  | .error e w' => fails e ∧ change w w'

variable {m : Pass ε ω α} {f : α → Pass ε ω β} {w : Workspace ω} {fails : ε → Prop} {known : α → Prop}
  {gives : β → Prop} {change : Workspace ω → Workspace ω → Prop}

theorem Leaves.bind (compose : ∀ {u v w}, change u v → change v w → change u w) (first : Leaves m w fails known change)
    (second : ∀ x w', known x → Leaves (f x) w' fails gives change) : Leaves (m >>= f) w fails gives change := by
  unfold Leaves at first ⊢
  cases ran : m w with
  | error e w' =>
    rw [bind_of_error ran]
    rwa [ran] at first
  | ok x w' =>
    rw [ran] at first
    have rest := second x w' first.1
    unfold Leaves at rest
    rw [bind_of_ok ran]
    cases after : f x w' with
    | error e w'' =>
      rw [after] at rest
      exact ⟨rest.1, compose first.2 rest.2⟩
    | ok y w'' =>
      rw [after] at rest
      exact ⟨rest.1, compose first.2 rest.2⟩

theorem node_leaves [OfTreeError ε] (tree : ∀ e, fails (OfTreeError.ofTreeError e)) (stays : ∀ w, change w w) (id : NodeId)
    (w : Workspace ω) : Leaves (node id : Pass ε ω Node) w fails (fun _ => True) change := by
  rw [Leaves, node, bind_of_ok (arena_run w)]
  cases w.arena.node? id with
  | none => exact ⟨tree _, stays w⟩
  | some n => exact ⟨trivial, stays w⟩

end Pass

namespace Visitor

variable {ε ω σ : Type} [OfTreeError ε] {v : Visitor ε ω σ} {fails : ε → Prop} {change : Workspace ω → Workspace ω → Prop}
  (tree : ∀ e, fails (OfTreeError.ofTreeError e)) (stays : ∀ w, change w w)
  (compose : ∀ {u v w}, change u v → change v w → change u w)
  (before : ∀ id lineage state w, Pass.Leaves (v.before id lineage state) w fails (·.replacement = none) change)
  (after : ∀ id lineage state w, Pass.Leaves (v.after id lineage state) w fails (· = none) change)
include tree stays compose before after

/-- Hooks that replace nothing leave every node in its place, and a visit changes what they change.
Nothing is asked of the tree: nodes may be shared or missing. -/
theorem visit_leaves (fuel : Nat) (id : NodeId) (lineage : Lineage) (state : σ) (w : Workspace ω) :
    Pass.Leaves (v.visit fuel id lineage state) w fails (· = id) change := by
  induction fuel generalizing id lineage state w with
  | zero => exact ⟨tree _, stays w⟩
  | succ fuel ih =>
    -- The children give themselves back, so the node over them is not written.
    have below (state : σ) (ids : List NodeId) (w : Workspace ω) :
        Pass.Leaves (ids.mapM fun child => v.visit fuel child (id :: lineage) state) w fails (· = ids) change := by
      induction ids generalizing w with
      | nil => exact ⟨rfl, stays w⟩
      | cons child rest others =>
        rw [List.mapM_cons]
        refine (ih child (id :: lineage) state w).bind compose fun x w₁ same => ?_
        refine (others w₁).bind compose fun xs w₂ sames => ?_
        exact ⟨by rw [same, sames], stays w₂⟩
    have there : Pass.Leaves (discard (Pass.node id) : Pass ε ω Unit) w fails (fun _ => True) change :=
      (Pass.node_leaves tree stays id w).bind compose fun _ w₁ _ => ⟨trivial, stays w₁⟩
    have kind (w : Workspace ω) : Pass.Leaves (Pass.kind id : Pass ε ω Kind) w fails (fun _ => True) change :=
      (Pass.node_leaves tree stays id w).bind compose fun _ w₃ _ => ⟨trivial, stays w₃⟩
    rw [visit]
    refine there.bind compose fun _ w₁ _ => ?_
    refine (before id lineage state w₁).bind compose fun entry w₂ kept => ?_
    rw [kept, Option.getD_none, if_neg (not_not_intro rfl)]
    refine (kind w₂).bind compose fun kind w₃ _ => ?_
    refine (below (entry.state.getD state) kind.children w₃).bind compose fun children w₄ same => ?_
    rw [if_neg (not_not_intro same)]
    refine (after id lineage (entry.state.getD state) w₄).bind compose fun result w₅ nothing => ?_
    rw [nothing]
    exact ⟨rfl, stays w₅⟩

theorem walk_leaves (root : NodeId) (state : σ) (w : Workspace ω) : Pass.Leaves (v.walk root state) w fails (· = root) change :=
  visit_leaves tree stays compose before after (w.arena.size + 1) root [] state w

end Visitor

namespace Typing

open Pass

variable {env : Resolution} {root : NodeId} {w w' : Workspace Bool}

structure Retypes (w w' : Workspace Bool) : Prop where
  untyped : w'.arena.untyped = w.arena.untyped
  unnoted : w'.notes = false → w' = w

theorem Retypes.refl (w : Workspace Bool) : Retypes w w := ⟨rfl, fun _ => rfl⟩

theorem Retypes.trans {w'' : Workspace Bool} (first : Retypes w w') (second : Retypes w' w'') :
    Retypes w w'' where
  untyped := second.untyped.trans first.untyped
  unnoted quiet := by
    obtain rfl := second.unnoted quiet
    exact first.unnoted quiet

theorem retyped_retypes (w : Workspace Bool) (node : NodeId) (ty : Option Ty) : Retypes w (retyped w node ty) := by
  cases ty with
  | none => exact .refl w
  | some ty =>
    rw [retyped]
    split
    · exact .refl w
    · exact ⟨Arena.untyped_setTy .., by simp⟩

def Decisive (e : TypingError) : Prop := ∀ passes, e ≠ .noFixedPoint passes

theorem Decisive.ofTree (e : TreeError) : Decisive (OfTreeError.ofTreeError e) := by
  rintro passes ⟨⟩

theorem retype_leaves (env : Resolution) (node : NodeId) (lineage : Lineage) (state : Unit) (w : Workspace Bool) :
    Leaves (retype env node lineage state) w Decisive (· = none) Retypes := by
  rw [Leaves]
  cases left : retype env node lineage state w with
  | ok result w' =>
    obtain ⟨rfl, ty, -, rfl⟩ := retype_cases left
    exact ⟨rfl, retyped_retypes w node ty⟩
  | error e w' =>
    rw [retype, bind_of_ok (arena_run w)] at left
    cases inferred : infer env w.arena node lineage with
    | error e =>
      rw [inferred] at left
      cases left
      refine ⟨?_, .refl w⟩
      rintro passes rfl
      cases infer_fails.failure _ inferred with
      | own other => exact other.2.2 passes rfl
    | ok ty =>
      rw [inferred] at left
      cases ty with
      | none => cases left
      | some ty =>
        have ran : (Pass.ofExcept (.ok (some ty)) : TypePass (Option Ty)) w = .ok (some ty) w := rfl
        rw [bind_of_ok ran] at left
        by_cases same : w.arena.ty? node = some ty <;> simp [same] at left <;> cases left

theorem pass_leaves (env : Resolution) (root : NodeId) (w : Workspace Bool) :
    Leaves ((Visitor.leaving (retype env)).walk root ()) w Decisive (· = root) Retypes := by
  refine Visitor.walk_leaves Decisive.ofTree .refl .trans (fun _ _ _ w => ?_) (retype_leaves env) root () w
  exact ⟨rfl, .refl w⟩

theorem settle_succ (env : Resolution) (root : NodeId) (remaining passes : Nat) (w : Workspace Bool) :
    settle env root (remaining + 1) passes w =
      match (Visitor.leaving (retype env)).walk root () ⟨w.arena, false⟩ with
      | .ok _ w' => if w'.notes then settle env root remaining (passes + 1) w' else .ok (passes + 1) w'
      | .error e w' => .error e w' := by
  have cleared : (Pass.modifyNotes fun _ => false : TypePass Unit) w = .ok () ⟨w.arena, false⟩ := rfl
  rw [settle, bind_of_ok cleared]
  cases walked : (Visitor.leaving (retype env)).walk root () ⟨w.arena, false⟩ with
  | error e w' => rw [bind_of_error (discard_of_error walked)]
  | ok r w' =>
    have read : (Pass.notes : TypePass Bool) w' = .ok w'.notes w' := rfl
    rw [bind_of_ok (discard_of_ok walked), bind_of_ok read]
    dsimp only
    split <;> rfl

theorem settle_leaves (env : Resolution) (root : NodeId) (remaining passes : Nat) (w : Workspace Bool) : Leaves
    (settle env root remaining passes) w (fun _ => True) (fun _ => True) fun w w' => w'.arena.untyped =
    w.arena.untyped := by
  induction remaining generalizing passes w with
  | zero => exact ⟨trivial, rfl⟩
  | succ remaining ih =>
    have pass := pass_leaves env root ⟨w.arena, false⟩
    rw [Leaves] at pass
    rw [Leaves, settle_succ]
    cases walked : (Visitor.leaving (retype env)).walk root () ⟨w.arena, false⟩ with
    | error e w' =>
      rw [walked] at pass
      exact ⟨trivial, pass.2.untyped⟩
    | ok r w₁ =>
      rw [walked] at pass
      dsimp only
      split
      · rename_i total w' done
        split at done
        · have rest := ih (passes + 1) w₁
          rw [Leaves, done] at rest
          exact ⟨trivial, rest.2.trans pass.2.untyped⟩
        · cases done
          exact ⟨trivial, pass.2.untyped⟩
      · rename_i e w' done
        split at done
        · have rest := ih (passes + 1) w₁
          rw [Leaves, done] at rest
          exact ⟨trivial, rest.2.trans pass.2.untyped⟩
        · cases done

theorem settle_eq_ok {remaining passes total : Nat} (done : settle env root remaining passes w = .ok total w') :
    w'.notes = false ∧ (Visitor.leaving (retype env)).walk root () w' = .ok root w' := by
  induction remaining generalizing passes w with
  | zero => cases done
  | succ remaining ih =>
    have pass := pass_leaves env root ⟨w.arena, false⟩
    rw [settle_succ] at done
    cases walked : (Visitor.leaving (retype env)).walk root () ⟨w.arena, false⟩ with
    | error e w₁ =>
      rw [walked] at done
      cases done
    | ok r w₁ =>
      rw [walked] at done
      rw [Leaves, walked] at pass
      dsimp only at done
      split at done
      · exact ih done
      · rename_i quiet
        cases done
        have quiet := Bool.eq_false_iff.2 quiet
        obtain rfl := pass.1
        exact ⟨quiet, by rw [pass.2.unnoted quiet, walked, pass.2.unnoted quiet]⟩

theorem requireComplete_leaves (node : NodeId) (lineage : Lineage) (state : Unit)
    (w : Workspace Bool) : Leaves (requireComplete node lineage state) w Decisive (· = none) Eq := by
  rw [requireComplete]
  refine (node_leaves Decisive.ofTree (fun _ => rfl) node w).bind .trans fun n w' _ => ?_
  split
  · split
    · exact ⟨rfl, rfl⟩
    · exact ⟨nofun, rfl⟩
  · exact ⟨rfl, rfl⟩
  · exact ⟨nofun, rfl⟩

theorem complete_leaves (root : NodeId) (w : Workspace Bool) :
    Leaves ((Visitor.leaving requireComplete).walk root ()) w Decisive (· = root) Eq := by
  refine Visitor.walk_leaves Decisive.ofTree (fun _ => rfl) .trans (fun _ _ _ w => ?_)
    requireComplete_leaves root () w
  exact ⟨rfl, rfl⟩

/-- A run of the type engine changes nothing but types, and a run that succeeds leaves a fixed point:
another one, however few passes it may make, makes one and changes no node. -/
theorem assignTypes_settled (env : Resolution) (root : NodeId) (limit : Nat) (w : Workspace Bool) :
    match assignTypes env root limit w with
    | .ok _ w' => w'.arena.untyped = w.arena.untyped ∧ ∀ again noted,
        assignTypes env root again ⟨w'.arena, noted⟩ = .ok 1 ⟨w'.arena, false⟩
    | .error _ w' => w'.arena.untyped = w.arena.untyped := by
  have settles := settle_leaves env root (max limit 1) 0 w
  rw [Leaves] at settles
  cases settled : settle env root (max limit 1) 0 w with
  | error e w' =>
    rw [settled] at settles
    rw [assignTypes, bind_of_error settled]
    exact settles.2
  | ok passes w₁ =>
    rw [settled] at settles
    obtain ⟨quiet, still⟩ := settle_eq_ok settled
    have completes := complete_leaves root w₁
    rw [Leaves] at completes
    rw [assignTypes, bind_of_ok settled]
    cases complete : (Visitor.leaving requireComplete).walk root () w₁ with
    | error e w' =>
      rw [complete] at completes
      rw [bind_of_error (discard_of_error complete), ← completes.2]
      exact settles.2
    | ok r w' =>
      rw [complete] at completes
      obtain ⟨rfl, rfl⟩ := completes
      rw [bind_of_ok (discard_of_ok complete)]
      refine ⟨settles.2, fun again noted => ?_⟩
      have same : w₁ = ⟨w₁.arena, false⟩ := by rw [← quiet]
      have once : settle env r (max again 1) 0 ⟨w₁.arena, noted⟩ = .ok 1 w₁ := by
        obtain ⟨more, enough⟩ : ∃ more, max again 1 = more + 1 := ⟨max again 1 - 1, by omega⟩
        rw [enough, settle_succ, ← same, still]
        simp [quiet]
      rw [assignTypes, bind_of_ok once, bind_of_ok (discard_of_ok complete), ← same]
      rfl

end Typing

end DerivedTables
