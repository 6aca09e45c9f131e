import DerivedTables.Proofs.Tree.Tour
import DerivedTables.Typing.FixedPoint

/-!
What one pass of the rules does.
-/

namespace DerivedTables

theorem Arena.kind?_setTy (a : Arena) (x y : NodeId) (ty : Ty) : (a.setTy x ty).kind? y = a.kind? y := by
  simp only [Arena.setTy, kind?, node?_modify]
  split <;> simp [Option.map_map, Function.comp_def]

namespace Typing

open Pass

def retyped (w : Workspace Bool) (node : NodeId) : Option Ty → Workspace Bool
  | some ty => if w.arena.ty? node = some ty then w else ⟨w.arena.setTy node ty, true⟩
  | none => w

theorem kind?_retyped (w : Workspace Bool) (node x : NodeId) (ty : Option Ty) :
    (retyped w node ty).arena.kind? x = w.arena.kind? x := by
  cases ty with
  | none => rfl
  | some ty =>
    rw [retyped]
    split
    · rfl
    · exact Arena.kind?_setTy ..

variable {env : Resolution} {node : NodeId} {lineage : Lineage} {w w' : Workspace Bool}
  {result : Option NodeId}

theorem retype_cases (left : retype env node lineage () w = .ok result w') :
    result = none ∧ ∃ ty, infer env w.arena node lineage = .ok ty ∧ w' = retyped w node ty := by
  rw [retype, bind_of_ok (arena_run w)] at left
  cases inferred : infer env w.arena node lineage with
  | error e =>
    rw [inferred] at left
    cases left
  | ok ty =>
    rw [inferred] at left
    refine (?_ : result = none ∧ w' = retyped w node ty).imp_right fun same => ⟨ty, rfl, same⟩
    cases ty with
    | none =>
      cases left
      exact ⟨rfl, rfl⟩
    | some ty =>
      have ran : (Pass.ofExcept (.ok (some ty)) : TypePass (Option Ty)) w = .ok (some ty) w := rfl
      rw [bind_of_ok ran] at left
      by_cases same : w.arena.ty? node = some ty
      · rw [retyped, if_pos same]
        simp only [same, ne_eq, not_true_eq_false, if_false] at left
        cases left
        exact ⟨rfl, rfl⟩
      · rw [retyped, if_neg same]
        simp only [same, ne_eq, not_false_eq_true, if_true] at left
        cases left
        exact ⟨rfl, rfl⟩

theorem retype_quiet (env : Resolution) : (Visitor.leaving (retype env)).Quiet where
  before entered := by
    cases entered
    exact ⟨rfl, .refl _⟩
  after {id lineage state w result w'} left := by
    obtain ⟨rfl, ty, -, rfl⟩ := retype_cases left
    exact ⟨rfl, fun x => by rw [kind?_retyped]⟩

theorem requireComplete_cases (lineage : Lineage) (left : requireComplete node lineage () w = .ok result w') :
    result = none ∧ w' = w ∧ ∃ n, w.arena.node? node = some n ∧ ((∃ ty, n.ty = some ty ∧ ty.isComplete = true) ∨
        n.ty = none ∧ ∃ member source, n.kind = .intent member source) := by
  obtain ⟨n, w₁, node_read, going⟩ := bind_eq_ok.1 left
  obtain ⟨rfl, found⟩ := node_run node_read
  obtain ⟨kind, ty, span⟩ := n
  cases ty with
  | none =>
    cases kind with
    | intent member source =>
      cases going
      exact ⟨rfl, rfl, _, found, .inr ⟨rfl, member, source, rfl⟩⟩
    | _ => cases going
  | some ty =>
    dsimp only at going
    split at going
    · rename_i complete
      cases going
      exact ⟨rfl, rfl, _, found, .inl ⟨ty, rfl, complete⟩⟩
    · cases going

theorem requireComplete_quiet : (Visitor.leaving requireComplete).Quiet where
  before entered := by
    cases entered
    exact ⟨rfl, .refl _⟩
  after {id lineage state w result w'} left := by
    obtain ⟨rfl, rfl, -⟩ := requireComplete_cases lineage left
    exact ⟨rfl, .refl _⟩

end Typing

end DerivedTables
