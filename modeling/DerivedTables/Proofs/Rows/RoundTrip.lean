import DerivedTables.Eval.Maintenance
import DerivedTables.Proofs.Eval.Exact
import DerivedTables.Proofs.Rows.FoldValue

/-!
The inverse of a fold of numbers takes back what the forward function did with the same row, for any
mix of the four operators and at any depth.
-/

namespace DerivedTables

namespace FoldStep

/-- What the operator makes of its operand and the accumulator side, exactly. -/
def apply (step : FoldStep) (other inner : ℚ) : ℚ :=
  let lhs := if step.accumulatorOnLeft then inner else other
  let rhs := if step.accumulatorOnLeft then other else inner
  match step.op with
  | .add => lhs + rhs
  | .sub => lhs - rhs
  | .mul => lhs * rhs
  | .div => lhs / rhs
  | _ => inner

/-- What the accumulator side was, given the operand and what the operator made. -/
def undo (step : FoldStep) (other result : ℚ) : ℚ :=
  match step.op, step.accumulatorOnLeft with
  | .add, _ => result - other
  | .sub, true => result + other
  | .sub, false => other - result
  | .mul, _ => result / other
  | .div, true => result * other
  | .div, false => other / result
  | _, _ => result

/-- Neither the operand of a product or quotient is zero, nor an accumulator side that divides. -/
def Invertible (step : FoldStep) (other inner : ℚ) : Prop :=
  (step.op = .mul ∨ step.op = .div → other ≠ 0) ∧
    (step.op = .div → step.accumulatorOnLeft = false → inner ≠ 0)

theorem undo_apply {step : FoldStep} {other inner : ℚ} (invertible : step.Invertible other inner) :
    step.undo other (step.apply other inner) = inner := by
  obtain ⟨id, op, left, operand⟩ := step
  obtain ⟨operand_ne, inner_ne⟩ := invertible
  cases op <;> cases left <;> simp_all [undo, apply]

variable {step : FoldStep} (arithmetic : step.op.isArithmetic)
include arithmetic

theorem combine?_number (other inner : ℚ) :
    step.combine? (.number other) (.number inner) = some (.number (step.apply other inner)) := by
  obtain ⟨id, op, left, operand⟩ := step
  cases op <;> cases left <;> simp_all [Operator.isArithmetic] <;> rfl

theorem value?_undoing {φ : Formula Fold.Leaf} {u : Value ℚ} {values : FoldStep → Value ℚ} {y z : ℚ}
    (operand : values step = .number y) (given : φ.value? (Fold.Leaf.value u values) = some (.number z)) :
    (Fold.undoing φ step).value? (Fold.Leaf.value u values) = some (.number (step.undo y z)) := by
  obtain ⟨id, op, left, other⟩ := step
  cases op <;> cases left <;> simp [Operator.isArithmetic] at arithmetic
  all_goals
    simp only [Fold.undoing, Formula.value?, Fold.Leaf.value, given, operand, Option.bind_some]
    rfl

end FoldStep

namespace Fold

def folded : List FoldStep → List ℚ → ℚ → ℚ
  | step :: steps, y :: ys, acc => step.apply y (folded steps ys acc)
  | _, _, acc => acc

def unfolded : List FoldStep → List ℚ → ℚ → ℚ
  | step :: steps, y :: ys, result => unfolded steps ys (step.undo y result)
  | _, _, result => result

/-- Every operator on the way can be taken back. -/
def Reversible : List FoldStep → List ℚ → ℚ → Prop
  | step :: steps, y :: ys, acc => step.Invertible y (folded steps ys acc) ∧ Reversible steps ys acc
  | _, _, _ => True

theorem folded_rename (f : NodeId → NodeId) (steps : List FoldStep) (ys : List ℚ) (acc : ℚ) :
    folded (steps.map (.rename f)) ys acc = folded steps ys acc := by
  induction steps generalizing ys with
  | nil => rfl
  | cons step steps ih =>
    cases ys with
    | nil => rfl
    | cons y ys =>
      rw [List.map_cons, folded, ih, folded]
      rfl

theorem reversible_rename (f : NodeId → NodeId) (steps : List FoldStep) (ys : List ℚ) (acc : ℚ) :
    Reversible (steps.map (.rename f)) ys acc ↔ Reversible steps ys acc := by
  induction steps generalizing ys with
  | nil => rfl
  | cons step steps ih =>
    cases ys with
    | nil => rfl
    | cons y ys =>
      rw [List.map_cons, Reversible, Reversible, ih, folded_rename]
      rfl

theorem unfolded_folded {steps : List FoldStep} {ys : List ℚ} {acc : ℚ}
    (reversible : Reversible steps ys acc) : unfolded steps ys (folded steps ys acc) = acc := by
  induction steps generalizing ys with
  | nil => rfl
  | cons step steps ih =>
    cases ys with
    | nil => rfl
    | cons y ys => rw [folded, unfolded, FoldStep.undo_apply reversible.1, ih reversible.2]

theorem value?_numbers {steps : List FoldStep} (x : ℚ) (arithmetic : ∀ step ∈ steps, step.op.isArithmetic)
    (ys : FoldStep → ℚ) :
    value? steps (steps.map fun step => .number (ys step)) (.number x) = some (.number (folded steps (steps.map ys) x)) := by
  induction steps with
  | nil => rfl
  | cons step steps ih =>
    rw [List.forall_mem_cons] at arithmetic
    rw [List.map_cons, value?, ih arithmetic.2, Option.bind_some, FoldStep.combine?_number arithmetic.1, List.map_cons, folded]

theorem value?_unwound {steps : List FoldStep} (arithmetic : ∀ step ∈ steps, step.op.isArithmetic) {u : Value ℚ}
    (ys : FoldStep → ℚ) {φ : Formula Leaf} {z : ℚ}
    (given : φ.value? (Leaf.value u fun step => .number (ys step)) = some (.number z)) : (steps.foldl undoing φ).value?
    (Leaf.value u fun step => .number (ys step)) = some (.number (unfolded steps (steps.map ys) z)) := by
  induction steps generalizing φ z with
  | nil => exact given
  | cons step steps ih =>
    rw [List.forall_mem_cons] at arithmetic
    exact ih arithmetic.2 (FoldStep.value?_undoing arithmetic.1 rfl given)

end Fold

theorem exists_eq_map {α β : Type} [Nonempty β] {p : α → β → Prop} (unique : ∀ x y z, p x y → p x z → y = z) {xs : List α}
    {ys : List β} (all : List.Forall₂ p xs ys) : ∃ f : α → β, ys = xs.map f ∧ ∀ x ∈ xs, p x (f x) := by
  refine ⟨fun x => Classical.epsilon (p x), ?_⟩
  induction all with
  | nil => exact ⟨rfl, List.forall_mem_nil _⟩
  | cons head _ ih =>
    have here := Classical.epsilon_spec ⟨_, head⟩
    exact ⟨by rw [List.map_cons, ← ih.1, unique _ _ _ head here], List.forall_mem_cons.2 ⟨here, ih.2⟩⟩

/-- What the inverse gives for a value of the forward function is the accumulator it came from. -/
theorem inverse_forward {ω : Type} {w w' : Workspace ω} {node source initial reduce : NodeId}
    {fold : Fold} (wellFormed : w.arena.WellFormed) (once : (w.arena.descendants node).Nodup)
    (found : Fold.of w.arena node = .ok fold) (inScope : fold.Scoped w.arena)
    (number : (w.arena.ty? fold.body).map Ty.effective = some .number)
    (done : (invertFold node source initial : Pass RowsError ω NodeId) w = .ok reduce w') :
    ∃ g path, Aggregate.of? w'.arena reduce = some g ∧ Fold.of w'.arena g.forward = .ok path ∧
      path.steps.map (fun step => (step.op, step.accumulatorOnLeft)) =
        fold.steps.map (fun step => (step.op, step.accumulatorOnLeft)) ∧
      ∀ (context : List (String × Value ℚ)) (acc : ℚ) (row : Value ℚ) (operands : List ℚ),
        List.Forall₂ (fun step y => Setting.Evaluates ⟨w'.arena, context⟩ (rowOnly path.row row)
          step.other (.number y)) path.steps operands → Fold.Reversible path.steps operands acc →
        ∀ n, Setting.Calls ⟨w'.arena, context⟩ g.forward [.number acc, row] n →
          Setting.Calls ⟨w'.arena, context⟩ g.inverse [n, row] (.number acc) := by
  obtain ⟨p, q, s, forward, inverse, view, ty, shaped, inverted⟩ := invertFold_shaped wellFormed once found done
  cases inverted.body.symm.trans number
  obtain ⟨start, held, -⟩ := inverted.held
  obtain ⟨arithmetic, ⟨acc₁, row₁, s', body, -, -, wraps, same, standing, f, copied, rfl⟩, reworked, -⟩ := inverted.functions
  obtain rfl := standing.unique shaped.body_stands (same.trans shaped.body.symm)
  have anew : Slot.Anew w.arena w'.arena acc₁ row₁ (s'.renamed w'.arena f) forward :=
    ⟨inverted.grown.part (by simp), wraps⟩
  refine ⟨⟨source, start, forward.id, inverse.id, view.id⟩, _, by simp [Aggregate.of?, held],
    shaped.of_copied anew copied, by simp [FoldStep.rename], ?_⟩
  intro context acc row operands alone reversible n called
  obtain ⟨ys, rfl, each⟩ := exists_eq_map (fun _ _ _ first second => Value.number.inj (first.unique second))
    (List.forall₂_map_left_iff.1 alone)
  have place {step : FoldStep} {o : Tree} (isStep : step ∈ fold.steps) (same : o.id = step.other)
      (stands : o.StandsIn w.arena) (part : o.ids.Sublist s'.ids) :=
    shaped.stands_copied anew copied inScope isStep same stands part (show ∀ x < w.arena.size, x < w.arena.size from fun _ => id)
  have forwardCalls : Setting.Calls ⟨w'.arena, context⟩ forward.id [.number acc, row]
      (.number (Fold.folded fold.steps (fold.steps.map ys) acc)) := by
    have operands : ∀ step ∈ fold.steps, Setting.Settled ⟨w'.arena, context⟩
        (Setting.bound [acc₁.id, row₁.id] [.number acc, row] ∅) (f step.other) (.number (ys step)) := by
      intro step isStep
      obtain ⟨o, same, stands, part, -⟩ := shaped.operand isStep
      have here := place isStep same stands part
      exact same ▸ here.settled (shaped.selfContained_below stands) here o.id_mem_ids (same ▸ each step isStep)
    exact shaped.calls_copied anew copied operands (Fold.value?_numbers acc arithmetic ys)
  obtain rfl := called.unique forwardCalls
  have back : Setting.Calls ⟨w'.arena, context⟩ inverse.id
      [.number (Fold.folded fold.steps (fold.steps.map ys) acc), row]
      (.number (Fold.unfolded fold.steps (fold.steps.map ys) (Fold.folded fold.steps (fold.steps.map ys) acc))) := by
    refine reworked.calls (inverted.grown.part (by simp)) ?_ (Fold.value?_unwound arithmetic ys rfl)
    intro acc₂ row₂ body t o' step u anew₂ isStep copy inside
    obtain ⟨o, same, stands, part, -⟩ := shaped.operand isStep
    exact copy.settled anew₂ inside same stands (shaped.selfContained_below stands) (place isStep same stands part)
      (same ▸ each step isStep)
  rwa [Fold.unfolded_folded ((Fold.reversible_rename f fold.steps _ acc).1 reversible)] at back

/-- The nodes of `(acc, row) => row.amount - acc / 2`. -/
def halving : Arena := ⟨#[
  ⟨.param "acc" none, none, none⟩,
  ⟨.param "row" none, none, none⟩,
  ⟨.reference 1 "row", none, none⟩,
  ⟨.identifier "amount", none, none⟩,
  ⟨.access 2 3, none, none⟩,
  ⟨.reference 0 "acc", none, none⟩,
  ⟨.number 2, none, none⟩,
  ⟨.binary .div 5 6, none, none⟩,
  ⟨.binary .sub 4 7, some .number, none⟩,
  ⟨.function none [0, 1] 8, none, none⟩]⟩

def halvingFold : Fold := ⟨9, 0, 1, 8, [⟨8, .sub, false, 4⟩, ⟨7, .div, true, 6⟩]⟩

def halvingMade : Workspace Unit :=
  (invertFold 9 0 0 : Pass RowsError Unit NodeId).after ⟨halving, ()⟩

def amount (n : ℚ) : Value ℚ := .object [("amount", .number n)]

theorem halving_inverse_forward : Setting.Calls ⟨halvingMade.arena, []⟩ 19 [.number 10, amount 3] (.number (-2)) ∧
    Setting.Calls ⟨halvingMade.arena, []⟩ 29 [.number (-2), amount 3] (.number 10) := by
  have done : (invertFold 9 0 0 : Pass RowsError Unit NodeId) ⟨halving, ()⟩ =
      .ok 33 halvingMade :=
    @Pass.run_eq_ok _ _ _ (invertFold 9 0 0) ⟨halving, ()⟩ 33 (by decide +kernel)
  have made : Aggregate.of? halvingMade.arena 33 = some ⟨0, 0, 19, 29, 32⟩ := by decide +kernel
  have steps : (Fold.of halvingMade.arena 19).toOption =
      some ⟨19, 10, 11, 18, [⟨18, .sub, false, 14⟩, ⟨17, .div, true, 16⟩]⟩ := by decide +kernel
  have forward : Setting.Calls ⟨halvingMade.arena, []⟩ 19 [.number 10, amount 3] (.number (-2)) :=
    .of_scalar? 5 (.inl (-2)) (by decide +kernel)
  have first : Setting.Evaluates ⟨halvingMade.arena, []⟩ (rowOnly 11 (amount 3)) 14 (.number 3) :=
    .of_scalar? 5 (.inl 3) (by decide +kernel)
  have second : Setting.Evaluates ⟨halvingMade.arena, []⟩ (rowOnly 11 (amount 3)) 16 (.number 2) :=
    .of_scalar? 5 (.inl 2) (by decide +kernel)
  have found : Fold.of halving 9 = .ok halvingFold := rfl
  generalize halvingMade = b at done made steps forward first second ⊢
  obtain ⟨g, path, aggregate, fold, -, back⟩ := inverse_forward (by decide +kernel)
    (by decide +kernel) found (by decide +kernel) (by decide +kernel) done
  cases aggregate.symm.trans made
  cases (congrArg Except.toOption fold).symm.trans steps
  exact ⟨forward, back [] 10 (amount 3) [3, 2] (.cons first (.cons second .nil))
    (by simp [Fold.Reversible, FoldStep.Invertible]) (.number (-2)) forward⟩

/-- The nodes of `m(k) => if k < 10 then 5 else fold`, where the fold is `(acc, row) =>
acc * (m(3); 5) + k + (m(7); 5)`: the parameter it reads is bound again by its own operands. -/
def rebinding : Arena := ⟨#[
  ⟨.param "k" none, none, none⟩,
  ⟨.reference 0 "k", none, none⟩,
  ⟨.number 10, none, none⟩,
  ⟨.binary .lt 1 2, none, none⟩,
  ⟨.number 5, none, none⟩,
  ⟨.param "acc" none, none, none⟩,
  ⟨.param "row" none, none, none⟩,
  ⟨.reference 5 "acc", none, none⟩,
  ⟨.reference 25 "m", none, none⟩,
  ⟨.number 3, none, none⟩,
  ⟨.invoke 8 [9], none, none⟩,
  ⟨.number 5, none, none⟩,
  ⟨.effect 10 11, none, none⟩,
  ⟨.binary .mul 7 12, none, none⟩,
  ⟨.reference 0 "k", none, none⟩,
  ⟨.binary .add 13 14, none, none⟩,
  ⟨.reference 25 "m", none, none⟩,
  ⟨.number 7, none, none⟩,
  ⟨.invoke 16 [17], none, none⟩,
  ⟨.number 5, none, none⟩,
  ⟨.effect 18 19, none, none⟩,
  ⟨.binary .add 15 20, some .number, none⟩,
  ⟨.function none [5, 6] 21, none, none⟩,
  ⟨.conditional 3 4 22, none, none⟩,
  ⟨.function (some "m") [0] 23, none, none⟩,
  ⟨.derived "m" 24, none, none⟩]⟩

def rebindingFold : Fold :=
  ⟨22, 5, 6, 21, [⟨21, .add, true, 20⟩, ⟨15, .add, true, 14⟩, ⟨13, .mul, true, 12⟩]⟩

def rebindingMade : Workspace Unit :=
  (invertFold 22 4 4 : Pass RowsError Unit NodeId).after ⟨rebinding, ()⟩

/-- An operand that has no value by itself may not be taken back, though all else is in order. -/
theorem rebinding_not_taken_back : rebinding.WellFormed ∧ (rebinding.descendants 22).Nodup ∧ Fold.of rebinding 22 = .ok
    rebindingFold ∧ rebindingFold.Scoped rebinding ∧ (rebinding.ty? 21).map Ty.effective = some .number ∧ (invertFold 22
    4 4 : Pass RowsError Unit NodeId) ⟨rebinding, ()⟩ = .ok 65 rebindingMade ∧ Aggregate.of? rebindingMade.arena 65 =
    some ⟨4, 4, 43, 61, 64⟩ ∧ (Fold.of rebindingMade.arena 43).toOption = some ⟨43, 26, 27, 42, [⟨42, .add, true, 41⟩,
    ⟨36, .add, true, 35⟩, ⟨34, .mul, true, 33⟩]⟩ ∧ Setting.Evaluates ⟨rebindingMade.arena, []⟩ (rowOnly 27 (amount 1))
    33 (.number 5) ∧ Setting.Calls ⟨rebindingMade.arena, []⟩ 43 [.number 0, amount 1] (.number 8) ∧ ¬ Setting.Calls
    ⟨rebindingMade.arena, []⟩ 61 [.number 8, amount 1] (.number 0) := by
  have back : Setting.Calls ⟨rebindingMade.arena, []⟩ 61 [.number 8, amount 1] (.number (-4 / 5)) :=
    .of_scalar? 12 (.inl (-4 / 5)) (by decide +kernel)
  refine ⟨by decide +kernel, by decide +kernel, rfl, by decide +kernel, by decide +kernel,
    @Pass.run_eq_ok _ _ _ (invertFold 22 4 4) ⟨rebinding, ()⟩ 65 (by decide +kernel),
    by decide +kernel, by decide +kernel, .of_scalar? 12 (.inl 5) (by decide +kernel),
    .of_scalar? 12 (.inl 8) (by decide +kernel), fun taken => ?_⟩
  exact absurd (Value.number.inj (taken.unique back)) (by norm_num)

end DerivedTables
