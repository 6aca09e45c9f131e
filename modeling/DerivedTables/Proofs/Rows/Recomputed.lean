import DerivedTables.Proofs.Rows.Maintained
import DerivedTables.Proofs.Rows.RoundTrip
import Mathlib.Data.Set.Basic

/-!
A number that is maintained while rows come and go is the fold over the rows that are left, as long
as a row that goes commutes with those that came after it.
-/

namespace DerivedTables

namespace FoldStep

theorem apply_undo {step : FoldStep} {other result : ℚ} (nonzero : step.op = .mul ∨ step.op = .div → other ≠ 0) :
    step.apply other (step.undo other result) = result := by
  obtain ⟨id, op, left, operand⟩ := step
  cases op <;> cases left <;> simp_all [undo, apply]
  field_simp

end FoldStep

namespace Fold

theorem folded_unfolded {steps : List FoldStep} {ys : List ℚ} {x : ℚ} (reversible : Reversible steps ys x) (z : ℚ) :
    folded steps ys (unfolded steps ys z) = z := by
  induction steps generalizing ys z with
  | nil => rfl
  | cons step steps ih =>
    cases ys with
    | nil => rfl
    | cons y ys => rw [unfolded, folded, ih reversible.2, FoldStep.apply_undo reversible.1.1]

/-- Rows whose operands are numbers, and accumulators that they fold, one into the other, without
losing anything. -/
structure Domain (s : Setting ℚ) (fold : Fold) (rows : Set (Value ℚ)) (values : Value ℚ → List ℚ)
    (accs : Set ℚ) : Prop where
  operands : ∀ row ∈ rows, List.Forall₂ (fun step y =>
    s.Evaluates (rowOnly fold.row row) step.other (.number y)) fold.steps (values row)
  reversible : ∀ row ∈ rows, ∀ x ∈ accs, Reversible fold.steps (values row) x
  closed : ∀ row ∈ rows, ∀ x ∈ accs, folded fold.steps (values row) x ∈ accs

/-- It does not matter which of two rows comes first. -/
def Commutes (fold : Fold) (values : Value ℚ → List ℚ) (accs : Set ℚ) (r q : Value ℚ) : Prop :=
  ∀ x ∈ accs, folded fold.steps (values r) (folded fold.steps (values q) x) =
    folded fold.steps (values q) (folded fold.steps (values r) x)

def total (fold : Fold) (values : Value ℚ → List ℚ) (rows : List (Value ℚ)) (x : ℚ) : ℚ :=
  rows.foldl (fun acc row => folded fold.steps (values row) acc) x

section
variable {s : Setting ℚ} {fold : Fold} {rows : Set (Value ℚ)} {values : Value ℚ → List ℚ}
  {accs : Set ℚ} (domain : Domain s fold rows values accs)
include domain

theorem Domain.total_mem {list : List (Value ℚ)} (within : ∀ row ∈ list, row ∈ rows) {x : ℚ}
    (isAcc : x ∈ accs) : total fold values list x ∈ accs := by
  induction list generalizing x with
  | nil => exact isAcc
  | cons row list ih =>
    simp only [List.mem_cons, forall_eq_or_imp] at within
    exact ih within.2 (domain.closed row within.1 x isAcc)

theorem Domain.total_last {row : Value ℚ} {after : List (Value ℚ)} (within : ∀ r ∈ after, r ∈ rows)
    (commutes : ∀ r ∈ after, fold.Commutes values accs row r) {x : ℚ} (isAcc : x ∈ accs) : total fold values
    (row :: after) x = folded fold.steps (values row) (total fold values after x) := by
  induction after generalizing x with
  | nil => rfl
  | cons next after ih =>
    simp only [List.mem_cons, forall_eq_or_imp] at within commutes
    have swapped : total fold values (row :: next :: after) x =
        total fold values (row :: after) (folded fold.steps (values next) x) := by
      simp only [total, List.foldl_cons, commutes.1 x isAcc]
    rw [swapped, ih within.2 commutes.2 (domain.closed next within.1 x isAcc)]
    rfl

end

structure Worked (s : Setting ℚ) (fold : Fold) (g : Aggregate) (row : Value ℚ) (ys : List ℚ) :
    Prop where
  forward : ∀ x, s.Calls g.forward [.number x, row] (.number (folded fold.steps ys x))
  inverse : ∀ z, s.Calls g.inverse [.number z, row] (.number (unfolded fold.steps ys z))
  original : ∀ x, s.Calls fold.node [.number x, row] (.number (folded fold.steps ys x))

section
variable {s : Setting ℚ} {fold : Fold} {g : Aggregate} {rows : Set (Value ℚ)}
  {values : Value ℚ → List ℚ} {accs : Set ℚ}
  (worked : ∀ row ∈ rows, Worked s fold g row (values row))
include worked

theorem foldsTo_total {list : List (Value ℚ)} (within : ∀ row ∈ list, row ∈ rows) (x : ℚ) :
    FoldsTo s fold.node (.number x) list (.number (total fold values list x)) := by
  induction list generalizing x with
  | nil => exact .done _
  | cons row list ih =>
    simp only [List.mem_cons, forall_eq_or_imp] at within
    exact .row ((worked row within.1).original x) (ih within.2 _)

/-- Along changes in which only rows go that commute with those after them, the accumulator is the
total of the rows that are there. -/
theorem maintains_total (domain : Domain s fold rows values accs) {start : ℚ}
    (isAcc : start ∈ accs) {changes : List (Change ℚ)} {list last : List (Value ℚ)}
    (present : PresentWhere (fun row after => ∀ r ∈ after, fold.Commutes values accs row r)
      list changes last) (within : ∀ row ∈ list, row ∈ rows) (changed : ∀ change ∈ changes, change.row ∈ rows) :
    g.Maintains s (.number (total fold values list start)) changes (.number (total fold values last start)) := by
  induction present with
  | done => exact .done _
  | @insert list last row changes rest ih =>
    simp only [List.mem_cons, forall_eq_or_imp] at changed
    have within' : ∀ r ∈ list ++ [row], r ∈ rows := by
      simpa [or_imp, forall_and] using ⟨within, changed.1⟩
    refine .insert ((worked row changed.1).forward _) ?_
    have next : total fold values (list ++ [row]) start =
        folded fold.steps (values row) (total fold values list start) := by simp [total]
    exact next ▸ ih within' changed.2
  | @delete before after last row changes commutes rest ih =>
    simp only [List.mem_cons, List.mem_append, forall_eq_or_imp] at changed within
    have isRow := changed.1
    have early : ∀ r ∈ before, r ∈ rows := fun r held => within r (.inl held)
    have late : ∀ r ∈ after, r ∈ rows := fun r held => within r (.inr (.inr held))
    have before_mem := domain.total_mem early isAcc
    have split (later : List (Value ℚ)) : total fold values (before ++ later) start =
        total fold values later (total fold values before start) := List.foldl_append
    have gone : unfolded fold.steps (values row)
        (total fold values (before ++ row :: after) start) =
          total fold values (before ++ after) start := by
      rw [split, split, domain.total_last late commutes before_mem]
      exact unfolded_folded (domain.reversible row isRow _ (domain.total_mem late before_mem))
    refine .delete ((worked row isRow).inverse _) ?_
    rw [gone]
    refine ih (fun r held => ?_) changed.2
    obtain held | held := List.mem_append.1 held
    · exact early r held
    · exact late r held

/-- If all changes are to come out right, any two rows commute: insert both and delete the first. -/
theorem commutes_of_maintained (domain : Domain s fold rows values accs)
    (maintained : ∀ start ∈ accs, ∀ changes present, Present [] changes present →
      (∀ change ∈ changes, change.row ∈ rows) → ∃ v,
        g.Maintains s (.number start) changes v ∧ FoldsTo s fold.node (.number start) present v)
    {r q : Value ℚ} (first : r ∈ rows) (second : q ∈ rows) : fold.Commutes values accs r q := by
  intro x isAcc
  have left : Present [] [.insert r, .insert q, .delete r] [q] :=
    .insert (.insert (@PresentWhere.delete _ _ [] _ _ _ _ trivial (.done _)))
  obtain ⟨v, kept, folded_⟩ := maintained x isAcc _ _ left (by simp [Change.row, first, second])
  cases kept with
  | insert called rest =>
    cases called.unique ((worked r first).forward x)
    cases rest with
    | insert called rest =>
      cases called.unique ((worked q second).forward _)
      cases rest with
      | delete called rest =>
        cases called.unique ((worked r first).inverse _)
        cases rest
        cases folded_ with
        | row called rest =>
          have same := called.unique ((worked q second).original x)
          cases rest
          have back := folded_unfolded (domain.reversible r first x isAcc)
            (folded fold.steps (values q) (folded fold.steps (values r) x))
          rw [← back, Value.number.inj same]

end

/-- Each step adds to the accumulator side or takes away from it. -/
def Additive (steps : List FoldStep) : Prop :=
  ∀ step ∈ steps, step.op = .add ∨ step.op = .sub ∧ step.accumulatorOnLeft = true

/-- Each step multiplies or divides the accumulator side. -/
def Multiplicative (steps : List FoldStep) : Prop :=
  ∀ step ∈ steps, step.op = .mul ∨ step.op = .div ∧ step.accumulatorOnLeft = true

theorem Additive.folded {steps : List FoldStep} (additive : Additive steps) (ys : List ℚ) :
    ∃ c, ∀ x, folded steps ys x = x + c := by
  induction steps generalizing ys with
  | nil => exact ⟨0, fun x => (add_zero x).symm⟩
  | cons step steps ih =>
    cases ys with
    | nil => exact ⟨0, fun x => (add_zero x).symm⟩
    | cons y ys =>
      simp only [Additive, List.mem_cons, forall_eq_or_imp] at additive
      obtain ⟨c, rest⟩ := ih additive.2 ys
      obtain isAdd | ⟨isSub, left⟩ := additive.1
      · refine ⟨c + y, fun x => ?_⟩
        cases side : step.accumulatorOnLeft <;> simp [Fold.folded, FoldStep.apply, isAdd, side, rest] <;> ring
      · refine ⟨c - y, fun x => ?_⟩
        simp only [Fold.folded, FoldStep.apply, isSub, left, rest, if_true]
        ring

theorem Multiplicative.folded {steps : List FoldStep} (multiplicative : Multiplicative steps)
    (ys : List ℚ) : ∃ c, ∀ x, folded steps ys x = x * c := by
  induction steps generalizing ys with
  | nil => exact ⟨1, fun x => (mul_one x).symm⟩
  | cons step steps ih =>
    cases ys with
    | nil => exact ⟨1, fun x => (mul_one x).symm⟩
    | cons y ys =>
      simp only [Multiplicative, List.mem_cons, forall_eq_or_imp] at multiplicative
      obtain ⟨c, rest⟩ := ih multiplicative.2 ys
      obtain isMul | ⟨isDiv, left⟩ := multiplicative.1
      · refine ⟨c * y, fun x => ?_⟩
        cases side : step.accumulatorOnLeft <;> simp [Fold.folded, FoldStep.apply, isMul, side, rest] <;> ring
      · refine ⟨c / y, fun x => ?_⟩
        simp only [Fold.folded, FoldStep.apply, isDiv, left, rest, if_true]
        ring

theorem commutes_of_uniform {fold : Fold} (uniform : Additive fold.steps ∨ Multiplicative fold.steps)
    (values : Value ℚ → List ℚ) (accs : Set ℚ) (r q : Value ℚ) : fold.Commutes values accs r q := by
  intro x _
  obtain additive | multiplicative := uniform
  · obtain ⟨c, first⟩ := additive.folded (values r)
    obtain ⟨d, second⟩ := additive.folded (values q)
    rw [first, second, second, first]
    ring
  · obtain ⟨c, first⟩ := multiplicative.folded (values r)
    obtain ⟨d, second⟩ := multiplicative.folded (values q)
    rw [first, second, second, first]
    ring

end Fold

theorem invertFold_worked {ω : Type} {w w' : Workspace ω} {node source initial reduce : NodeId}
    {fold : Fold} (wellFormed : w.arena.WellFormed) (once : (w.arena.descendants node).Nodup)
    (found : Fold.of w.arena node = .ok fold) (inScope : fold.Scoped w.arena) (apart : fold.Apart w.arena)
    (number : (w.arena.ty? fold.body).map Ty.effective = some .number)
    (done : (invertFold node source initial : Pass RowsError ω NodeId) w = .ok reduce w') :
    ∃ g, Aggregate.of? w'.arena reduce = some g ∧ ∀ (context : List (String × Value ℚ)) (row : Value ℚ) (ys : List ℚ),
        List.Forall₂ (fun step y => Setting.Evaluates ⟨w'.arena, context⟩ (rowOnly fold.row row)
          step.other (.number y)) fold.steps ys → fold.Worked ⟨w'.arena, context⟩ g row ys := by
  obtain ⟨p, q, s, forward, inverse, view, ty, shaped, inverted⟩ := invertFold_shaped wellFormed once found done
  cases inverted.body.symm.trans number
  obtain ⟨start, held, -⟩ := inverted.held
  obtain ⟨arithmetic, ⟨acc₁, row₁, s', body, -, -, wraps, same, standing, f, copied, rfl⟩, reworked, -⟩ := inverted.functions
  obtain rfl := standing.unique shaped.body_stands (same.trans shaped.body.symm)
  have anew : Slot.Anew w.arena w'.arena acc₁ row₁ (s'.renamed w'.arena f) forward :=
    ⟨inverted.grown.part (by simp), wraps⟩
  have later := inverted.grown.larger
  refine ⟨⟨source, start, forward.id, inverse.id, view.id⟩, by simp [Aggregate.of?, held], ?_⟩
  intro context row ys alone
  obtain ⟨ys, rfl, each⟩ := exists_eq_map (fun _ _ _ first second => Value.number.inj (first.unique second)) alone
  have value (x : ℚ) := Fold.value?_numbers x arithmetic ys
  have elsewhere {step : FoldStep} {acc' row' : NodeId} {g : NodeId → NodeId} {o : Tree} (isStep : step ∈ fold.steps)
      (same : o.id = step.other) (stands : o.StandsIn w.arena) (part : o.ids.Sublist s'.ids)
      (there : Stands w.arena o.ids fold.row (fold.Outside w.arena) w'.arena acc' row' g) (x : Value ℚ) :
      Setting.Settled ⟨w'.arena, context⟩ (Setting.bound [acc', row'] [x, row] ∅) (g step.other) (.number (ys step)) :=
    same ▸ (shaped.stands_here part later).settled (shaped.selfContained_outside inScope apart isStep same stands part)
      there o.id_mem_ids (same ▸ each step isStep)
  refine ⟨fun x => shaped.calls_copied anew copied (fun step isStep => ?_) (value x), fun z =>
    reworked.calls (inverted.grown.part (by simp)) (shaped.valued inScope apart later each)
      (Fold.value?_unwound arithmetic ys rfl), fun x => shaped.calls later (fun step isStep => ?_) (value x)⟩ <;>
    obtain ⟨o, same, stands, part, -⟩ := shaped.operand isStep
  · exact elsewhere isStep same stands part (shaped.stands_copied anew copied inScope isStep same stands part fun _ => And.left) _
  · exact elsewhere isStep same stands part (shaped.stands_here part later) _

/-- Deleting rows that commute with those after them leaves the fold over the rest, and for all
deletions to do so all rows have to commute. -/
theorem maintained_eq_folded {ω : Type} {w w' : Workspace ω} {node source initial reduce : NodeId}
    {fold : Fold} (wellFormed : w.arena.WellFormed) (once : (w.arena.descendants node).Nodup)
    (found : Fold.of w.arena node = .ok fold) (inScope : fold.Scoped w.arena) (apart : fold.Apart w.arena)
    (number : (w.arena.ty? fold.body).map Ty.effective = some .number)
    (done : (invertFold node source initial : Pass RowsError ω NodeId) w = .ok reduce w') :
    ∃ g, Aggregate.of? w'.arena reduce = some g ∧
      ∀ (context : List (String × Value ℚ)) (rows : Set (Value ℚ)) (values : Value ℚ → List ℚ)
        (accs : Set ℚ), fold.Domain ⟨w'.arena, context⟩ rows values accs → (∀ start ∈ accs, ∀ changes present,
          PresentWhere (fun row after => ∀ r ∈ after, fold.Commutes values accs row r) [] changes present →
          (∀ change ∈ changes, change.row ∈ rows) → ∃ v, g.Maintains ⟨w'.arena, context⟩ (.number start) changes v ∧
            FoldsTo ⟨w'.arena, context⟩ fold.node (.number start) present v) ∧
        ((∀ start ∈ accs, ∀ changes present, Present [] changes present → (∀ change ∈ changes, change.row ∈ rows) →
          ∃ v, g.Maintains ⟨w'.arena, context⟩ (.number start) changes v ∧
            FoldsTo ⟨w'.arena, context⟩ fold.node (.number start) present v) →
          ∀ r ∈ rows, ∀ q ∈ rows, fold.Commutes values accs r q) ∧
        (Fold.Additive fold.steps ∨ Fold.Multiplicative fold.steps → ∀ r q, fold.Commutes values accs r q) := by
  obtain ⟨g, held, works⟩ := invertFold_worked wellFormed once found inScope apart number done
  refine ⟨g, held, fun context rows values accs domain => ?_⟩
  have worked : ∀ row ∈ rows, fold.Worked ⟨w'.arena, context⟩ g row (values row) :=
    fun row isRow => works context row (values row) (domain.operands row isRow)
  refine ⟨fun start isAcc changes present left changed => ?_, fun maintained r first q second => ?_,
    fun uniform => Fold.commutes_of_uniform uniform values accs⟩
  · have within : ∀ row ∈ present, row ∈ rows := by
      intro row isLeft
      obtain none | ⟨change, listed, rfl⟩ := left.subset row isLeft
      · cases none
      · exact changed change listed
    exact ⟨_, Fold.maintains_total worked domain isAcc left (by simp) changed,
      Fold.foldsTo_total worked within start⟩
  · exact Fold.commutes_of_maintained worked domain maintained first second

/-- The nodes of `(acc, row) => acc + row.amount` and of `(acc, row) => acc * 2 + row.amount`. -/
def sums : Arena := ⟨#[
  ⟨.param "acc" none, none, none⟩,
  ⟨.param "row" none, none, none⟩,
  ⟨.reference 0 "acc", none, none⟩,
  ⟨.reference 1 "row", none, none⟩,
  ⟨.identifier "amount", none, none⟩,
  ⟨.access 3 4, none, none⟩,
  ⟨.binary .add 2 5, some .number, none⟩,
  ⟨.function none [0, 1] 6, none, none⟩,
  ⟨.number 0, none, none⟩,
  ⟨.param "acc" none, none, none⟩,
  ⟨.param "row" none, none, none⟩,
  ⟨.reference 9 "acc", none, none⟩,
  ⟨.number 2, none, none⟩,
  ⟨.binary .mul 11 12, none, none⟩,
  ⟨.reference 10 "row", none, none⟩,
  ⟨.identifier "amount", none, none⟩,
  ⟨.access 14 15, none, none⟩,
  ⟨.binary .add 13 16, some .number, none⟩,
  ⟨.function none [9, 10] 17, none, none⟩]⟩

def sumFold : Fold := ⟨7, 0, 1, 6, [⟨6, .add, true, 5⟩]⟩

def doublingFold : Fold := ⟨18, 9, 10, 17, [⟨17, .add, true, 16⟩, ⟨13, .mul, true, 12⟩]⟩

def sumMade : Workspace Unit := (invertFold 7 8 8 : Pass RowsError Unit NodeId).after ⟨sums, ()⟩

def doublingMade : Workspace Unit :=
  (invertFold 18 8 8 : Pass RowsError Unit NodeId).after ⟨sums, ()⟩

def amounts : Value ℚ → List ℚ
  | .object [(_, .number n)] => [n]
  | _ => []

def amountChanges : List (Change ℚ) := [.insert (amount 1), .insert (amount 2), .delete (amount 1)]

theorem sums_maintained_eq_folded : ∃ g v, Aggregate.of? sumMade.arena 38 = some g ∧ g.Maintains ⟨sumMade.arena, []⟩
    (.number 0) amountChanges v ∧ FoldsTo ⟨sumMade.arena, []⟩ 7 (.number 0) [amount 2] v := by
  have done : (invertFold 7 8 8 : Pass RowsError Unit NodeId) ⟨sums, ()⟩ = .ok 38 sumMade :=
    @Pass.run_eq_ok _ _ _ (invertFold 7 8 8) ⟨sums, ()⟩ 38 (by decide +kernel)
  have first : Setting.Evaluates ⟨sumMade.arena, []⟩ (rowOnly 1 (amount 1)) 5 (.number 1) :=
    .of_scalar? 3 (.inl 1) (by decide +kernel)
  have second : Setting.Evaluates ⟨sumMade.arena, []⟩ (rowOnly 1 (amount 2)) 5 (.number 2) :=
    .of_scalar? 3 (.inl 2) (by decide +kernel)
  have found : Fold.of sums 7 = .ok sumFold := rfl
  have apart : sumFold.Apart sums := by
    have own : ∀ x ∈ sums.descendants 7, ∀ t ∈ sums.target? x, t ∈ sums.descendants 7 := by
      decide +kernel
    exact fun x listed t leads out => absurd (own x listed t leads) out
  generalize sumMade = w at done first second ⊢
  have domain : sumFold.Domain ⟨w.arena, []⟩ {amount 1, amount 2} amounts Set.univ := by
    refine ⟨?_, ?_, fun _ _ _ _ => trivial⟩
    · rintro row (rfl | rfl)
      · exact .cons first .nil
      · exact .cons second .nil
    · rintro row (rfl | rfl) x - <;>
        simp [sumFold, amounts, amount, Fold.Reversible, FoldStep.Invertible]
  obtain ⟨g, held, all⟩ := maintained_eq_folded (by decide +kernel) (by decide +kernel) found
    (by decide +kernel) apart (by decide +kernel) done
  obtain ⟨maintained, -, uniform⟩ := all [] _ amounts Set.univ domain
  have commutes := uniform (.inl (by simp [Fold.Additive, sumFold]))
  have left : PresentWhere (fun row after => ∀ r ∈ after, sumFold.Commutes amounts Set.univ row r)
      [] amountChanges [amount 2] :=
    .insert (.insert (@PresentWhere.delete _ _ [] _ _ _ _ (fun r _ => commutes _ r) (.done _)))
  obtain ⟨v, kept, again⟩ := maintained 0 trivial amountChanges [amount 2] left
    (by simp [amountChanges, Change.row])
  exact ⟨g, v, held, kept, again⟩

/-- A row that goes does not take back what happened to it since. -/
theorem doubling_not_folded : sums.WellFormed ∧ (sums.descendants 18).Nodup ∧ Fold.of sums 18 = .ok doublingFold ∧
    doublingFold.Scoped sums ∧ doublingFold.Apart sums ∧ (sums.ty? 17).map Ty.effective = some .number ∧
    (invertFold 18 8 8 : Pass RowsError Unit NodeId) ⟨sums, ()⟩ = .ok 42 doublingMade ∧ Aggregate.of? doublingMade.arena
    42 = some ⟨8, 8, 28, 38, 41⟩ ∧ Aggregate.Maintains ⟨doublingMade.arena, []⟩ ⟨8, 8, 28, 38, 41⟩ (.number 0)
    amountChanges (.number (3 / 2)) ∧ FoldsTo ⟨doublingMade.arena, []⟩ 18 (.number 0) [amount 2] (.number 2) := by
  have own : ∀ x ∈ sums.descendants 18, ∀ t ∈ sums.target? x, t ∈ sums.descendants 18 := by
    decide +kernel
  have once : Setting.Calls ⟨doublingMade.arena, []⟩ 28 [.number 0, amount 1] (.number 1) :=
    .of_scalar? 5 (.inl 1) (by decide +kernel)
  have twice : Setting.Calls ⟨doublingMade.arena, []⟩ 28 [.number 1, amount 2] (.number 4) :=
    .of_scalar? 5 (.inl 4) (by decide +kernel)
  have back : Setting.Calls ⟨doublingMade.arena, []⟩ 38 [.number 4, amount 1] (.number (3 / 2)) :=
    .of_scalar? 5 (.inl (3 / 2)) (by decide +kernel)
  have again : Setting.Calls ⟨doublingMade.arena, []⟩ 18 [.number 0, amount 2] (.number 2) :=
    .of_scalar? 5 (.inl 2) (by decide +kernel)
  exact ⟨by decide +kernel, by decide +kernel, rfl, by decide +kernel,
    fun x listed t leads out => absurd (own x listed t leads) out, by decide +kernel,
    @Pass.run_eq_ok _ _ _ (invertFold 18 8 8) ⟨sums, ()⟩ 42 (by decide +kernel),
    by decide +kernel, .insert once (.insert twice (.delete back (.done _))), .row again (.done _)⟩

end DerivedTables
