import DerivedTables.Proofs.Eval.Exact
import DerivedTables.Proofs.Rows.FoldValue
import DerivedTables.Proofs.Rows.Maintained

/-!
A boolean fold is decided as soon as one operand is true for `||`, or false for `&&`.
-/

namespace DerivedTables

namespace Operator

def decider (op : Operator) : Bool := op = .or

def overall (op : Operator) (bs : List Bool) : Bool :=
  if op.decider ∈ bs then op.decider else !op.decider

theorem overall_singleton (op : Operator) (b : Bool) : op.overall [b] = b := by
  unfold overall
  cases op.decider <;> cases b <;> rfl

theorem overall_congr {op : Operator} {xs ys : List Bool}
    (same : op.decider ∈ xs ↔ op.decider ∈ ys) : op.overall xs = op.overall ys := by
  simp only [overall, same]

theorem overall_eq_decider {op : Operator} {bs : List Bool} : op.overall bs = op.decider ↔ op.decider ∈ bs := by
  unfold overall
  by_cases decided : op.decider ∈ bs <;> simp [decided]

section
variable {N : Type} [Arithmetic N] {op : Operator} (logical : op.isLogical)
include logical

theorem combine?_booleans (x y : Bool) : op.combine? (.boolean x : Value N) (.boolean y) =
    some (.boolean (if x = op.decider ∨ y = op.decider then op.decider else !op.decider)) := by
  cases op <;> simp [isLogical] at logical <;> cases x <;> cases y <;> rfl

theorem combine?_overall_right (b : Bool) (bs : List Bool) :
    op.combine? (.boolean b : Value N) (.boolean (op.overall bs)) = some (.boolean (op.overall (b :: bs))) := by
  simp only [combine?_booleans logical, overall_eq_decider]
  simp only [overall, List.mem_cons, eq_comm]

theorem combine?_overall_left (b : Bool) (bs : List Bool) :
    op.combine? (.boolean (op.overall bs) : Value N) (.boolean b) = some (.boolean (op.overall (b :: bs))) := by
  simp only [combine?_booleans logical, overall_eq_decider]
  simp only [overall, List.mem_cons, eq_comm, or_comm]

end

end Operator

namespace Fold

variable {N : Type} [Arithmetic N]

theorem combine?_step {chain : Operator} (logical : chain.isLogical) {step : FoldStep}
    (same : step.op = chain) (b : Bool) (bs : List Bool) :
    step.combine? (.boolean b : Value N) (.boolean (chain.overall bs)) = some (.boolean (chain.overall (b :: bs))) := by
  unfold FoldStep.combine?
  split
  · rw [same, Operator.combine?_overall_left logical]
  · rw [same, Operator.combine?_overall_right logical]

theorem value?_overall {chain : Operator} (logical : chain.isLogical) {steps : List FoldStep} (same : ∀ step ∈ steps,
    step.op = chain) (answer : FoldStep → Bool) (us : List Bool) : value? steps (steps.map fun step => .boolean (answer
    step)) (.boolean (chain.overall us) : Value N) = some (.boolean (chain.overall (us ++ steps.map answer))) := by
  induction steps with
  | nil => simp [value?]
  | cons step steps ih =>
    rw [List.forall_mem_cons] at same
    rw [List.map_cons, value?, ih same.2, Option.bind_some, combine?_step logical same.1]
    congr 2
    exact Operator.overall_congr (by simp [or_left_comm])

section
variable {chain : Operator} {fold : Fold} {u : Value N} {answer : FoldStep → Bool}

theorem value?_chained (logical : chain.isLogical) {steps : List FoldStep} (nonempty : steps ≠ [])
    (same : ∀ step ∈ steps, step.op = chain) : (chained steps).value? (Leaf.value u fun step => .boolean (answer step))
    = some (.boolean (chain.overall (steps.map answer))) := by
  induction steps with
  | nil => exact absurd rfl nonempty
  | cons step steps ih =>
    rw [List.forall_mem_cons] at same
    cases steps with
    | nil => rw [chained, Formula.value?, List.map_singleton, Operator.overall_singleton, Leaf.value]
    | cons next steps =>
      have rest := ih (by simp) same.2
      rw [chained, same.1]
      · split
        · rw [Formula.value?, rest]
          exact Operator.combine?_overall_left logical (answer step) _
        · rw [Formula.value?, rest]
          exact Operator.combine?_overall_right logical (answer step) _
      · simp

variable [ExactCounting N]

def weight (chain : Operator) (b : Bool) : ℤ := if b = chain.decider then 1 else 0

theorem literal_worth (chain : Operator) (b : Bool) : (Arithmetic.literal (if b then (Worth.of chain).hit else (Worth.of
    chain).miss) : N) = ExactCounting.count (weight chain b) := by
  unfold Worth.of weight Operator.decider
  by_cases isOr : chain = .or <;> cases b <;>
    simp [isOr, ExactCounting.literal_zero, ExactCounting.literal_one]

theorem value?_counted (isChain : fold.Chain chain) {op : Operator} {n m : ℤ} (result : op.combine? (.number
    (ExactCounting.count n : N)) (.number (ExactCounting.count (weight chain (chain.overall (fold.steps.map answer)))))
    = some (.number (ExactCounting.count m))) : (counted chain op fold.steps).value? (Leaf.value (.number
    (ExactCounting.count n)) fun step => .boolean (answer step)) = some (.number (ExactCounting.count m : N)) := by
  rw [counted, Formula.value?, Formula.value?, Option.bind_some, Worth.selected, Formula.value?,
    value?_chained isChain.logical isChain.nonempty isChain.same, Option.bind_some, ← result, ← literal_worth]
  dsimp only [Leaf.value]
  cases chain.overall (fold.steps.map answer) <;> rfl

theorem value?_anyCounted (chain : Operator) (n : ℤ) : (anyCounted chain).value? (fun _ => .number (ExactCounting.count
    n : N)) = some (.boolean (if n = 0 then !chain.decider else chain.decider)) := by
  by_cases isOr : chain = .or <;> by_cases none : n = 0 <;>
    simp [anyCounted, Formula.value?, isOr, none, Operator.combine?, Operator.decider, Value.same,
      ExactCounting.literal_zero, ExactCounting.same_count]

theorem Selected.evaluates {s : Setting N} {condition id : NodeId} {b : Bool}
    (selected : Selected s.arena (Worth.of chain) condition id) (decided : s.Evaluates ∅ condition (.boolean b)) :
    s.Evaluates ∅ id (.number (ExactCounting.count (weight chain b))) := by
  obtain ⟨hit, miss, held, hitHeld, missHeld⟩ := selected
  obtain ⟨depth, ρ, done⟩ := decided
  have worth {x : Float} {branch : NodeId} (held : s.arena.kind? branch = some (.number x)) :
      s.evalWithin (depth + 1) branch ρ = .ok (.number (Arithmetic.literal x)) ρ := by
    simp only [Setting.evalWithin, Setting.kind_of_kind? held, pure_bind]
    rfl
  refine ⟨depth + 2, ρ, ?_⟩
  rw [← literal_worth, Setting.evalWithin, Setting.kind_of_kind? held, pure_bind, bind_eq_ok]
  refine ⟨_, _, Setting.evalWithin_mono (Nat.le_succ depth) done, bind_eq_ok.2 ⟨b, ρ, rfl, ?_⟩⟩
  cases b with
  | false => exact worth missHeld
  | true => exact worth hitHeld

end

section
variable [ExactCounting N] {a d : Arena} {fold : Fold} {context : List (String × Value N)} {chain : Operator}
  {source initial r : NodeId} {forward inverse view : Tree} {answers : Value N → FoldStep → Bool}

def said (fold : Fold) (answers : Value N → FoldStep → Bool) (row : Value N) : List Bool := fold.steps.map (answers row)

def tally (fold : Fold) (chain : Operator) (answers : Value N → FoldStep → Bool) (rows : List (Value N)) : ℕ :=
  rows.countP fun row => chain.decider ∈ fold.said answers row

omit [Arithmetic N] [ExactCounting N] in
theorem weight_overall (row : Value N) :
    weight chain (chain.overall (fold.steps.map (answers row))) = if chain.decider ∈ fold.said answers row then 1 else 0 :=
  if_congr Operator.overall_eq_decider rfl rfl

theorem Inverted.maintains (inverted : fold.Inverted a d source initial r forward inverse view .boolean) (found :
    fold.chainOf = .ok chain) {changes : List (Change N)} {rows last : List (Value N)} (present : Present rows changes
    last) (valued : ∀ change ∈ changes, fold.Valued a ⟨d, context⟩ change.row fun step => .boolean (answers change.row
    step)) (start : NodeId) (n : ℤ) : Aggregate.Maintains ⟨d, context⟩ ⟨source, start, forward.id, inverse.id, view.id⟩
    (.number (ExactCounting.count (n + fold.tally chain answers rows))) changes (.number (ExactCounting.count (n +
    fold.tally chain answers last))) := by
  obtain _ | ⟨found', first, second, -⟩ := inverted.functions
  cases found.symm.trans found'
  have isChain := chainOf_eq_ok found
  induction present with
  | done => exact .done _
  | @insert rows last row changes rest ih =>
    rw [List.forall_mem_cons] at valued
    refine .insert (first.calls (inverted.grown.part (by simp)) valued.1 (value?_counted isChain ?_)) (ih valued.2)
    simp only [Operator.combine?, ExactCounting.add_count, Change.row, weight_overall]
    congr 3
    by_cases decides : chain.decider ∈ fold.said answers row <;> simp [tally, List.countP_append, decides, add_assoc]
  | @delete before after last row changes _ rest ih =>
    rw [List.forall_mem_cons] at valued
    refine .delete (second.calls (inverted.grown.part (by simp)) valued.1 (value?_counted isChain ?_)) (ih valued.2)
    simp only [Operator.combine?, ExactCounting.sub_count, Change.row, weight_overall]
    congr 3
    by_cases decides : chain.decider ∈ fold.said answers row
    · simp only [tally, List.countP_append, List.countP_cons, decides, decide_true, if_true]
      push_cast
      ring
    · simp [tally, List.countP_append, decides]

theorem Inverted.shows (inverted : fold.Inverted a d source initial r forward inverse view .boolean) : ∃ chain g,
    fold.Chain chain ∧ Aggregate.of? d r = some g ∧ ∀ (context : List (String × Value N)) (answers : Value N → FoldStep
    → Bool) (changes : List (Change N)) (last : List (Value N)) (b : Bool), Present [] changes last → (∀ change ∈
    changes, fold.Valued a ⟨d, context⟩ change.row fun step => .boolean (answers change.row step)) → Setting.Evaluates
    ⟨d, context⟩ ∅ initial (.boolean b) → g.Shows ⟨d, context⟩ changes (.boolean (chain.overall (b :: last.flatMap
    (fold.said answers)))) := by
  obtain ⟨start, held, begun⟩ := inverted.held
  obtain _ | @⟨chain, _, found, selected⟩ := begun
  refine ⟨chain, ⟨source, start, forward.id, inverse.id, view.id⟩, chainOf_eq_ok found, by simp [Aggregate.of?, held],
    fun context answers changes last b present valued given => ?_⟩
  have maintained := inverted.maintains found present valued start (weight chain b)
  simp only [tally, List.countP_nil, Nat.cast_zero, add_zero] at maintained
  refine ⟨_, _, selected.evaluates given, maintained, ?_⟩
  obtain _ | ⟨found', -, -, third⟩ := inverted.functions
  cases found.symm.trans found'
  refine third.calls (inverted.grown.part (by simp)).stands ((value?_anyCounted chain _).trans ?_)
  have counted : weight chain b + (last.countP fun row => chain.decider ∈ fold.said answers row) = 0 ↔
      chain.decider ∉ b :: last.flatMap (fold.said answers) := by
    have none : (last.countP fun row => chain.decider ∈ fold.said answers row) = 0 ↔
        chain.decider ∉ last.flatMap (fold.said answers) := by simp [List.countP_eq_zero]
    rw [List.mem_cons, not_or, ← none, weight]
    by_cases first : b = chain.decider
    · simp only [first, if_true, not_true_eq_false, false_and, iff_false]
      omega
    · simp [first, eq_comm]
  by_cases decided : chain.decider ∈ b :: last.flatMap (fold.said answers)
  · rw [Operator.overall, if_pos decided, if_neg fun zero => counted.1 zero decided]
  · rw [Operator.overall, if_neg decided, if_pos (counted.2 decided)]

end

theorem Shaped.folds {a d : Arena} {fold : Fold} {context : List (String × Value N)} {chain : Operator} {p q s : Tree}
    (shaped : fold.Shaped a p q s) (inScope : fold.Scoped a) (apart : fold.Apart a) (later : a.Extends d) (isChain :
    fold.Chain chain) {answers : Value N → FoldStep → Bool} {rows : List (Value N)} (said : ∀ row ∈ rows, ∀ step ∈
    fold.steps, Setting.Evaluates ⟨d, context⟩ (rowOnly fold.row row) step.other (.boolean (answers row step))) (us :
    List Bool) : FoldsTo ⟨d, context⟩ fold.node (.boolean (chain.overall us)) rows (.boolean (chain.overall (us ++
    rows.flatMap (fold.said answers)))) := by
  induction rows generalizing us with
  | nil =>
    rw [List.flatMap_nil, List.append_nil]
    exact .done _
  | cons row rows ih =>
    rw [List.forall_mem_cons] at said
    rw [List.flatMap_cons, ← List.append_assoc]
    refine .row (shaped.calls later (fun step isStep => ?_) (value?_overall isChain.logical isChain.same (answers row) us))
      (ih said.2 _)
    obtain ⟨o, same, stands, part, -⟩ := shaped.operand isStep
    have here := shaped.stands_here part later
    exact same ▸ here.settled (shaped.selfContained_outside inScope apart isStep same stands part) here o.id_mem_ids
      (same ▸ said.1 step isStep)

end Fold

end DerivedTables
