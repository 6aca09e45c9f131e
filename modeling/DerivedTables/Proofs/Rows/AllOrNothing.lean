import DerivedTables.Proofs.Rows.Spine
import DerivedTables.Proofs.Tree.Duplicated
import DerivedTables.Rows.Inversion
import Mathlib.Logic.Relation

/-!
Inverting a fold is all or nothing.
-/

namespace DerivedTables

namespace Arena

variable {a : Arena}

def Holds (a : Arena) (x y : NodeId) : Prop := ∃ k, a.kind? x = some k ∧ y ∈ k.children

structure Founded (a : Arena) (id : NodeId) : Prop where
  there : ∀ x, Relation.ReflTransGen a.Holds id x → x < a.size
  acyclic : ∀ x, Relation.ReflTransGen a.Holds id x → ¬ Relation.TransGen a.Holds x x

theorem Founded.child {x y : NodeId} (founded : a.Founded x) (holds : a.Holds x y) : a.Founded y :=
  ⟨fun z below => founded.there z (.head holds below), fun z below => founded.acyclic z (.head holds below)⟩

theorem Founded.exists_way {d : Nat} {id : NodeId} (founded : a.Founded id) (deep : ¬ a.TreeWithin d id) :
    ∃ way : List NodeId, way.length = d ∧ way.Nodup ∧ ∀ x ∈ way, Relation.TransGen a.Holds id x := by
  induction d generalizing id with
  | zero => exact ⟨[], rfl, List.nodup_nil, by simp⟩
  | succ d ih =>
    obtain ⟨k, held⟩ := exists_kind?_of_lt (founded.there id .refl)
    obtain ⟨c, child, deep⟩ : ∃ c ∈ k.children, ¬ a.TreeWithin d c := by
      by_contra none
      push Not at none
      exact deep ⟨k, held, none⟩
    have holds : a.Holds id c := ⟨k, held, child⟩
    obtain ⟨way, length, once, below⟩ := ih (founded.child holds) deep
    refine ⟨c :: way, by rw [List.length_cons, length], List.nodup_cons.2 ⟨fun again => ?_, once⟩, ?_⟩
    · exact founded.acyclic c (.single holds) (below c again)
    · exact List.forall_mem_cons.2 ⟨.single holds, fun x listed => .head holds (below x listed)⟩

theorem Founded.treeWithin {id : NodeId} (founded : a.Founded id) : a.TreeWithin (a.size + 1) id := by
  by_contra deep
  obtain ⟨way, length, once, below⟩ := founded.exists_way deep
  have short : way.length ≤ (List.range a.size).length :=
    (once.subperm fun x listed => List.mem_range.2 (founded.there x (below x listed).to_reflTransGen)).length_le
  rw [List.length_range] at short
  omega

end Arena

open Pass

namespace Slot

variable {ω : Type} {w : Workspace ω}

theorem make_adds (name : String) (ty : Ty) : Adds (make name ty : Pass RowsError ω Slot) w :=
  (Adds.push _).bind fun _ _ _ => .pure _

theorem use_adds (slot : Slot) : Adds (use slot : Pass RowsError ω NodeId) w := .push _

theorem function_adds (name : Option String) (slots : List Slot) (body : NodeId) :
    Adds (function name slots body : Pass RowsError ω NodeId) w := .arena (.push _)

end Slot

theorem FoldStep.exists_undone (step : FoldStep) (result other : NodeId) (arithmetic : step.op.isArithmetic) :
    ∃ kind, step.undone? result other = some kind := by
  obtain ⟨node, op, left, operand⟩ := step
  cases op <;> cases left <;> first | exact ⟨_, rfl⟩ | cases arithmetic

namespace Fold

variable {ω : Type} {w : Workspace ω} {a : Arena} {fold : Fold}

/-- What is looked at before anything is made: that the function is a fold, of a type that can be
maintained, and that every operator on the way to its accumulator goes with that type. -/
def check (a : Arena) (node : NodeId) : Except RowsError Fold := do
  let fold ← Fold.of a node
  let ty := (a.ty? fold.body).map Ty.effective
  if ty = some .number then
    (fold.steps.find? fun step => !step.op.isArithmetic).elim (return fold) fun step => throw step.stuck
  else if ty = some .boolean then
    fold.chainOf.map fun _ => fold
  else throw (.unsupportedResult node ty)

structure Copiable (a : Arena) (fold : Fold) : Prop where
  body : a.TreeWithin (a.size + 1) fold.body
  operand : ∀ step ∈ fold.steps, a.TreeWithin (a.size + 1) step.other

theorem Copiable.later {b : Arena} (copiable : fold.Copiable a) (precedes : a.Precedes b) : fold.Copiable b :=
  have deeper : a.size + 1 ≤ b.size + 1 := Nat.succ_le_succ precedes.size
  ⟨(copiable.body.extend precedes.kinds).mono deeper, fun step listed =>
    ((copiable.operand step listed).extend precedes.kinds).mono deeper⟩

theorem Copiable.of_ok {node : NodeId} (tree : a.TreeWithin (a.size + 1) node) (found : Fold.of a node = .ok fold) :
    fold.Copiable a := by
  rw [Fold.of, except_bind_eq_ok] at found
  obtain ⟨k, held, found⟩ := found
  rw [Arena.expect_eq_ok] at held
  split at found
  · rename_i name acc row body
    obtain ⟨steps, searched, found⟩ := except_bind_eq_ok.1 found
    cases found
    have body : a.TreeWithin (a.size + 1) body := tree.child held (by simp [Kind.children])
    refine ⟨body, fun step listed => ?_⟩
    have spine := (stepsTo_eq_ok_iff body).1 searched
    exact (body.subtree (spine.operands body body.self_mem step listed).1).1
  · cases found
  · cases found

theorem rowTy_adds (fold : Fold) : Adds (fold.rowTy : Pass RowsError ω Ty) w := .arena (.pure _)

theorem numericView_adds : Adds (numericView : Pass RowsError ω NodeId) w :=
  (Slot.make_adds _ _).bind fun _ _ _ => (Slot.use_adds _).bind fun _ _ _ => Slot.function_adds _ _ _

theorem select_adds (worth : Worth) (condition : NodeId) : Adds (worth.select condition : Pass RowsError ω NodeId) w :=
  (Adds.push _).bind fun _ _ _ => (Adds.push _).bind fun _ _ _ => .push _

theorem countView_adds (chain : Operator) : Adds (countView chain : Pass RowsError ω NodeId) w :=
  (Slot.make_adds _ _).bind fun _ _ _ => (Slot.use_adds _).bind fun _ _ _ => (Adds.push _).bind fun _ _ _ =>
    (Adds.push _).bind fun _ _ _ => Slot.function_adds _ _ _

theorem reduce_adds (source initial forward inverse view : NodeId) :
    AddsNode (reduce source initial forward inverse view : Pass RowsError ω NodeId) w := by
  refine .bind (.arena (.pure _)) fun a _ _ => ?_
  split
  · exact .push _
  · exact .push _

structure Chain (fold : Fold) (chain : Operator) : Prop where
  logical : chain.isLogical
  nonempty : fold.steps ≠ []
  same : ∀ step ∈ fold.steps, step.op = chain

theorem chainOf_eq_ok {chain : Operator} (found : fold.chainOf = .ok chain) : fold.Chain chain := by
  unfold chainOf at found
  cases steps : fold.steps with
  | nil =>
    rw [steps] at found
    cases found
  | cons first rest =>
    rw [steps] at found
    by_cases logical : first.op.isLogical
    · simp only [logical, Bool.not_true] at found
      obtain ⟨_, checked, found⟩ := except_bind_eq_ok.1 found
      cases found
      refine ⟨logical, by simp [steps], fun step isStep => ?_⟩
      have here := except_forM_eq_ok.1 checked step (steps ▸ isStep)
      by_contra other
      rw [if_neg other] at here
      split at here <;> cases here
    · simp only [logical, Bool.not_false] at found
      cases found

section Making

variable (copiable : fold.Copiable w.arena)
include copiable

theorem copyForRow_adds (row : Slot) {step : FoldStep} (listed : step ∈ fold.steps) :
    Adds (fold.copyForRow row step.other : Pass RowsError ω NodeId) w :=
  deepCopy_adds (copiable.operand step listed) _

theorem numericForward_adds (rowTy : Ty) : Adds (fold.numericForward rowTy : Pass RowsError ω NodeId) w :=
  (Slot.make_adds _ _).bind fun _ _ first => (Slot.make_adds _ _).bind fun _ _ second =>
    (deepCopy_adds (copiable.later (first.trans second)).body _).bind fun _ _ _ => Slot.function_adds _ _ _

theorem undo_adds (row : Slot) (result : NodeId) {step : FoldStep} (listed : step ∈ fold.steps)
    (arithmetic : step.op.isArithmetic) : Adds (fold.undo row result step : Pass RowsError ω NodeId) w := by
  refine (copyForRow_adds copiable row listed).bind fun other w₁ _ => ?_
  obtain ⟨kind, undone⟩ := step.exists_undone result other arithmetic
  rw [undone]
  exact .push _

theorem undoAll_adds (row : Slot) {steps : List FoldStep} (listed : ∀ step ∈ steps, step ∈ fold.steps)
    (arithmetic : ∀ step ∈ steps, step.op.isArithmetic) (result : NodeId) :
    Adds (steps.foldlM (fold.undo row) result : Pass RowsError ω NodeId) w := by
  induction steps generalizing result w with
  | nil => exact .pure _
  | cons step rest ih =>
    rw [List.forall_mem_cons] at listed arithmetic
    rw [List.foldlM_cons]
    exact (undo_adds copiable row result listed.1 arithmetic.1).bind fun next _ later =>
      ih (copiable.later later) listed.2 arithmetic.2 next

theorem numericInverse_adds (rowTy : Ty) (arithmetic : ∀ step ∈ fold.steps, step.op.isArithmetic) :
    Adds (fold.numericInverse rowTy : Pass RowsError ω NodeId) w :=
  (Slot.make_adds _ _).bind fun _ _ first => (Slot.make_adds _ _).bind fun row _ second =>
    (Slot.use_adds _).bind fun use _ third =>
      (undoAll_adds (copiable.later ((first.trans second).trans third)) row (fun _ => id) arithmetic use).bind
        fun _ _ _ => Slot.function_adds _ _ _

theorem matching_adds (row : Slot) {steps : List FoldStep} (some : steps ≠ [])
    (listed : ∀ step ∈ steps, step ∈ fold.steps) : Adds (fold.matching row steps : Pass RowsError ω NodeId) w := by
  induction steps generalizing w with
  | nil => exact absurd rfl some
  | cons step rest ih =>
    rw [List.forall_mem_cons] at listed
    cases rest with
    | nil => exact copyForRow_adds copiable row listed.1
    | cons next rest =>
      rw [matching]
      · refine (copyForRow_adds copiable row listed.1).bind fun _ _ later => ?_
        exact (ih (copiable.later later) (by simp) listed.2).bind fun _ _ _ => .push _
      · simp

theorem counting_adds (worth : Worth) (name accName rowName : String) (op : Operator) (rowTy : Ty)
    (some : fold.steps ≠ []) : Adds (fold.counting worth name accName rowName op rowTy : Pass RowsError ω NodeId) w :=
  (Slot.make_adds _ _).bind fun _ _ first => (Slot.make_adds _ _).bind fun row _ second =>
    (matching_adds (copiable.later (first.trans second)) row some fun _ => id).bind fun _ _ _ =>
      (select_adds worth _).bind fun _ _ _ => (Slot.use_adds _).bind fun _ _ _ =>
        (Adds.push _).bind fun _ _ _ => Slot.function_adds _ _ _

theorem invertNumeric_adds (source initial : NodeId) (arithmetic : ∀ step ∈ fold.steps, step.op.isArithmetic) :
    AddsNode (fold.invertNumeric source initial : Pass RowsError ω NodeId) w := by
  have none : fold.steps.find? (fun step => !step.op.isArithmetic) = none := by simpa using arithmetic
  unfold invertNumeric
  rw [none]
  refine .bind fold.rowTy_adds fun _ _ before => .bind (numericForward_adds (copiable.later before) _) fun _ _ first => ?_
  refine .bind (numericInverse_adds (copiable.later (before.trans first)) _ arithmetic) fun _ _ _ => ?_
  exact .bind numericView_adds fun _ _ _ => reduce_adds _ _ _ _ _

theorem invertBoolean_adds (source initial : NodeId) {chain : Operator} (found : fold.chainOf = .ok chain) :
    AddsNode (fold.invertBoolean source initial : Pass RowsError ω NodeId) w := by
  have some := (chainOf_eq_ok found).nonempty
  unfold invertBoolean
  rw [found]
  refine .bind (.pure chain) fun chain _ start => .bind fold.rowTy_adds fun _ _ before => ?_
  have before := start.trans before
  refine .bind (counting_adds (copiable.later before) _ _ _ _ _ _ some) fun _ _ first => ?_
  refine .bind (counting_adds (copiable.later (before.trans first)) _ _ _ _ _ _ some) fun _ _ _ => ?_
  exact .bind (countView_adds chain) fun _ _ _ => .bind (select_adds _ _) fun _ _ _ => reduce_adds _ _ _ _ _

end Making

end Fold

section

variable {ω : Type} {w : Workspace ω} {node : NodeId}

/-- Nothing is made unless the look at the fold is passed, and then nothing fails any more. -/
theorem invertFold_checked (tree : w.arena.TreeWithin (w.arena.size + 1) node) (source initial : NodeId) :
    (∃ e, Fold.check w.arena node = .error e ∧ (invertFold node source initial : Pass RowsError ω NodeId) w = .error e w) ∨
      ∃ fold, Fold.check w.arena node = .ok fold ∧ AddsNode (invertFold node source initial : Pass RowsError ω NodeId) w := by
  rw [Fold.check]
  cases found : Fold.of w.arena node with
  | error e =>
    refine .inl ⟨e, rfl, ?_⟩
    rw [invertFold, bind_of_ok (arena_run w), found]
    rfl
  | ok fold =>
    have copiable := Fold.Copiable.of_ok tree found
    have start : (Pass.ofExcept (Fold.of w.arena node) : Pass RowsError ω Fold) w = .ok fold w := by
      rw [found]
      rfl
    rw [invertFold, AddsNode, bind_of_ok (arena_run w), bind_of_ok start, ← AddsNode]
    dsimp only [bind, Except.bind]
    generalize (w.arena.ty? fold.body).map Ty.effective = ty
    by_cases number : ty = some .number
    · subst number
      cases stuck : fold.steps.find? fun step => !step.op.isArithmetic with
      | none => exact .inr ⟨fold, rfl, (Fold.invertNumeric_adds copiable source initial (by simpa using stuck)).spanned _⟩
      | some step =>
        refine .inl ⟨step.stuck, rfl, ?_⟩
        simp only [Fold.invertNumeric, stuck]
        rfl
    by_cases boolean : ty = some .boolean
    · subst boolean
      cases chained : fold.chainOf with
      | ok chain => exact .inr ⟨fold, rfl, (Fold.invertBoolean_adds copiable source initial chained).spanned _⟩
      | error e =>
        refine .inl ⟨e, rfl, ?_⟩
        rw [Fold.invertBoolean, chained]
        rfl
    refine .inl ⟨_, by rw [if_neg number, if_neg boolean]; rfl, ?_⟩
    cases ty with
    | none => rfl
    | some ty => cases ty <;> first | rfl | exact absurd rfl number | exact absurd rfl boolean

end

theorem Arena.Founded.of_order {a : Arena} (order : ∀ x < a.size, ∀ k ∈ a.kind? x, ∀ c ∈ k.children, c < x)
    {id : NodeId} (there : id < a.size) : a.Founded id := by
  have down {x y : NodeId} (holds : a.Holds x y) : y < x := by
    obtain ⟨k, held, child⟩ := holds
    exact order x (lt_size_of_kind? held) k held y child
  have downAll {x y : NodeId} (way : Relation.TransGen a.Holds x y) : y < x := by
    induction way with
    | single holds => exact down holds
    | tail _ holds ih => exact (down holds).trans ih
  refine ⟨fun x below => ?_, fun x _ around => (downAll around).ne rfl⟩
  obtain rfl | way := Relation.reflTransGen_iff_eq_or_transGen.1 below
  · exact there
  · exact (downAll way).trans there

/-- The nodes of `(acc, row) => acc + row.size * row.size`, where one node is both factors. -/
def squared : Arena := ⟨#[
  ⟨.param "acc" none, none, none⟩,
  ⟨.param "row" none, none, none⟩,
  ⟨.reference 0 "acc", none, none⟩,
  ⟨.reference 1 "row", none, none⟩,
  ⟨.identifier "size", none, none⟩,
  ⟨.access 3 4, none, none⟩,
  ⟨.binary .mul 5 5, none, none⟩,
  ⟨.binary .add 2 6, some .number, none⟩,
  ⟨.function none [0, 1] 7, none, none⟩]⟩

def squaredMade : Workspace Unit := (invertFold 8 4 4 : Pass RowsError Unit NodeId).after ⟨squared, ()⟩

end DerivedTables
