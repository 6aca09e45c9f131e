import DerivedTables.Proofs.Tree.Unsplit
import DerivedTables.Rows.Recognition

/-!
Recognizing what is done with rows splits no column, and only `T[]` counts as a dataset.
-/

namespace DerivedTables

open Pass

variable {ω γ : Type} {p : Prop} {view : ω → γ}

namespace Slot

theorem make_calm (name : String) (ty : Ty) : Calm p view (make name ty : Pass RowsError ω Slot) :=
  .bind (.push rfl) fun _ => .pure _

theorem use_calm (slot : Slot) : Calm p view (use slot : Pass RowsError ω NodeId) := .push rfl

theorem function_calm (name : Option String) (slots : List Slot) (body : NodeId) :
    Calm p view (function name slots body : Pass RowsError ω NodeId) := .bind .arena fun _ => .push rfl

end Slot

namespace Fold

variable (fold : Fold) (source initial : NodeId)

theorem reduce_calm (forward inverse shown : NodeId) :
    Calm p view (reduce source initial forward inverse shown : Pass RowsError ω NodeId) := by
  refine .bind .arena fun _ => ?_
  split <;> exact .push rfl

theorem undo_calm (row : Slot) (result : NodeId) (step : FoldStep) :
    Calm p view (fold.undo row result step : Pass RowsError ω NodeId) := by
  refine .bind (.deepCopy _ _) fun copy => ?_
  split
  · rename_i kind undone
    refine .push ?_
    unfold FoldStep.undone? at undone
    split at undone
    · obtain ⟨_, -, rfl⟩ := Option.map_eq_some_iff.1 undone
      rfl
    · split at undone <;> cases undone <;> rfl
  · exact .throw _

theorem numericForward_calm (rowTy : Ty) : Calm p view (fold.numericForward rowTy : Pass RowsError ω NodeId) :=
  .bind (Slot.make_calm _ _) fun _ => .bind (Slot.make_calm _ _) fun _ => .bind (.deepCopy _ _) fun _ =>
    Slot.function_calm _ _ _

theorem numericInverse_calm (rowTy : Ty) : Calm p view (fold.numericInverse rowTy : Pass RowsError ω NodeId) :=
  .bind (Slot.make_calm _ _) fun _ => .bind (Slot.make_calm _ _) fun row => .bind (Slot.use_calm _) fun _ =>
    .bind (.foldlM (undo_calm fold row) _ _) fun _ => Slot.function_calm _ _ _

theorem numericView_calm : Calm p view (numericView : Pass RowsError ω NodeId) :=
  .bind (Slot.make_calm _ _) fun _ => .bind (Slot.use_calm _) fun _ => Slot.function_calm _ _ _

theorem invertNumeric_calm : Calm p view (fold.invertNumeric source initial : Pass RowsError ω NodeId) := by
  unfold invertNumeric
  split
  · exact .throw _
  · exact .bind (.bind .arena fun _ => .pure _) fun _ => .bind (numericForward_calm ..) fun _ =>
      .bind (numericInverse_calm ..) fun _ => .bind numericView_calm fun _ => reduce_calm ..

theorem select_calm (worth : Worth) (condition : NodeId) :
    Calm p view (worth.select condition : Pass RowsError ω NodeId) :=
  .bind (.push rfl) fun _ => .bind (.push rfl) fun _ => .push rfl

theorem matching_calm (row : Slot) (steps : List FoldStep) :
    Calm p view (fold.matching row steps : Pass RowsError ω NodeId) := by
  induction steps with
  | nil => exact .throw _
  | cons step rest ih =>
    cases rest with
    | nil => exact .deepCopy _ _
    | cons next rest =>
      rw [matching]
      · refine .bind (.deepCopy _ _) fun _ => .bind ih fun _ => .push ?_
        dsimp only
        split <;> rfl
      · simp

theorem counting_calm (worth : Worth) (name accName rowName : String) (op : Operator) (rowTy : Ty) :
    Calm p view (fold.counting worth name accName rowName op rowTy : Pass RowsError ω NodeId) :=
  .bind (Slot.make_calm _ _) fun _ => .bind (Slot.make_calm _ _) fun _ => .bind (matching_calm ..) fun _ =>
    .bind (select_calm ..) fun _ => .bind (Slot.use_calm _) fun _ => .bind (.push rfl) fun _ => Slot.function_calm _ _ _

theorem countView_calm (chain : Operator) : Calm p view (countView chain : Pass RowsError ω NodeId) :=
  .bind (Slot.make_calm _ _) fun _ => .bind (Slot.use_calm _) fun _ => .bind (.push rfl) fun _ =>
    .bind (.push rfl) fun _ => Slot.function_calm _ _ _

theorem invertBoolean_calm : Calm p view (fold.invertBoolean source initial : Pass RowsError ω NodeId) :=
  .bind (.ofExcept _) fun _ => .bind (.bind .arena fun _ => .pure _) fun _ => .bind (counting_calm ..) fun _ =>
    .bind (counting_calm ..) fun _ => .bind (countView_calm _) fun _ => .bind (select_calm ..) fun _ => reduce_calm ..

end Fold

theorem invertFold_calm (node source initial : NodeId) :
    Calm p view (invertFold node source initial : Pass RowsError ω NodeId) := by
  refine .bind .arena fun a => .bind (.ofExcept _) fun fold => ?_
  dsimp only
  split
  · exact .bind (Fold.invertNumeric_calm ..) fun _ => .bind (.setSpan _ _) fun _ => .pure _
  · exact .bind (Fold.invertBoolean_calm ..) fun _ => .bind (.setSpan _ _) fun _ => .pure _
  · exact .bind (.throw _) fun _ => .bind (.setSpan _ _) fun _ => .pure _

namespace Rows

theorem allocLike_calm (like : NodeId) {kind : Kind} (other : kind.isSplit = false) :
    Calm p RowsSummary.datasets (allocLike like kind) := .bind .arena fun _ => .push other

theorem spanOf_calm (id : NodeId) : Calm p RowsSummary.datasets (spanOf id) := .bind .arena fun _ => .pure _

theorem dataset_calm (node operand : NodeId) : Calm p (fun _ => ()) (dataset node operand) := by
  refine .bind .arena fun _ => ?_
  split
  · exact .bind .arena fun _ => .bind (spanOf_calm _).blind fun _ => .bind (.push rfl) fun _ =>
      .bind (.modifyNotes fun _ => rfl) fun _ => .pure _
  · exact .throw _

theorem intent_calm (node source property : NodeId) : Calm p RowsSummary.datasets (intent node source property) := by
  refine .bind (.kind _) fun _ => ?_
  split
  case h_3 => exact .throw _
  case h_4 => exact .pure _
  all_goals
    refine .bind .arena fun _ => ?_
    dsimp only
    split
    · exact .bind (spanOf_calm _) fun _ => .bind (.push rfl) fun _ => .pure _
    · exact .throw _

theorem filter_calm (node source predicate : NodeId) : Calm p RowsSummary.datasets (filter node source predicate) := by
  refine .bind (allocLike_calm _ rfl) fun _ => .bind (.kind _) fun _ => ?_
  split <;> exact .bind (.pure _) fun _ => .bind (.modifyNotes fun _ => rfl) fun _ => allocLike_calm _ rfl

theorem anyRow_calm (predicate param body : NodeId) : Calm p RowsSummary.datasets (anyRow predicate param body) :=
  .bind .arena fun _ => .bind (Slot.make_calm _ _) fun _ => .bind (Slot.make_calm _ _) fun _ =>
    .bind (.deepCopy _ _) fun _ => .bind (Slot.use_calm _) fun _ => .bind (.push rfl) fun _ =>
    .bind (Slot.function_calm _ _ _) fun _ => .bind (spanOf_calm _) fun _ => .bind (.setSpan _ _) fun _ => .pure _

theorem aggregate_calm (fold source initial : NodeId) : Calm p RowsSummary.datasets (aggregate fold source initial) :=
  .bind (.modifyNotes fun _ => rfl) fun _ => invertFold_calm ..

theorem callOn_calm (node : NodeId) (member : RowMember) (source function : NodeId) (rest : List NodeId) :
    Calm p RowsSummary.datasets (callOn node member source function rest) := by
  refine .bind (.kind _) fun _ => ?_
  split
  · split
    · exact filter_calm ..
    · exact .bind (anyRow_calm ..) fun _ => .bind (.push rfl) fun _ => aggregate_calm ..
    · exact aggregate_calm ..
    · exact .throw _
    · exact .throw _
  · exact .throw _

theorem call_calm (node : NodeId) (member : RowMember) (source : NodeId) (args : List NodeId) :
    Calm p RowsSummary.datasets (call node member source args) := by
  unfold call
  split
  · exact .throw _
  · split
    · exact .throw _
    · refine .bind (callOn_calm ..) fun _ => .bind (spanOf_calm _) fun _ => ?_
      split
      · exact .bind (spanOf_calm _) fun _ => .bind (.setSpan _ _) fun _ => .pure _
      · exact .pure _

theorem leave_calm (node : NodeId) (lineage : Lineage) (state : Unit) : Calm p (fun _ => ()) (leave node lineage state) := by
  refine .bind (.kind _) fun _ => ?_
  split
  · exact .bind (dataset_calm ..) fun _ => .pure _
  · exact (intent_calm ..).blind
  · refine .bind (.kind _) fun _ => ?_
    split
    · exact .bind (call_calm ..).blind fun _ => .pure _
    · exact .pure _
  · exact .pure _

theorem recognize_calm (root : NodeId) : Calm p (fun _ => ()) (recognize root) := by
  refine .bind ((Visitor.Calm.leaving leave_calm).walk _ _) fun _ => .bind .arena fun _ => ?_
  split
  · exact .throw _
  · exact .pure _

end Rows

end DerivedTables
