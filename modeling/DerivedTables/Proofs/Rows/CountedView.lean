import DerivedTables.Proofs.Rows.AnyRow

/-!
What the view of a boolean fold shows, after any changes.
-/

namespace DerivedTables

open Tree

variable {N : Type} [Arithmetic N]

variable [ExactCounting N]

/-- After any changes the view shows the fold over the rows that are left, in any order. -/
def Aggregate.ShowsFold (N : Type) [Arithmetic N] (a : Arena) (g : Aggregate) (fold : Fold)
    (initial : NodeId) : Prop :=
  ∀ (context : List (String × Value N)) (b : Bool) (changes : List (Change N))
    (present : List (Value N)),
    Setting.Evaluates ⟨a, context⟩ ∅ initial (.boolean b) → Present [] changes present →
    (∀ change ∈ changes, ∀ step ∈ fold.steps, ∃ c,
      Setting.Evaluates ⟨a, context⟩ (rowOnly fold.row change.row) step.other (.boolean c)) →
    ∃ shown, g.Shows ⟨a, context⟩ changes shown ∧
      ∀ order, order.Perm present → FoldsTo ⟨a, context⟩ fold.node (.boolean b) order shown

/-- After any changes the view shows whether any row that is left satisfies the predicate. -/
def Aggregate.ShowsAny (N : Type) [Arithmetic N] (a : Arena) (g : Aggregate) (predicate : NodeId) :
    Prop :=
  ∀ (context : List (String × Value N)) (changes : List (Change N)) (present : List (Value N)),
    Present [] changes present →
    (∀ change ∈ changes, ∃ c, Setting.Calls ⟨a, context⟩ predicate [change.row] (.boolean c)) →
    ∃ shown, g.Shows ⟨a, context⟩ changes (.boolean shown) ∧
      (shown = true ↔
        ∃ row ∈ present, Setting.Calls ⟨a, context⟩ predicate [row] (.boolean true))

variable (N)

theorem invertFold_showsFold {ω : Type} {w w' : Workspace ω} {node source initial reduce : NodeId}
    {fold : Fold} (wellFormed : w.arena.WellFormed) (once : (w.arena.descendants node).Nodup)
    (found : Fold.of w.arena node = .ok fold) (inScope : fold.Scoped w.arena) (apart : fold.Apart w.arena)
    (boolean : (w.arena.ty? fold.body).map Ty.effective = some .boolean)
    (done : (invertFold node source initial : Pass RowsError ω NodeId) w = .ok reduce w') :
    ∃ g, Aggregate.of? w'.arena reduce = some g ∧ g.ShowsFold N w'.arena fold initial := by
  obtain ⟨p, q, s, forward, inverse, view, ty, shaped, inverted⟩ := invertFold_shaped wellFormed once found done
  cases inverted.body.symm.trans boolean
  have later := inverted.grown.larger
  obtain ⟨chain, g, isChain, held, shows_⟩ := inverted.shows (N := N)
  refine ⟨g, held, fun context b changes present start left each => ?_⟩
  let answers (row : Value N) (step : FoldStep) : Bool := Classical.epsilon fun c =>
    Setting.Evaluates ⟨w'.arena, context⟩ (rowOnly fold.row row) step.other (.boolean c)
  have said : ∀ change ∈ changes, ∀ step ∈ fold.steps, Setting.Evaluates ⟨w'.arena, context⟩
      (rowOnly fold.row change.row) step.other (.boolean (answers change.row step)) :=
    fun change changed step isStep => Classical.epsilon_spec (each change changed step isStep)
  refine ⟨_, shows_ context answers changes present b left
    (fun change changed => shaped.valued inScope apart later (said change changed)) start, fun order perm => ?_⟩
  have ordered : ∀ row ∈ order, ∀ step ∈ fold.steps, Setting.Evaluates ⟨w'.arena, context⟩ (rowOnly fold.row row)
      step.other (.boolean (answers row step)) := by
    intro row listed
    obtain none | ⟨change, held, rfl⟩ := left.subset row (perm.mem_iff.1 listed)
    · cases none
    · exact said change held
  have folds := shaped.folds inScope apart later isChain ordered [b]
  rw [Operator.overall_singleton] at folds
  have same : chain.overall (b :: present.flatMap (fold.said answers)) =
      chain.overall ([b] ++ order.flatMap (fold.said answers)) :=
    Operator.overall_congr (by simp [perm.mem_iff])
  rwa [same]

theorem leave_showsAny {w w' : Workspace RowsSummary} {node callee source predicate reduce : NodeId} {lineage : Lineage}
    (wellFormed : w.arena.WellFormed) (once : (w.arena.descendants predicate).Nodup)
    (call : w.arena.kind? node = some (.invoke callee [predicate]))
    (intent : w.arena.kind? callee = some (.intent .includes source)) (hidden : w.arena.Private node predicate)
    (done : Rows.leave node lineage () w = .ok (some reduce) w') :
    ∃ g, Aggregate.of? w'.arena reduce = some g ∧ g.ShowsAny N w'.arena predicate := by
  obtain ⟨w₃, done, spanned⟩ := Rows.leave_includes call intent done
  obtain ⟨name, _, _, _, initial, w₁, w₂, function, anyRow, later, start, done⟩ := Rows.callOn_includes done
  obtain ⟨t, rfl, stands, once, -⟩ := Arena.TreeShaped.exists_tree
    ⟨fun _ => wellFormed.toClosed.lt_size_of_mem_preorder (Arena.lt_size_of_kind? function), once⟩
  obtain ⟨predicate, kind, parts⟩ := t
  cases function.symm.trans stands.held
  obtain ⟨_, body, rfl, front, rfl⟩ := stands.function_parts
  obtain ⟨param, rfl, rfl⟩ := List.map_eq_singleton_iff.1 front
  have nothing : Rebuilt w.arena w.arena [] [] := .keep (by simp) List.nodup_nil
  have there : param.id < w.arena.size := stands.lt_size _ (by simp [ids, idsOf])
  have makes : Pass.Ends Dangling _ _ _ := Rows.anyRow_makes predicate (.refl _) nothing there (stands.child (by simp))
    (List.nodup_cons.1 once).2
  obtain ⟨-, t, rfl, built, asked⟩ := makes.ok anyRow
  have grown : Grown w.arena w₂.arena t := (built.extend later.kinds).grown.part (by simp)
  obtain ⟨after, inverted⟩ := (invertFold_inverted grown.stands grown.once source initial).ok done
  obtain ⟨fold, p, q, s, forward, inverse, view, ty, -, same, planted, -, inverted⟩ := inverted _ spanned
  have asked := asked w₂.arena later
  obtain ⟨-, holds, whole, -, steps, -⟩ := asked.steps_eq grown.stands planted same
  have isStep : ⟨whole, .or, true, holds.id⟩ ∈ fold.steps := by simp [steps]
  obtain rfl : ty = .boolean := by
    cases inverted.functions with
    | numeric arithmetic => cases arithmetic _ isStep
    | boolean => rfl
  obtain ⟨chain, g, isChain, held, shows_⟩ := inverted.shows (N := N)
  obtain rfl : Operator.or = chain := isChain.same _ isStep
  refine ⟨g, held, fun context changes present left each => ?_⟩
  let answer (row : Value N) : Bool := Classical.epsilon fun c =>
    Setting.Calls ⟨w'.arena, context⟩ predicate [row] (.boolean c)
  have said : ∀ change ∈ changes, Setting.Calls ⟨w'.arena, context⟩ predicate [change.row] (.boolean (answer change.row)) :=
    fun change changed => Classical.epsilon_spec (each change changed)
  have none : Setting.Evaluates ⟨w'.arena, context⟩ ∅ initial (.boolean false) :=
    (Setting.Settled.boolean ((after.trans spanned).kinds.kind_of_some start)).evaluates (by simp)
  refine ⟨_, shows_ context (fun row _ => answer row) changes present false left
    (fun change changed => asked.valued grown planted same wellFormed hidden call stands once (said change changed))
    none, ?_⟩
  have decided : ∀ row ∈ present, true ∈ fold.said (fun row _ => answer row) row ↔
      Setting.Calls ⟨w'.arena, context⟩ predicate [row] (.boolean true) := by
    intro row listed
    obtain none | ⟨change, held, rfl⟩ := left.subset row listed
    · cases none
    rw [Fold.said, steps, List.map_singleton, List.mem_singleton]
    constructor
    · intro yes
      exact yes ▸ said change held
    · intro satisfied
      exact Value.boolean.inj (satisfied.unique (said change held))
  calc Operator.or.overall (false :: present.flatMap (fold.said fun row _ => answer row)) = true
      ↔ true ∈ false :: present.flatMap (fold.said fun row _ => answer row) := @Operator.overall_eq_decider .or _
    _ ↔ ∃ row ∈ present, true ∈ fold.said (fun row _ => answer row) row := by simp
    _ ↔ _ := exists_congr fun row => and_congr_right (decided row)

/-- The nodes of `(acc, row) => row.open || (acc || row.late)`, and of a call that asks of any row
whether it is open. -/
def flags : Arena := ⟨#[
  ⟨.param "acc" none, none, none⟩,
  ⟨.param "row" none, none, none⟩,
  ⟨.reference 1 "row", none, none⟩,
  ⟨.identifier "open", none, none⟩,
  ⟨.access 2 3, none, none⟩,
  ⟨.reference 0 "acc", none, none⟩,
  ⟨.reference 1 "row", none, none⟩,
  ⟨.identifier "late", none, none⟩,
  ⟨.access 6 7, none, none⟩,
  ⟨.binary .or 5 8, none, none⟩,
  ⟨.binary .or 4 9, some .boolean, none⟩,
  ⟨.function none [0, 1] 10, none, none⟩,
  ⟨.boolean false, none, none⟩,
  ⟨.intent .includes 12, none, none⟩,
  ⟨.param "row" none, none, none⟩,
  ⟨.reference 14 "row", none, none⟩,
  ⟨.identifier "open", none, none⟩,
  ⟨.access 15 16, none, none⟩,
  ⟨.function none [14] 17, none, none⟩,
  ⟨.invoke 13 [18], none, none⟩]⟩

def flagsFold : Fold := ⟨11, 0, 1, 10, [⟨10, .or, false, 4⟩, ⟨9, .or, true, 8⟩]⟩

def flagsFolded : Workspace Unit :=
  (invertFold 11 12 12 : Pass RowsError Unit NodeId).after ⟨flags, ()⟩

def flagsAsked : Workspace RowsSummary := (Rows.leave 19 [] ()).after ⟨flags, .empty⟩

def flagged (isOpen isLate : Bool) : Value ℚ :=
  .object [("late", .boolean isLate), ("open", .boolean isOpen)]

def flagChanges : List (Change ℚ) :=
  [.insert (flagged true false), .insert (flagged false true), .delete (flagged true false)]

theorem present_flagChanges : Present [] flagChanges [flagged false true] :=
  .insert (.insert (@PresentWhere.delete _ _ [] _ _ _ _ trivial (.done _)))

/-- The nodes of `(acc, row) => (acc || (x = row.open)) || x`: the second operand refers into the
first one. -/
def strayed : Arena := ⟨#[
  ⟨.param "acc" none, none, none⟩,
  ⟨.param "row" none, none, none⟩,
  ⟨.reference 1 "row", none, none⟩,
  ⟨.identifier "open", none, none⟩,
  ⟨.access 2 3, none, none⟩,
  ⟨.assignment "x" 4, none, none⟩,
  ⟨.reference 0 "acc", none, none⟩,
  ⟨.binary .or 6 5, none, none⟩,
  ⟨.reference 5 "x", none, none⟩,
  ⟨.binary .or 7 8, some .boolean, none⟩,
  ⟨.function none [0, 1] 9, none, none⟩,
  ⟨.boolean false, none, none⟩]⟩

def strayedFold : Fold := ⟨10, 0, 1, 9, [⟨9, .or, true, 8⟩, ⟨7, .or, true, 5⟩]⟩

def strayedMade : Workspace Unit :=
  (invertFold 10 11 11 : Pass RowsError Unit NodeId).after ⟨strayed, ()⟩

end DerivedTables
