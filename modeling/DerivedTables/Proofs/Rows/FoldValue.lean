import DerivedTables.Proofs.Rows.Operands

/-!
The value of a fold.
-/

namespace DerivedTables

open Tree

namespace FoldStep

def combine? {N : Type} [Arithmetic N] (step : FoldStep) (other inner : Value N) :
    Option (Value N) :=
  if step.accumulatorOnLeft then step.op.combine? inner other else step.op.combine? other inner

def rename (f : NodeId → NodeId) (step : FoldStep) : FoldStep :=
  { step with node := f step.node, other := f step.other }

end FoldStep

namespace Fold

variable {N : Type} [Arithmetic N]

def value? : List FoldStep → List (Value N) → Value N → Option (Value N)
  | [], [], acc => some acc
  | step :: steps, other :: others, acc => (value? steps others acc).bind (step.combine? other)
  | _, _, _ => none

theorem value?_rename (f : NodeId → NodeId) (steps : List FoldStep) (others : List (Value N))
    (acc : Value N) : value? (steps.map (.rename f)) others acc = value? steps others acc := by
  induction steps generalizing others with
  | nil => rfl
  | cons step steps ih =>
    cases others with
    | nil => rfl
    | cons other others =>
      simp only [List.map_cons, value?, ih]
      rfl

theorem Spine.settled {s : Setting N} {kept : Bindings N} {acc id : NodeId} {steps : List FoldStep}
    {others : List (Value N)} {u v : Value N} (spine : Spine s.arena acc id steps) (given : kept[acc]? = some u)
    (operands : List.Forall₂ (fun step other => s.Settled kept step.other other) steps others)
    (value : value? steps others u = some v) : s.Settled kept id v := by
  induction spine generalizing others v with
  | use held =>
    cases operands
    cases value
    exact .reference held given
  | left held known free rest ih =>
    obtain _ | ⟨operand, operands⟩ := operands
    obtain ⟨inner, value, combined⟩ := Option.bind_eq_some_iff.1 value
    exact .binary held (ih operands value) operand combined
  | right held known free rest ih =>
    obtain _ | ⟨operand, operands⟩ := operands
    obtain ⟨inner, value, combined⟩ := Option.bind_eq_some_iff.1 value
    exact .binary held operand (ih operands value) combined

end Fold

section
variable {a d : Arena} {ids : List NodeId} {f : NodeId → NodeId}

theorem Fold.Spine.rename {acc id : NodeId} {steps : List FoldStep} (spine : Spine a acc id steps)
    (rendered : Rendered a ids d f) (whole : Whole a ids) (closed : a.Closed)
    (grown : a.size ≤ d.size) (tree : a.TreeWithin (a.size + 1) id) (listed : id ∈ ids)
    (only : ∀ t < a.size, f t = f acc → t = acc) : Spine d (f acc) (f id) (steps.map (.rename f)) := by
  have free {other : NodeId} (tree : a.TreeWithin (a.size + 1) other) (listed : other ∈ ids)
      (free : Free a acc other) : Free d (f acc) (f other) := by
    intro x below name held
    rw [Arena.descendants, (rendered.treeWithin whole listed tree).preorder_eq
      (Nat.succ_le_succ grown), rendered.preorder whole listed] at below
    obtain ⟨z, listed', rfl⟩ := List.mem_map.1 below
    obtain ⟨k, kind⟩ := whole.there z (whole.preorder_subset listed listed')
    obtain ⟨l, copy, renames⟩ := rendered.renames z (whole.preorder_subset listed listed') k kind
    cases held.symm.trans copy
    obtain ⟨t, n, rfl, same⟩ := renames.of_reference
    obtain rfl := only t (closed.target kind) same.symm
    exact free z listed' n kind
  induction spine with
  | use held =>
    obtain ⟨l, copy, renames⟩ := rendered.renames _ listed _ held
    cases renames with
    | same => exact .use copy
    | reference => exact .use copy
  | @left id inner other op steps held known free' rest ih =>
    have inside {c : NodeId} (child : c ∈ [inner, other]) : c ∈ ids := whole.child _ listed _ held c child
    have trees {c : NodeId} (child : c ∈ [inner, other]) : a.TreeWithin (a.size + 1) c :=
      tree.child held child
    obtain ⟨l, copy, renames⟩ := rendered.renames _ listed _ held
    cases renames
    exact .left copy known (free (trees (by simp)) (inside (by simp)) free')
      (ih (trees (by simp)) (inside (by simp)))
  | @right id inner other op steps held known free' rest ih =>
    have inside {c : NodeId} (child : c ∈ [other, inner]) : c ∈ ids := whole.child _ listed _ held c child
    have trees {c : NodeId} (child : c ∈ [other, inner]) : a.TreeWithin (a.size + 1) c :=
      tree.child held child
    obtain ⟨l, copy, renames⟩ := rendered.renames _ listed _ held
    cases renames
    exact .right copy known (free (trees (by simp)) (inside (by simp)) free')
      (ih (trees (by simp)) (inside (by simp)))

end

namespace Fold

variable {a d : Arena} {fold : Fold} {p q s t : Tree} (shaped : fold.Shaped a p q s)
include shaped

theorem Shaped.spine_rename {f : NodeId → NodeId} (rendered : Rendered a s.ids d f) (grown : a.size ≤ d.size)
    (only : ∀ x < a.size, f x = f fold.accumulator → x = fold.accumulator) :
    Spine d (f fold.accumulator) (f fold.body) (fold.steps.map (.rename f)) := by
  have stands := shaped.body_stands
  rw [← shaped.body]
  exact (shaped.body ▸ shaped.spine).rename rendered stands.whole shaped.wellFormed.toClosed grown
    (stands.treeWithin ((stands.height_le_size shaped.body_once).trans (Nat.le_succ _))) s.id_mem_ids only

variable {N : Type} [Arithmetic N] {context : List (String × Value N)} {u r v : Value N} {values : FoldStep → Value N}

theorem Shaped.calls (later : a.Extends d) (operands : ∀ step ∈ fold.steps, Setting.Settled ⟨d, context⟩ (Setting.bound
    [fold.accumulator, fold.row] [u, r] ∅) step.other (values step)) (value : value? fold.steps (fold.steps.map values)
    u = some v) : Setting.Calls ⟨d, context⟩ fold.node [u, r] v := by
  obtain ⟨name, standing⟩ := shaped.stands
  have rendered : Rendered a s.ids d id :=
    ⟨fun _ _ k held => ⟨k, later.kind_of_some held, by simpa using Kind.Renames.same (f := id) k⟩, fun _ _ _ _ => id⟩
  have spine := shaped.spine_rename rendered later.size fun _ _ => id
  rw [show fold.steps.map (.rename id) = fold.steps from List.map_id _] at spine
  refine .of_settled (later.kind_of_some standing.held) rfl (fun x isParam k held => ?_) (Spine.settled spine ?_
    (List.forall₂_map_right_iff.2 (List.forall₂_same.2 operands)) value)
  · obtain ⟨n, ty, param⟩ := shaped.param x isParam
    cases (later.kind_of_some param).symm.trans held
    rfl
  · rw [Setting.getElem?_bound_two]
    exact (if_neg (Ne.symm shaped.accumulator_ne_row)).trans (if_pos rfl)

variable {acc row : Slot} {f : NodeId → NodeId} (anew : Slot.Anew a d acc row (s.renamed d f) t)
  (copied : CopiedBy a d ((∅ : Redirects).insert fold.accumulator acc.redirect |>.insert fold.row row.redirect) s f)
include anew copied

theorem Shaped.spine_copied : Spine d acc.id (f fold.body) (fold.steps.map (.rename f)) := by
  obtain ⟨toAcc, -⟩ := shaped.redirected copied
  exact toAcc ▸ shaped.spine_rename copied.rendered anew.larger.size fun _ old here =>
    shaped.only_accumulator anew copied old (here.trans toAcc)

theorem Shaped.of_copied : Fold.of d t.id = .ok ⟨t.id, acc.id, row.id, f fold.body, fold.steps.map (.rename f)⟩ := by
  obtain ⟨name, held⟩ := anew.wraps.function anew.stands
  have stands := anew.body_stands
  have once : (s.renamed d f).ids.Nodup := by
    have once := anew.once
    rw [anew.wraps.ids_eq] at once
    exact (List.nodup_append.1 (List.nodup_cons.1 once).2).2.1
  have tree := stands.treeWithin ((stands.height_le_size once).trans (Nat.le_succ _))
  rw [id_renamed, shaped.body] at held tree
  rw [Fold.of, (Arena.expect_eq_ok (ε := RowsError)).2 held]
  change (stepsTo d t.id acc.id (f fold.body) >>= _) = _
  rw [(stepsTo_eq_ok_iff tree).2 (shaped.spine_copied anew copied)]
  rfl

theorem Shaped.calls_copied (operands : ∀ step ∈ fold.steps, Setting.Settled ⟨d, context⟩ (Setting.bound [acc.id,
    row.id] [u, r] ∅) (f step.other) (values step)) (value : value? fold.steps (fold.steps.map values) u = some v) :
    Setting.Calls ⟨d, context⟩ t.id [u, r] v := by
  obtain ⟨name, held⟩ := anew.wraps.function anew.stands
  rw [id_renamed, shaped.body] at held
  refine .of_settled held rfl anew.plain (Spine.settled (shaped.spine_copied anew copied) ?_
    (List.forall₂_map_left_iff.2 (List.forall₂_map_right_iff.2 (List.forall₂_same.2 operands)))
    ((value?_rename f fold.steps _ u).trans value))
  rw [List.map, List.map, List.map, Setting.getElem?_bound_two, if_neg (Ne.symm anew.apart.1), if_pos rfl]

theorem Shaped.stands_copied (inScope : fold.Scoped a) {step : FoldStep} (isStep : step ∈ fold.steps) {o : Tree}
    (same : o.id = step.other) (stands : o.StandsIn a) (part : o.ids.Sublist s.ids) {outside : NodeId → Prop}
    (old : ∀ x, outside x → x < a.size) : Stands a o.ids fold.row outside d acc.id row.id f := by
  have below : a.descendants step.other = o.ids := same ▸ stands.descendants_eq (part.nodup shaped.body_once)
  have rendered : Rendered a o.ids d f := ⟨fun x listed => copied.rendered.renames x (part.subset listed),
    fun x first y second => copied.rendered.injective x (part.subset first) y (part.subset second)⟩
  refine anew.places (.refl a) rendered (fun x listed => by simpa [ids_renamed] using ⟨x, part.subset listed, rfl⟩)
    (shaped.redirected copied).2 old fun x listed t n held notOwn notRow => ?_
  have notInFold : t ∉ a.descendants fold.node := fun inFold =>
    (inScope step isStep x (below ▸ listed) t (Arena.target?_eq_some held) inFold).elim (below ▸ notOwn) notRow
  simp only [shaped.descendants_eq, List.mem_cons, not_or] at notInFold
  exact copied.other t notInFold.2.2.2 (by rw [getElem?_params, if_neg (Ne.symm notRow), if_neg (Ne.symm notInFold.2.1)])

end Fold

/-- What becomes of a fold that is a tree in a well-formed arena. -/
theorem invertFold_shaped {ω : Type} {w w' : Workspace ω} {node source initial reduce : NodeId} {fold : Fold}
    (wellFormed : w.arena.WellFormed) (once : (w.arena.descendants node).Nodup)
    (found : Fold.of w.arena node = .ok fold)
    (done : (invertFold node source initial : Pass RowsError ω NodeId) w = .ok reduce w') :
    ∃ p q s forward inverse view ty, fold.Shaped w.arena p q s ∧
      fold.Inverted w.arena w'.arena source initial reduce forward inverse view ty := by
  have there : node < w.arena.size := by
    rw [Fold.of, except_bind_eq_ok] at found
    obtain ⟨k, held, -⟩ := found
    exact Arena.lt_size_of_kind? (Arena.expect_eq_ok.1 held)
  obtain ⟨t, rfl, stands, once, listed⟩ := Arena.TreeShaped.exists_tree
    ⟨fun _ => wellFormed.toClosed.lt_size_of_mem_preorder there, once⟩
  obtain ⟨fold', p, q, s, forward, inverse, view, ty, found', same, planted, parts, inverted⟩ :=
    ((invertFold_inverted stands once source initial).ok done).2 _ (.refl _)
  cases found.symm.trans found'
  obtain ⟨name, standing⟩ := planted.stands
  rw [← same] at listed
  exact ⟨p, q, s, forward, inverse, view, ty, ⟨⟨planted, listed.trans parts, wellFormed.params standing.held⟩, wellFormed⟩,
    inverted⟩

end DerivedTables
