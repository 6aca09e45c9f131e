import DerivedTables.Proofs.Rows.AllOrNothing
import DerivedTables.Proofs.Rows.FoldTree
import DerivedTables.Proofs.Rows.Formula
import DerivedTables.Proofs.Tree.Copies

/-!
The functions that a fold is made into, node by node.
-/

namespace DerivedTables

open Tree

variable {ω : Type} {bad : RowsError → Prop} {a b d : Arena} {w : Workspace ω} {t : Tree} {ts us : List Tree}

namespace Slot

structure FunctionOver (d : Arena) (slots : List Slot) (body t : Tree) : Prop where
  shape : ∃ name, t = .node t.id (.function name (slots.map Slot.id) body.id) (slots.map leaf ++ [body])
  ty : d.ty? t.id = some (.function (.ofList (slots.map fun slot => (slot.name, slot.ty)))
    ((d.ty? body.id).getD .unknown))

def Use (d : Arena) (slot : Slot) (t : Tree) : Prop :=
  ∃ id, t = .node id (.reference slot.id slot.name) [] ∧ d.ty? id = some slot.ty

theorem make_makes (name : String) (ty : Ty) (built : Rebuilt a w.arena ts us) : Pass.Ends bad
    (make name ty : Pass RowsError ω Slot) w fun slot w' => w.arena.Retains w'.arena ∧ Rebuilt a w'.arena ts
    (us ++ [slot.leaf]) ∧ slot.ty = ty :=
  .of_ok rfl ⟨w.arena.retains_push _, built.append (Grown.leaf w.arena (n := ⟨.param name (some ty), some ty, none⟩) rfl).single,
    rfl⟩

theorem use_makes (slot : Slot) (built : Rebuilt a w.arena ts us) :
    Pass.Ends bad (use slot : Pass RowsError ω NodeId) w (Makes a w.arena ts us fun d t => Use d slot t) :=
  Pass.leaf_makes built rfl fun _ _ typed => ⟨_, rfl, typed⟩

theorem function_makes (name : Option String) (slots : List Slot) (built : Rebuilt a w.arena ts (us ++ (slots.map leaf
    ++ [t]))) : Pass.Ends bad (function name slots t.id : Pass RowsError ω NodeId) w (Makes a w.arena ts us fun d s =>
    FunctionOver d slots t s) := by
  have ids : slots.map Slot.id = (slots.map leaf).map Tree.id := by
    rw [List.map_map]
    exact List.map_congr_left fun _ _ => rfl
  have there : t.id < w.arena.size := (built.stand t (by simp)).lt_size _ t.id_mem_ids
  refine .arena (Pass.push_makes built (by simp [Kind.children, ids]) fun d later typed => ?_)
  refine ⟨⟨name, rfl⟩, ?_⟩
  rw [later.ty there]
  exact typed

theorem idsOf_leaves (slots : List Slot) : idsOf (slots.map leaf) = slots.map Slot.id := by
  induction slots with
  | nil => rfl
  | cons slot rest ih => rw [List.map_cons, idsOf, ih]; rfl

namespace FunctionOver

variable {slots : List Slot} {body : Tree}

theorem function (wraps : FunctionOver d slots body t) (stands : t.StandsIn d) :
    ∃ name, d.kind? t.id = some (.function name (slots.map Slot.id) body.id) := by
  obtain ⟨name, shape⟩ := wraps.shape
  exact ⟨name, by rw [stands.kind, shape]; rfl⟩

theorem ids_eq (wraps : FunctionOver d slots body t) : t.ids = t.id :: (slots.map Slot.id ++ body.ids) := by
  obtain ⟨name, shape⟩ := wraps.shape
  rw [shape, ids, idsOf_append, idsOf_leaves, idsOf_singleton]
  rfl

theorem body_stands (wraps : FunctionOver d slots body t) (stands : t.StandsIn d) : body.StandsIn d := by
  obtain ⟨name, shape⟩ := wraps.shape
  rw [shape] at stands
  exact stands.child (by simp)

theorem body_subset (wraps : FunctionOver d slots body t) {x : NodeId} (inside : x ∈ body.ids) : x ∈ t.ids := by
  rw [wraps.ids_eq]
  exact .tail _ (List.mem_append_right _ inside)

theorem param (wraps : FunctionOver d slots body t) (stands : t.StandsIn d) {slot : Slot} (listed : slot ∈ slots) :
    d.kind? slot.id = some (.param slot.name (some slot.ty)) := by
  obtain ⟨name, shape⟩ := wraps.shape
  rw [shape] at stands
  exact (stands.child (List.mem_append_left _ (List.mem_map_of_mem listed))).kind

end FunctionOver

structure Anew (a d : Arena) (acc row : Slot) (body t : Tree) : Prop extends Grown a d t where
  wraps : FunctionOver d [acc, row] body t

namespace Anew

variable {acc row : Slot} {body : Tree} (anew : Anew a d acc row body t)
include anew

theorem body_stands : body.StandsIn d := anew.wraps.body_stands anew.stands

theorem apart : acc.id ≠ row.id ∧ acc.id ∉ body.ids ∧ row.id ∉ body.ids := by
  have once := anew.once
  rw [anew.wraps.ids_eq] at once
  simp only [List.map_cons, List.map_nil, List.cons_append, List.nil_append, List.nodup_cons, List.mem_cons, not_or] at once
  exact ⟨once.2.1.1, once.2.1.2, once.2.2.1⟩

theorem beyond {x : NodeId} (inside : x ∈ acc.id :: row.id :: body.ids) : a.size ≤ x :=
  anew.fresh x (by rw [anew.wraps.ids_eq]; exact .tail _ inside)

end Anew

end Slot

namespace Fold

variable {fold : Fold} {p q s : Tree}

structure Planted (a : Arena) (fold : Fold) (p q s : Tree) : Prop where
  accumulator : p.id = fold.accumulator
  row : q.id = fold.row
  body : s.id = fold.body
  stands : ∃ name, (Tree.node fold.node (.function name [fold.accumulator, fold.row] fold.body) [p, q, s]).StandsIn a
  once : (fold.node :: idsOf [p, q, s]).Nodup
  spine : Spine a fold.accumulator fold.body fold.steps

theorem Planted.of_ok (stands : t.StandsIn a) (once : t.ids.Nodup) (found : Fold.of a t.id = .ok fold) :
    fold.node = t.id ∧ ∃ p q s, fold.Planted a p q s ∧ t.ids = fold.node :: idsOf [p, q, s] := by
  obtain ⟨id, kind, parts⟩ := t
  rw [Fold.of, except_bind_eq_ok] at found
  obtain ⟨k, held, found⟩ := found
  rw [Arena.expect_eq_ok] at held
  cases held.symm.trans stands.held
  split at found
  · rename_i name acc row body
    obtain ⟨steps, searched, found⟩ := except_bind_eq_ok.1 found
    cases found
    obtain ⟨params, s, rfl, front, rfl⟩ := stands.function_parts
    obtain ⟨p, rest, rfl, rfl, last⟩ := List.map_eq_cons_iff.1 front
    obtain ⟨q, rfl, rfl⟩ := List.map_eq_singleton_iff.1 last
    have standing := stands.child (show s ∈ [p, q] ++ [s] by simp)
    have once' : s.ids.Nodup := nodup_of_mem (List.nodup_cons.1 once).2 (show s ∈ [p, q] ++ [s] by simp)
    have tree := standing.treeWithin ((standing.height_le_size once').trans (Nat.le_succ _))
    exact ⟨rfl, p, q, s, ⟨rfl, rfl, rfl, ⟨name, stands⟩, once, (stepsTo_eq_ok_iff tree).1 searched⟩, rfl⟩
  · cases found
  · cases found

namespace Planted

variable (planted : fold.Planted a p q s)
include planted

theorem body_stands : s.StandsIn a := by
  obtain ⟨name, stands⟩ := planted.stands
  exact stands.child (by simp)

theorem body_once : s.ids.Nodup := nodup_of_mem (List.nodup_cons.1 planted.once).2 (by simp)

theorem accumulator_ne_row : fold.accumulator ≠ fold.row := by
  have once := nodup_map_id (List.nodup_cons.1 planted.once).2
  rw [← planted.accumulator, ← planted.row]
  simp only [List.map_cons, List.nodup_cons, List.mem_cons, not_or] at once
  exact once.1.1

theorem row_not_mem : fold.row ∉ s.ids := by
  have once := planted.once
  simp only [idsOf, List.nodup_cons, List.nodup_append, List.append_nil] at once
  exact fun inside => once.2.2.1.2.2 _ (planted.row ▸ q.id_mem_ids) _ inside rfl

theorem accumulator_not_mem : fold.accumulator ∉ s.ids := by
  have once := planted.once
  simp only [idsOf, List.nodup_cons, List.nodup_append, List.append_nil] at once
  exact fun inside => once.2.2.2 _ (planted.accumulator ▸ p.id_mem_ids) _ (List.mem_append_right _ inside) rfl

theorem operand {step : FoldStep} (listed : step ∈ fold.steps) :
    ∃ o : Tree, o.id = step.other ∧ o.StandsIn a ∧ o.ids.Sublist s.ids ∧ Free a fold.accumulator step.other := by
  have stands := planted.body_stands
  have tree := stands.treeWithin ((stands.height_le_size planted.body_once).trans (Nat.le_succ _))
  have spine := planted.spine
  rw [← planted.body] at spine
  obtain ⟨inside, free⟩ := spine.operands tree tree.self_mem step listed
  rw [← Arena.descendants, stands.descendants_eq planted.body_once] at inside
  obtain ⟨o, same, standing⟩ := stands.exists_at inside
  exact ⟨o, same, standing, stands.sublist_within standing (same ▸ inside), free⟩

end Planted

structure Clear (a : Arena) (fold : Fold) (p q s : Tree) : Prop extends fold.Planted a p q s where
  listed : a.descendants fold.node = fold.node :: idsOf [p, q, s]
  param : ∀ x ∈ [fold.accumulator, fold.row], ∃ name ty, a.kind? x = some (.param name ty)

theorem Clear.descendants_eq (clear : fold.Clear a p q s) :
    a.descendants fold.node = fold.node :: fold.accumulator :: fold.row :: s.ids := by
  obtain ⟨name, standing⟩ := clear.stands
  have leaf {u : Tree} (part : u ∈ [p, q, s]) (param : u.id ∈ [fold.accumulator, fold.row]) : u.ids = [u.id] := by
    obtain ⟨n, ty, held⟩ := clear.param u.id param
    exact (standing.child part).ids_of_leaf held rfl
  rw [clear.listed, idsOf, idsOf, idsOf_singleton, leaf (show p ∈ [p, q, s] by simp) (by simp [clear.accumulator]),
    leaf (show q ∈ [p, q, s] by simp) (by simp [clear.row]), clear.accumulator, clear.row]
  rfl

/-- Of what the fold holds, an operand refers only to its own nodes and to the row. -/
def Scoped (a : Arena) (fold : Fold) : Prop :=
  ∀ step ∈ fold.steps, ∀ x ∈ a.descendants step.other, ∀ t ∈ a.target? x,
    t ∈ a.descendants fold.node → t ∈ a.descendants step.other ∨ t = fold.row

instance (a : Arena) (fold : Fold) : Decidable (fold.Scoped a) :=
  inferInstanceAs (Decidable (∀ step ∈ fold.steps, ∀ x ∈ a.descendants step.other,
    ∀ t ∈ a.target? x, t ∈ a.descendants fold.node →
      t ∈ a.descendants step.other ∨ t = fold.row))

def OperandCopy (a d : Arena) (fold : Fold) (row : Slot) (step : FoldStep) (t : Tree) : Prop :=
  ∃ o : Tree, o.id = step.other ∧ o.StandsIn a ∧ o.Copy a d (.ofList [(fold.row, row.redirect)]) t

theorem getElem?_single {row t : NodeId} {redirect : Redirect} :
    (Std.TreeMap.ofList [(row, redirect)] : Redirects)[t]? = if row = t then some redirect else none := by
  simp [Std.TreeMap.ofList_singleton, Std.TreeMap.getElem?_insert]

/-- What the functions of accumulator and row are put together from. -/
inductive Leaf where
  | accumulator
  | operand (step : FoldStep)

inductive Ingredient (a d : Arena) (fold : Fold) (acc row : Slot) (operands : Ty) : Leaf → Ty → Tree → Prop
  | use {t : Tree} (used : acc.Use d t) : Ingredient a d fold acc row operands .accumulator acc.ty t
  | operand {step : FoldStep} {t : Tree} (listed : step ∈ fold.steps) (copied : fold.OperandCopy a d row step t) :
    Ingredient a d fold acc row operands (.operand step) operands t

def undoing (result : Formula Leaf) (step : FoldStep) : Formula Leaf :=
  match step.op, step.accumulatorOnLeft with
  | .add, _ => .binary .sub result (.leaf (.operand step))
  | .sub, true => .binary .add result (.leaf (.operand step))
  | .sub, false => .binary .sub (.leaf (.operand step)) result
  | .mul, _ => .binary .div result (.leaf (.operand step))
  | .div, true => .binary .mul result (.leaf (.operand step))
  | .div, false => .binary .div (.leaf (.operand step)) result
  | _, _ => result

def chained : List FoldStep → Formula Leaf
  | [] => .number 0
  | [step] => .leaf (.operand step)
  | step :: rest =>
    if step.accumulatorOnLeft then .binary step.op (chained rest) (.leaf (.operand step))
    else .binary step.op (.leaf (.operand step)) (chained rest)

def Worth.selected {L : Type} (worth : Worth) (condition : Formula L) : Formula L :=
  .conditional condition (.number worth.hit) (.number worth.miss)

def counted (chain op : Operator) (steps : List FoldStep) : Formula Leaf :=
  .binary op (.leaf .accumulator) ((Worth.of chain).selected (chained steps))

def anyCounted (chain : Operator) : Formula Unit :=
  .binary (if chain = .or then .ne else .eq) (.leaf ()) (.number 0)

def typeOfRow (a : Arena) (fold : Fold) : Ty := (a.ty? fold.row).getD .unknown

def Reworked (a d : Arena) (fold : Fold) (operands : Ty) (φ : Formula Leaf) (t : Tree) : Prop :=
  ∃ (acc row : Slot) (body : Tree), acc.ty = .number ∧ row.ty = fold.typeOfRow a ∧
    Slot.FunctionOver d [acc, row] body t ∧ Assembled d (Ingredient a d fold acc row operands) φ .number body

def Repeated (a d : Arena) (fold : Fold) (t : Tree) : Prop :=
  ∃ (acc row : Slot) (s body : Tree), acc.ty = .number ∧ row.ty = fold.typeOfRow a ∧
    Slot.FunctionOver d [acc, row] body t ∧ s.id = fold.body ∧ s.StandsIn a ∧
    s.Copy a d ((∅ : Redirects).insert fold.accumulator acc.redirect |>.insert fold.row row.redirect) body

def Shown (d : Arena) (φ : Formula Unit) (ty : Ty) (t : Tree) : Prop :=
  ∃ (acc : Slot) (body : Tree), acc.ty = .number ∧ Slot.FunctionOver d [acc] body t ∧
    Assembled d (fun _ ty t => ty = acc.ty ∧ acc.Use d t) φ ty body

theorem undone?_cases {step : FoldStep} {result other : NodeId} {kind : Kind} (undone : step.undone? result other = some
    kind) (φ : Formula Leaf) : ∃ op : Operator, op.isArithmetic ∧ (kind = .binary op result other ∧ undoing φ step =
    .binary op φ (.leaf (.operand step)) ∨ kind = .binary op other result ∧ undoing φ step = .binary op (.leaf (.operand
    step)) φ) := by
  obtain ⟨node, op, left, operand⟩ := step
  cases op <;> cases left <;> cases undone
  all_goals first
    | exact ⟨_, rfl, .inl ⟨rfl, rfl⟩⟩
    | exact ⟨_, rfl, .inr ⟨rfl, rfl⟩⟩

section Assembling

variable {L : Type} {leaf : Arena → L → Ty → Tree → Prop} {l r : Tree} {φ ψ : Formula L}

theorem number_makes (leaf : Arena → L → Ty → Tree → Prop) (value : Float) (built : Rebuilt a w.arena ts us) : Pass.Ends
    Dangling (number value : Pass RowsError ω NodeId) w
    (Makes a w.arena ts us fun d t => Assembled d (leaf d) (.number value) .number t) :=
  Pass.leaf_makes built rfl fun _ _ typed => .number typed

theorem binary_makes {op : Operator} {ty given : Ty} (built : Rebuilt a w.arena ts (us ++ [l, r])) (result : op.result =
    given) (takes : op.Takes ty) (left : ∀ d, w.arena.Retains d → Assembled d (leaf d) φ ty l) (right : ∀ d,
    w.arena.Retains d → Assembled d (leaf d) ψ ty r) : Pass.Ends Dangling (Pass.allocTyped (.binary op l.id r.id) given
    : Pass RowsError ω NodeId) w (Makes a w.arena ts us fun d t => Assembled d (leaf d) (.binary op φ ψ) given t) := by
  subst result
  exact Pass.push_makes built rfl fun d later typed => .binary typed takes (left d later) (right d later)

theorem select_makes (worth : Worth) (built : Rebuilt a w.arena ts (us ++ [t])) (asked : ∀ d, w.arena.Retains d →
    Assembled d (leaf d) φ .boolean t) : Pass.Ends Dangling (worth.select t.id : Pass RowsError ω NodeId) w (Makes a
    w.arena ts us fun d t => Assembled d (leaf d) (worth.selected φ) .number t) := by
  refine (number_makes leaf worth.hit built).bind ?_
  rintro _ w₁ ⟨later₁, hit, rfl, built, one⟩
  refine (number_makes leaf worth.miss built).bind ?_
  rintro _ w₂ ⟨later₂, miss, rfl, built, other⟩
  rw [List.append_assoc, List.append_assoc] at built
  have since := later₁.trans later₂
  have pushed : Pass.Ends Dangling (Pass.allocTyped (.conditional t.id hit.id miss.id) .number : Pass RowsError ω NodeId) w₂
      (Makes a w₂.arena ts us fun d t => Assembled d (leaf d) (worth.selected φ) .number t) :=
    Pass.push_makes built rfl fun d later typed =>
      .conditional typed (asked d (since.trans later)) (one d (later₂.trans later)) (other d later)
  exact pushed.mono fun _ _ makes => makes.since since

end Assembling

section Making

variable {acc row : Slot} (planted : fold.Planted a p q s) (base : a.Retains w.arena)

theorem getElem?_params (acc row : Slot) (x : NodeId) :
    (((∅ : Redirects).insert fold.accumulator acc.redirect).insert fold.row row.redirect)[x]? = if fold.row = x then
    some row.redirect else if fold.accumulator = x then some acc.redirect else none := by
  simp [Std.TreeMap.getElem?_insert]

theorem Planted.redirected {f : NodeId → NodeId} (planted : fold.Planted a p q s)
    (copied : CopiedBy a d ((∅ : Redirects).insert fold.accumulator acc.redirect |>.insert fold.row row.redirect) s f) :
    f fold.accumulator = acc.id ∧ f fold.row = row.id := by
  refine ⟨copied.redirect _ acc.redirect ?_, copied.redirect _ row.redirect ?_⟩
  · rw [getElem?_params, if_neg (Ne.symm planted.accumulator_ne_row), if_pos rfl]
  · rw [getElem?_params, if_pos rfl]

theorem Planted.only_accumulator {f : NodeId → NodeId} (planted : fold.Planted a p q s) (anew : Slot.Anew a d acc row
    (s.renamed d f) t) (copied : CopiedBy a d ((∅ : Redirects).insert fold.accumulator acc.redirect |>.insert fold.row
    row.redirect) s f) {x : NodeId} (old : x < a.size) (here : f x = acc.id) : x = fold.accumulator := by
  obtain ⟨other, apart, -⟩ := anew.apart
  rw [ids_renamed] at apart
  by_contra notAcc
  by_cases isRow : x = fold.row
  · subst isRow
    exact other (here.symm.trans (planted.redirected copied).2)
  · by_cases inside : x ∈ s.ids
    · exact apart (here ▸ List.mem_map_of_mem inside)
    · have stays := copied.other x inside (by rw [getElem?_params, if_neg (Ne.symm isRow), if_neg (Ne.symm notAcc)])
      exact absurd old (Nat.not_lt.2 (stays ▸ here ▸ anew.beyond (by simp)))

include planted base

theorem copyForRow_makes (row : Slot) {step : FoldStep} (listed : step ∈ fold.steps) (built : Rebuilt a w.arena ts us) :
    Pass.Ends Dangling (fold.copyForRow row step.other : Pass RowsError ω NodeId) w
    (Makes a w.arena ts us fun d t => fold.OperandCopy a d row step t) := by
  obtain ⟨o, same, stands, inside, -⟩ := planted.operand listed
  have once := inside.nodup planted.body_once
  have free : ∀ x ∈ o.ids, (Std.TreeMap.ofList [(fold.row, row.redirect)] : Redirects)[x]? = none := by
    intro x below
    rw [getElem?_single, if_neg]
    rintro rfl
    exact planted.row_not_mem (inside.subset below)
  rw [← same]
  refine (Pass.deepCopy_makes base built stands once free).mono ?_
  rintro _ w' ⟨later, t, rfl, built, copied⟩
  exact ⟨later, t, rfl, built, fun d later => ⟨o, same, stands, copied d later⟩⟩

theorem numericForward_makes (built : Rebuilt a w.arena ts us) : Pass.Ends Dangling (fold.numericForward (fold.typeOfRow
    a) : Pass RowsError ω NodeId) w (Makes a w.arena ts us fun d t => fold.Repeated a d t) := by
  refine (Slot.make_makes _ _ built).bind ?_
  rintro acc w₁ ⟨later₁, built, accTy⟩
  refine (Slot.make_makes _ _ built).bind ?_
  rintro row w₂ ⟨later₂, built, rowTy⟩
  have free : ∀ x ∈ s.ids, (((∅ : Redirects).insert fold.accumulator acc.redirect).insert fold.row
      row.redirect)[x]? = none := by
    intro x inside
    rw [getElem?_params, if_neg, if_neg]
    · rintro rfl
      exact planted.accumulator_not_mem inside
    · rintro rfl
      exact planted.row_not_mem inside
  rw [← planted.body]
  refine (Pass.deepCopy_makes ((base.trans later₁).trans later₂) built planted.body_stands planted.body_once free).bind ?_
  rintro _ w₃ ⟨later₃, body, rfl, built, copied⟩
  refine (Slot.function_makes (some "forward") [acc, row] (by simpa using built)).mono ?_
  rintro _ w₄ ⟨later₄, forward, rfl, built, made⟩
  refine ⟨((later₁.trans later₂).trans later₃).trans later₄, forward, rfl, built, fun d later => ?_⟩
  exact ⟨acc, row, s, body, accTy, rowTy, made d later, planted.body, planted.body_stands, copied d (later₄.trans later)⟩

theorem undo_makes {φ : Formula Leaf} {step : FoldStep} (listed : step ∈ fold.steps) (built : Rebuilt a w.arena ts (us
    ++ [t])) (given : ∀ d, w.arena.Retains d → Assembled d (Ingredient a d fold acc row .number) φ .number t) :
    Pass.Ends Dangling (fold.undo row t.id step : Pass RowsError ω NodeId) w (Makes a w.arena ts us fun d t => Assembled
    d (Ingredient a d fold acc row .number) (undoing φ step) .number t) := by
  refine (copyForRow_makes planted base row listed built).bind ?_
  rintro _ w₁ ⟨later₁, o, rfl, built, copied⟩
  rw [List.append_assoc, List.singleton_append] at built
  have operand (d : Arena) (later : w₁.arena.Retains d) :
      Assembled d (Ingredient a d fold acc row .number) (.leaf (.operand step)) .number o :=
    .leaf (.operand listed (copied d later))
  have result (d : Arena) (later : w₁.arena.Retains d) := given d (later₁.trans later)
  split
  · rename_i kind undone
    obtain ⟨op, arithmetic, ⟨rfl, undoes⟩ | ⟨rfl, undoes⟩⟩ := undone?_cases undone φ
    · rw [undoes]
      refine (binary_makes built (if_pos arithmetic) (op.takes_number arithmetic) result operand).mono ?_
      exact fun _ _ makes => makes.since later₁
    · rw [undoes]
      refine (binary_makes (built.perm ((List.Perm.swap o t []).append_left us)) (if_pos arithmetic)
        (op.takes_number arithmetic) operand result).mono ?_
      exact fun _ _ makes => makes.since later₁
  · exact .throw (by rintro ⟨_, ⟨⟩⟩)

theorem undoAll_makes {steps : List FoldStep} (listed : ∀ step ∈ steps, step ∈ fold.steps) {φ : Formula Leaf} (built :
    Rebuilt a w.arena ts (us ++ [t])) (given : ∀ d, w.arena.Retains d → Assembled d (Ingredient a d fold acc row
    .number) φ .number t) : Pass.Ends Dangling (steps.foldlM (fold.undo row) t.id : Pass RowsError ω NodeId) w (Makes a
    w.arena ts us fun d t => Assembled d (Ingredient a d fold acc row .number) (steps.foldl undoing φ) .number t) := by
  induction steps generalizing t w φ with
  | nil => exact .pure ⟨.refl _, t, rfl, built, given⟩
  | cons step steps ih =>
    rw [List.forall_mem_cons] at listed
    rw [List.foldlM_cons]
    refine (undo_makes planted base listed.1 built given).bind ?_
    rintro _ w₁ ⟨later, t', rfl, built, given⟩
    exact (ih (base.trans later) listed.2 built given).mono fun _ _ makes => makes.since later

theorem numericInverse_makes (built : Rebuilt a w.arena ts us) : Pass.Ends Dangling
    (fold.numericInverse (fold.typeOfRow a) : Pass RowsError ω NodeId) w
    (Makes a w.arena ts us fun d t => fold.Reworked a d .number (fold.steps.foldl undoing (.leaf .accumulator)) t) := by
  refine (Slot.make_makes _ _ built).bind ?_
  rintro acc w₁ ⟨later₁, built, accTy⟩
  refine (Slot.make_makes _ _ built).bind ?_
  rintro row w₂ ⟨later₂, built, rowTy⟩
  refine (Slot.use_makes acc built).bind ?_
  rintro _ w₃ ⟨later₃, use, rfl, built, used⟩
  have upTo := (later₁.trans later₂).trans later₃
  have start (d : Arena) (later : w₃.arena.Retains d) :
      Assembled d (Ingredient a d fold acc row .number) (.leaf .accumulator) .number use :=
    accTy ▸ .leaf (.use (used d later))
  refine (undoAll_makes planted (base.trans upTo) (fun _ => id) built start).bind ?_
  rintro _ w₄ ⟨later₄, body, rfl, built, made⟩
  refine (Slot.function_makes (some "inverse") [acc, row] (by simpa using built)).mono ?_
  rintro _ w₅ ⟨later₅, inverse, rfl, built, wraps⟩
  refine ⟨(upTo.trans later₄).trans later₅, inverse, rfl, built, fun d later => ?_⟩
  exact ⟨acc, row, body, accTy, rowTy, wraps d later, made d (later₅.trans later)⟩

theorem matching_makes (acc row : Slot) {steps : List FoldStep} (listed : ∀ step ∈ steps, step ∈ fold.steps)
    (logical : ∀ step ∈ steps, step.op.isLogical) (built : Rebuilt a w.arena ts us) :
    Pass.Ends Dangling (fold.matching row steps : Pass RowsError ω NodeId) w (Makes a w.arena ts us fun d t =>
      Assembled d (Ingredient a d fold acc row .boolean) (chained steps) .boolean t) := by
  induction steps generalizing us w with
  | nil => exact .throw (by rintro ⟨_, ⟨⟩⟩)
  | cons step steps ih =>
    rw [List.forall_mem_cons] at listed logical
    have operand := copyForRow_makes planted base row listed.1 built
    cases steps with
    | nil =>
      refine operand.mono ?_
      rintro _ w₁ ⟨later₁, o, rfl, built, copied⟩
      exact ⟨later₁, o, rfl, built, fun d later => .leaf (.operand listed.1 (copied d later))⟩
    | cons next steps =>
      rw [matching, chained]
      · refine operand.bind ?_
        rintro _ w₁ ⟨later₁, other, rfl, built, copied⟩
        refine (ih (base.trans later₁) listed.2 logical.2 built).bind ?_
        rintro _ w₂ ⟨later₂, inner, rfl, built, made⟩
        rw [List.append_assoc, List.singleton_append] at built
        have first (d : Arena) (later : w₂.arena.Retains d) :
            Assembled d (Ingredient a d fold acc row .boolean) (.leaf (.operand step)) .boolean other :=
          .leaf (.operand listed.1 (copied d (later₂.trans later)))
        have result : step.op.result = .boolean := Operator.result_of_logical logical.1
        have takes := step.op.takes_boolean logical.1
        dsimp only
        split
        · refine (binary_makes (built.perm ((List.Perm.swap inner other []).append_left us)) result takes made first).mono ?_
          exact fun _ _ makes => makes.since (later₁.trans later₂)
        · refine (binary_makes built result takes first made).mono ?_
          exact fun _ _ makes => makes.since (later₁.trans later₂)
      all_goals simp

theorem counting_makes {chain : Operator} (isChain : fold.Chain chain) (name accName rowName : String) (op : Operator)
    (arithmetic : op.isArithmetic) (built : Rebuilt a w.arena ts us) : Pass.Ends Dangling
    (fold.counting (Worth.of chain) name accName rowName op (fold.typeOfRow a) : Pass RowsError ω NodeId) w
    (Makes a w.arena ts us fun d t => fold.Reworked a d .boolean (counted chain op fold.steps) t) := by
  have logical : ∀ step ∈ fold.steps, step.op.isLogical := fun step listed => isChain.same step listed ▸ isChain.logical
  refine (Slot.make_makes _ _ built).bind ?_
  rintro acc w₁ ⟨later₁, built, accTy⟩
  refine (Slot.make_makes _ _ built).bind ?_
  rintro row w₂ ⟨later₂, built, rowTy⟩
  have upTo := later₁.trans later₂
  refine (matching_makes planted (base.trans upTo) acc row (fun _ => id) logical built).bind ?_
  rintro _ w₃ ⟨later₃, condition, rfl, built, made⟩
  refine (select_makes _ built made).bind ?_
  rintro _ w₄ ⟨later₄, change, rfl, built, made⟩
  refine (Slot.use_makes acc built).bind ?_
  rintro _ w₅ ⟨later₅, count, rfl, built, used⟩
  rw [List.append_assoc, List.singleton_append] at built
  have start (d : Arena) (later : w₅.arena.Retains d) :
      Assembled d (Ingredient a d fold acc row .boolean) (.leaf .accumulator) .number count :=
    accTy ▸ .leaf (.use (used d later))
  refine (binary_makes (built.perm ((List.Perm.swap count change []).append_left _)) (if_pos arithmetic)
    (op.takes_number arithmetic) start fun d later => made d (later₅.trans later)).bind ?_
  rintro _ w₆ ⟨later₆, body, rfl, built, made⟩
  refine (Slot.function_makes (some name) [acc, row] (by simpa using built)).mono ?_
  rintro _ w₇ ⟨later₇, function, rfl, built, wraps⟩
  refine ⟨(((upTo.trans later₃).trans later₄).trans later₅).trans (later₆.trans later₇), function, rfl, built, fun d later => ?_⟩
  exact ⟨acc, row, body, accTy, rowTy, wraps d later, made d (later₇.trans later)⟩

end Making

theorem numericView_makes (built : Rebuilt a w.arena ts us) : Pass.Ends Dangling (numericView : Pass RowsError ω NodeId)
    w (Makes a w.arena ts us fun d t => Shown d (.leaf ()) .number t) := by
  refine (Slot.make_makes _ _ built).bind ?_
  rintro acc w₁ ⟨later₁, built, accTy⟩
  refine (Slot.use_makes acc built).bind ?_
  rintro _ w₂ ⟨later₂, use, rfl, built, used⟩
  refine (Slot.function_makes (some "view") [acc] (by simpa using built)).mono ?_
  rintro _ w₃ ⟨later₃, view, rfl, built, wraps⟩
  refine ⟨(later₁.trans later₂).trans later₃, view, rfl, built, fun d later => ?_⟩
  exact ⟨acc, use, accTy, wraps d later, .leaf ⟨accTy.symm, used d (later₃.trans later)⟩⟩

theorem countView_makes (chain : Operator) (built : Rebuilt a w.arena ts us) : Pass.Ends Dangling (countView chain :
    Pass RowsError ω NodeId) w (Makes a w.arena ts us fun d t => Shown d (anyCounted chain) .boolean t) := by
  refine (Slot.make_makes _ _ built).bind ?_
  rintro acc w₁ ⟨later₁, built, accTy⟩
  refine (Slot.use_makes acc built).bind ?_
  rintro _ w₂ ⟨later₂, count, rfl, built, used⟩
  refine (number_makes (fun d (_ : Unit) ty t => ty = acc.ty ∧ acc.Use d t) 0 built).bind ?_
  rintro _ w₃ ⟨later₃, nothing, rfl, built, zero⟩
  rw [List.append_assoc, List.singleton_append] at built
  have start (d : Arena) (later : w₃.arena.Retains d) :
      Assembled d (fun (_ : Unit) ty t => ty = acc.ty ∧ acc.Use d t) (.leaf ()) .number count :=
    .leaf ⟨accTy.symm, used d (later₃.trans later)⟩
  have equality : (if chain = .or then Operator.ne else .eq).isEquality := by split <;> rfl
  refine (binary_makes built (Operator.result_of_equality equality) (Operator.takes_of_equality equality .number)
    start zero).bind ?_
  rintro _ w₄ ⟨later₄, body, rfl, built, made⟩
  refine (Slot.function_makes (some "view") [acc] (by simpa using built)).mono ?_
  rintro _ w₅ ⟨later₅, view, rfl, built, wraps⟩
  refine ⟨((later₁.trans later₂).trans later₃).trans (later₄.trans later₅), view, rfl, built, fun d later => ?_⟩
  exact ⟨acc, body, accTy, wraps d later, made d (later₅.trans later)⟩

inductive Functions (a d : Arena) (fold : Fold) (forward inverse view : Tree) : Ty → Prop
  | numeric (arithmetic : ∀ step ∈ fold.steps, step.op.isArithmetic) (first : fold.Repeated a d forward)
    (second : fold.Reworked a d .number (fold.steps.foldl undoing (.leaf .accumulator)) inverse)
    (third : Shown d (.leaf ()) .number view) : Functions a d fold forward inverse view .number
  | boolean {chain : Operator} (found : fold.chainOf = .ok chain)
    (first : fold.Reworked a d .boolean (counted chain .add fold.steps) forward)
    (second : fold.Reworked a d .boolean (counted chain .sub fold.steps) inverse)
    (third : Shown d (anyCounted chain) .boolean view) : Functions a d fold forward inverse view .boolean

section Inverting

variable {post : NodeId → Workspace ω → Prop} (planted : fold.Planted a p q s) (base : a.Retains w.arena)
  (built : Rebuilt a w.arena ts us)
include planted base

theorem rowTy_run : (fold.rowTy : Pass RowsError ω Ty) w = .ok (fold.typeOfRow a) w := by
  obtain ⟨name, stands⟩ := planted.stands
  have there : fold.row < a.size :=
    planted.row ▸ stands.lt_size q.id (.tail _ (mem_idsOf.2 ⟨q, by simp, q.id_mem_ids⟩))
  rw [rowTy, bind_of_ok (Pass.arena_run w), base.ty there]
  rfl

include built

theorem invertNumeric_ends_of {source initial : NodeId} (rest : ∀ forward inverse view w', w.arena.Retains w'.arena →
    Rebuilt a w'.arena ts (us ++ [forward, inverse, view]) → (∀ d, w'.arena.Retains d → fold.Functions a d forward
    inverse view .number) → Pass.Ends Dangling (reduce source initial forward.id inverse.id view.id : Pass RowsError ω
    NodeId) w' post) : Pass.Ends Dangling (fold.invertNumeric source initial : Pass RowsError ω NodeId) w post := by
  unfold invertNumeric
  cases stuck : fold.steps.find? fun step => !step.op.isArithmetic with
  | some step => exact .throw (by rintro ⟨_, ⟨⟩⟩)
  | none =>
    refine .step (rowTy_run planted base) ?_
    refine (numericForward_makes planted base built).bind ?_
    rintro _ w₁ ⟨later₁, forward, rfl, built, first⟩
    refine (numericInverse_makes planted (base.trans later₁) built).bind ?_
    rintro _ w₂ ⟨later₂, inverse, rfl, built, second⟩
    refine (numericView_makes built).bind ?_
    rintro _ w₃ ⟨later₃, view, rfl, built, third⟩
    refine rest forward inverse view w₃ ((later₁.trans later₂).trans later₃) (by simpa using built) fun d later => ?_
    exact .numeric (by simpa using stuck) (first d (later₂.trans (later₃.trans later))) (second d (later₃.trans later))
      (third d later)

theorem invertBoolean_ends_of {source initial : NodeId}
    (rest : ∀ chain forward inverse view w', fold.chainOf = .ok chain → w.arena.Retains w'.arena →
      Rebuilt a w'.arena ts (us ++ [forward, inverse, view]) →
      (∀ d, w'.arena.Retains d → fold.Functions a d forward inverse view .boolean) → Pass.Ends Dangling (do
        let start ← (Worth.of chain).select initial
        reduce source start forward.id inverse.id view.id : Pass RowsError ω NodeId) w' post) :
    Pass.Ends Dangling (fold.invertBoolean source initial : Pass RowsError ω NodeId) w post := by
  refine .ofExcept (fun e failed => RowsError.not_dangling (chainOf_error failed)) fun chain found => ?_
  have isChain := chainOf_eq_ok found
  refine .step (rowTy_run planted base) ?_
  refine (counting_makes planted base isChain _ _ _ .add rfl built).bind ?_
  rintro _ w₁ ⟨later₁, forward, rfl, built, first⟩
  refine (counting_makes planted (base.trans later₁) isChain _ _ _ .sub rfl built).bind ?_
  rintro _ w₂ ⟨later₂, inverse, rfl, built, second⟩
  refine (countView_makes chain built).bind ?_
  rintro _ w₃ ⟨later₃, view, rfl, built, third⟩
  refine rest chain forward inverse view w₃ found ((later₁.trans later₂).trans later₃) (by simpa using built) fun d later => ?_
  exact .boolean found (first d (later₂.trans (later₃.trans later))) (second d (later₃.trans later)) (third d later)

end Inverting

def Selected (d : Arena) (worth : Worth) (condition id : NodeId) : Prop :=
  ∃ hit miss, d.kind? id = some (.conditional condition hit miss) ∧ d.kind? hit = some (.number worth.hit) ∧
    d.kind? miss = some (.number worth.miss)

inductive Begun (d : Arena) (fold : Fold) (initial : NodeId) : Ty → NodeId → Prop
  | number : Begun d fold initial .number initial
  | boolean {chain : Operator} {start : NodeId} (found : fold.chainOf = .ok chain)
    (selected : Selected d (Worth.of chain) initial start) : Begun d fold initial .boolean start

structure Inverted (a d : Arena) (fold : Fold) (source initial r : NodeId) (forward inverse view : Tree) (ty : Ty) :
    Prop where
  body : (a.ty? fold.body).map Ty.effective = some ty
  held : ∃ start, d.kind? r = some (.reduce source start forward.id inverse.id view.id) ∧ Begun d fold initial ty start
  grown : GrownAll a d [forward, inverse, view]
  functions : fold.Functions a d forward inverse view ty

def InvertedFrom (a d : Arena) (t : Tree) (source initial r : NodeId) : Prop :=
  ∃ (fold : Fold) (p q s forward inverse view : Tree) (ty : Ty), Fold.of a t.id = .ok fold ∧ fold.node = t.id ∧
    fold.Planted a p q s ∧ t.ids = fold.node :: idsOf [p, q, s] ∧
      fold.Inverted a d source initial r forward inverse view ty

end Fold

theorem Pass.push_ends (n : Node) : Pass.Ends Dangling (Pass.push n : Pass RowsError ω NodeId) w fun r w' =>
    w.arena.Retains w'.arena ∧ ∀ d, w'.arena.Retains d → d.kind? r = some n.kind :=
  .of_ok rfl ⟨w.arena.retains_push n, fun _ later => later.kinds.kind_of_some (w.arena.kind?_push_size n)⟩

theorem Fold.select_ends (worth : Fold.Worth) (condition : NodeId) : Pass.Ends Dangling
    (worth.select condition : Pass RowsError ω NodeId) w fun start w' => w.arena.Retains w'.arena ∧ ∀ d,
    w'.arena.Retains d → Fold.Selected d worth condition start := by
  refine (Pass.push_ends _).bind ?_
  rintro hit w₁ ⟨later₁, first⟩
  refine (Pass.push_ends _).bind ?_
  rintro miss w₂ ⟨later₂, second⟩
  refine (Pass.push_ends _).mono ?_
  rintro id w₃ ⟨later₃, third⟩
  exact ⟨(later₁.trans later₂).trans later₃, fun d later =>
    ⟨hit, miss, third d later, first d (later₂.trans (later₃.trans later)), second d (later₃.trans later)⟩⟩

theorem Fold.reduce_ends (source initial forward inverse view : NodeId) : Pass.Ends Dangling
    (Fold.reduce source initial forward inverse view : Pass RowsError ω NodeId) w fun r w' => w.arena.Retains w'.arena ∧
    ∀ d, w'.arena.Retains d → d.kind? r = some (.reduce source initial forward inverse view) := by
  refine .arena ?_
  split <;> exact Pass.push_ends _

theorem invertFold_inverted (stands : t.StandsIn w.arena) (once : t.ids.Nodup) (source initial : NodeId) : Pass.Ends
    Dangling (invertFold t.id source initial : Pass RowsError ω NodeId) w fun r w' => w.arena.Retains w'.arena ∧ ∀ d,
    w'.arena.Retains d → Fold.InvertedFrom w.arena d t source initial r := by
  refine .arena (.ofExcept (fun e failed => Fold.of_not_dangling stands.kind failed) fun fold found => ?_)
  obtain ⟨node, p, q, s, planted, listed⟩ := Fold.Planted.of_ok stands once found
  have nothing : Rebuilt w.arena w.arena [] [] := .keep (by simp) List.nodup_nil
  have finish (ty : Ty) {m : Pass RowsError ω NodeId} (made : Pass.Ends Dangling m w fun r w' => w.arena.Retains w'.arena ∧
      ∃ forward inverse view, ∀ d, w'.arena.Retains d →
        fold.Inverted w.arena d source initial r forward inverse view ty) :
      Pass.Ends Dangling (do
        let r ← m
        Pass.modifyArena (·.setSpan r (w.arena.span? t.id))
        return r) w fun r w' => w.arena.Retains w'.arena ∧
          ∀ d, w'.arena.Retains d → Fold.InvertedFrom w.arena d t source initial r := by
    refine made.bind ?_
    rintro r w₁ ⟨later, forward, inverse, view, inverted⟩
    have spanned := w₁.arena.retains_setSpan r (w.arena.span? t.id)
    exact .of_ok rfl ⟨later.trans spanned, fun d last =>
      ⟨fold, p, q, s, forward, inverse, view, ty, found, node, planted, listed, inverted d (spanned.trans last)⟩⟩
  cases typed : (w.arena.ty? fold.body).map Ty.effective with
  | none => exact .throw (by rintro ⟨_, ⟨⟩⟩)
  | some ty =>
    cases ty with
    | number =>
      refine finish .number (Fold.invertNumeric_ends_of planted (.refl _) nothing
        fun forward inverse view w₁ later₁ built made => ?_)
      refine (Fold.reduce_ends ..).mono ?_
      rintro r w₂ ⟨later₂, held⟩
      refine ⟨later₁.trans later₂, forward, inverse, view, fun d later => ?_⟩
      have since := later₂.trans later
      exact ⟨typed, ⟨_, held d later, .number⟩, (built.extend since.kinds).grown, made d since⟩
    | boolean =>
      refine finish .boolean (Fold.invertBoolean_ends_of planted (.refl _) nothing
        fun chain forward inverse view w₁ chains later₁ built made => ?_)
      refine (Fold.select_ends ..).bind ?_
      rintro start w₂ ⟨later₂, selected⟩
      refine (Fold.reduce_ends ..).mono ?_
      rintro r w₃ ⟨later₃, held⟩
      refine ⟨(later₁.trans later₂).trans later₃, forward, inverse, view, fun d later => ?_⟩
      have since := later₂.trans (later₃.trans later)
      exact ⟨typed, ⟨start, held d later, .boolean chains (selected d (later₃.trans later))⟩,
        (built.extend since.kinds).grown, made d since⟩
    | _ => exact .throw (by rintro ⟨_, ⟨⟩⟩)

end DerivedTables
