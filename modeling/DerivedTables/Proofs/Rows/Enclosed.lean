import DerivedTables.Eval.Maintenance
import DerivedTables.Proofs.Rows.Synthesis

/-!
Where the functions of an inverted fold refer to.
-/

namespace DerivedTables

open Tree

def Kind.isBinder : Kind → Bool
  | param .. | binding .. | function .. => true
  | _ => false

theorem Kind.Renames.isBinder {f : NodeId → NodeId} {k l : Kind} (renames : Renames f k l) :
    l.isBinder = k.isBinder := by
  cases renames with
  | same => cases k <;> rfl
  | reference => rfl

namespace Arena

variable {a d : Arena} {t : Tree} {f : NodeId → NodeId}

def isBinder (a : Arena) (id : NodeId) : Bool := (a.kind? id).any Kind.isBinder

def targets (a : Arena) (ids : List NodeId) : List NodeId := ids.filterMap a.target?

theorem targets_append (a : Arena) (xs ys : List NodeId) : a.targets (xs ++ ys) = a.targets xs ++ a.targets ys :=
  List.filterMap_append

theorem mem_targets {ids : List NodeId} {y : NodeId} : y ∈ a.targets ids ↔ ∃ x ∈ ids, a.target? x = some y :=
  List.mem_filterMap

/-- The parameters of the function at the node are parameters, and every reference at or below it points to
something that is there: not to the node itself, and within it only to what binds. -/
structure Anchored (a : Arena) (node : NodeId) : Prop where
  params : ∀ {name ps body}, a.kind? node = some (.function name ps body) →
    ∀ p ∈ ps, ∃ n t, a.kind? p = some (.param n t)
  target : ∀ y ∈ a.targets (a.descendants node), y ≠ node ∧ y < a.size ∧
    (y ∈ a.descendants node → a.isBinder y = true)

/-- In `d`, every reference below the function points to one of its parameters, to what is bound inside of it,
or to a node of `a` that was not part of the fold. -/
def Enclosed (a d : Arena) (fold function : NodeId) : Prop :=
  ∃ name ps body, d.kind? function = some (.function name ps body) ∧
    ∀ y ∈ d.targets (d.descendants function), y ∈ ps ∨ (y ∈ d.descendants function ∧ d.isBinder y = true) ∨
      (y < a.size ∧ y ∉ a.descendants fold)

/-- The first parameter of the function is referred to once below it. -/
def UsesOnce (d : Arena) (function : NodeId) : Prop :=
  ∃ name acc rest body, d.kind? function = some (.function name (acc :: rest) body) ∧
    (d.targets (d.descendants function)).count acc = 1

end Arena

namespace Tree

variable {a d : Arena} {t t' : Tree} {ts : List Tree} {f : NodeId → NodeId} {redirects : Redirects}

theorem targets_node {id : NodeId} {kind : Kind} {parts : List Tree} (stands : (node id kind parts).StandsIn d) (other :
    ∀ target name, kind ≠ .reference target name) : d.targets (node id kind parts).ids = d.targets (idsOf parts) := by
  have none : d.target? id = none := by
    rw [Option.eq_none_iff_forall_ne_some]
    intro y found
    obtain ⟨name, held⟩ := Arena.of_target?_eq_some found
    exact other y name (Option.some_injective _ (stands.held.symm.trans held))
  rw [ids, Arena.targets, List.filterMap_cons_none none]
  rfl

theorem CopiedBy.target? (copied : CopiedBy a d redirects t f) (stands : t.StandsIn a) {x : NodeId}
    (inside : x ∈ t.ids) : d.target? (f x) = (a.target? x).map f := by
  obtain ⟨k, held⟩ := Arena.exists_kind?_of_lt (stands.lt_size x inside)
  obtain ⟨l, copy, renames⟩ := copied.rendered.renames x inside k held
  unfold Arena.target?
  rw [held, copy]
  cases renames with
  | same => cases k <;> rfl
  | reference => rfl

theorem CopiedBy.targets (copied : CopiedBy a d redirects t f) (stands : t.StandsIn a) :
    d.targets (t.renamed d f).ids = (a.targets t.ids).map f := by
  rw [ids_renamed, Arena.targets, Arena.targets, List.filterMap_map, List.map_filterMap]
  exact List.filterMap_congr fun x inside => copied.target? stands inside

theorem CopiedBy.isBinder (copied : CopiedBy a d redirects t f) (stands : t.StandsIn a) {x : NodeId}
    (inside : x ∈ t.ids) : d.isBinder (f x) = a.isBinder x := by
  obtain ⟨k, held⟩ := Arena.exists_kind?_of_lt (stands.lt_size x inside)
  obtain ⟨l, copy, renames⟩ := copied.rendered.renames x inside k held
  rw [Arena.isBinder, Arena.isBinder, held, copy, Option.any_some, Option.any_some, renames.isBinder]

theorem Copy.targets_cases (copy : t.Copy a d redirects t') (stands : t.StandsIn a) {y : NodeId}
    (points : y ∈ d.targets t'.ids) : ∃ x ∈ a.targets t.ids, (∃ r, redirects[x]? = some r ∧ y = r.target) ∨
    (x ∈ t.ids ∧ y ∈ t'.ids ∧ d.isBinder y = a.isBinder x) ∨ (x ∉ t.ids ∧ redirects[x]? = none ∧ y = x) := by
  obtain ⟨f, copied, rfl⟩ := copy
  rw [copied.targets stands] at points
  obtain ⟨x, pointed, rfl⟩ := List.mem_map.1 points
  refine ⟨x, pointed, ?_⟩
  cases found : redirects[x]? with
  | some r => exact .inl ⟨r, rfl, copied.redirect x r found⟩
  | none =>
    by_cases inside : x ∈ t.ids
    · refine .inr (.inl ⟨inside, ?_, copied.isBinder stands inside⟩)
      rw [ids_renamed]
      exact List.mem_map_of_mem inside
    · exact .inr (.inr ⟨inside, rfl, copied.other x inside found⟩)

end Tree

namespace Assembled

variable {L : Type} {d : Arena} {leaf : L → Ty → Tree → Prop} {φ : Formula L} {ty : Ty} {t : Tree}

theorem pointsTo (assembled : Assembled d leaf φ ty t) (stands : t.StandsIn d) {y : NodeId}
    (points : y ∈ d.targets t.ids) : ∃ l ty s, leaf l ty s ∧ y ∈ d.targets s.ids := by
  induction assembled with
  | leaf here => exact ⟨_, _, _, here, points⟩
  | number =>
    rw [targets_node stands (by simp)] at points
    cases points
  | binary _ _ _ _ left right =>
    rw [targets_node stands (by simp), idsOf, idsOf_singleton, Arena.targets_append, List.mem_append] at points
    exact points.elim (left (stands.child (by simp))) (right (stands.child (by simp)))
  | conditional _ _ _ _ asked first second =>
    rw [targets_node stands (by simp), idsOf, idsOf, idsOf_singleton, Arena.targets_append, Arena.targets_append,
      List.mem_append, List.mem_append] at points
    exact points.elim (asked (stands.child (by simp))) fun points =>
      points.elim (first (stands.child (by simp))) (second (stands.child (by simp)))

theorem count_targets (assembled : Assembled d leaf φ ty t) (stands : t.StandsIn d) {x : NodeId} {p : L → Bool} (each :
    ∀ l ty s, leaf l ty s → (d.targets s.ids).count x = (p l).toNat) : (d.targets t.ids).count x = φ.count p := by
  induction assembled with
  | leaf here => exact each _ _ _ here
  | number =>
    rw [targets_node stands (by simp)]
    rfl
  | binary _ _ _ _ left right =>
    rw [targets_node stands (by simp), idsOf, idsOf_singleton, Arena.targets_append, List.count_append,
      left (stands.child (by simp)), right (stands.child (by simp)), Formula.count]
  | conditional _ _ _ _ asked first second =>
    rw [targets_node stands (by simp), idsOf, idsOf, idsOf_singleton, Arena.targets_append, Arena.targets_append,
      List.count_append, List.count_append, asked (stands.child (by simp)), first (stands.child (by simp)),
      second (stands.child (by simp)), Formula.count, Nat.add_assoc]

end Assembled

namespace Slot

variable {a d : Arena} {slots : List Slot} {acc : Slot} {body t : Tree} {fold : NodeId}

namespace FunctionOver

theorem targets_eq (wraps : FunctionOver d slots body t) (stands : t.StandsIn d) :
    d.targets t.ids = d.targets body.ids := by
  obtain ⟨name, shape⟩ := wraps.shape
  have params : d.targets (idsOf (slots.map leaf)) = [] := by
    refine List.filterMap_eq_nil_iff.2 fun x listed => Option.eq_none_iff_forall_ne_some.2 fun y found => ?_
    rw [idsOf_leaves] at listed
    obtain ⟨slot, listed', rfl⟩ := List.mem_map.1 listed
    obtain ⟨_, held⟩ := Arena.of_target?_eq_some found
    cases (wraps.param stands listed').symm.trans held
  rw [shape] at stands
  rw [shape, targets_node stands (by simp), idsOf_append, idsOf_singleton, Arena.targets_append, params,
    List.nil_append]

theorem usesOnce (wraps : FunctionOver d (acc :: slots) body t) (stands : t.StandsIn d) (once : t.ids.Nodup)
    (count : (d.targets body.ids).count acc.id = 1) : d.UsesOnce t.id := by
  obtain ⟨name, held⟩ := wraps.function stands
  refine ⟨name, acc.id, slots.map Slot.id, body.id, held, ?_⟩
  rw [stands.descendants_eq once, wraps.targets_eq stands, count]

theorem enclosed (wraps : FunctionOver d slots body t) (stands : t.StandsIn d) (once : t.ids.Nodup) (each : ∀ y ∈
    d.targets body.ids, y ∈ slots.map Slot.id ∨ (y ∈ body.ids ∧ d.isBinder y = true) ∨ (y < a.size ∧ y ∉ a.descendants
    fold)) : a.Enclosed d fold t.id := by
  obtain ⟨name, held⟩ := wraps.function stands
  refine ⟨name, _, _, held, ?_⟩
  rw [stands.descendants_eq once, wraps.targets_eq stands]
  intro y points
  obtain param | ⟨inside, binder⟩ | outside := each y points
  · exact .inl param
  · exact .inr (.inl ⟨wraps.body_subset inside, binder⟩)
  · exact .inr (.inr outside)

end FunctionOver

end Slot

theorem Slot.Use.targets_eq {d : Arena} {slot : Slot} {t : Tree} (use : slot.Use d t) (stands : t.StandsIn d) :
    d.targets t.ids = [slot.id] := by
  obtain ⟨id, rfl, -⟩ := use
  rw [ids, idsOf, Arena.targets, List.filterMap_cons_some (Arena.target?_eq_some stands.held)]
  rfl

namespace Fold

variable {a d : Arena} {fold : Fold} {p q s t o o' : Tree} {acc row : Slot}

theorem Shown.enclosed {φ : Formula Unit} {ty : Ty} (shown : Shown d φ ty t) (stands : t.StandsIn d) (once : t.ids.Nodup)
    (single : φ.count (fun _ => true) = 1) (a : Arena) (node : NodeId) : d.UsesOnce t.id ∧ a.Enclosed d node t.id := by
  obtain ⟨acc, body, -, wraps, assembled⟩ := shown
  have standing := wraps.body_stands stands
  have assembled := assembled.within standing
  refine ⟨wraps.usesOnce stands once (single ▸ assembled.count_targets standing ?_),
    wraps.enclosed stands once fun y points => .inl ?_⟩
  · rintro _ ty l ⟨⟨-, use⟩, upright, -⟩
    rw [use.targets_eq upright, List.count_singleton_self]
    rfl
  · obtain ⟨_, ty, l, ⟨⟨-, use⟩, upright, -⟩, points⟩ := assembled.pointsTo standing points
    rw [use.targets_eq upright] at points
    simpa using points

def Leaf.isAccumulator : Leaf → Bool
  | accumulator => true
  | operand _ => false

theorem count_undoing (φ : Formula Leaf) (step : FoldStep) :
    (undoing φ step).count Leaf.isAccumulator = φ.count Leaf.isAccumulator := by
  obtain ⟨node, op, left, operand⟩ := step
  cases op <;> cases left <;> simp [undoing, Formula.count, Leaf.isAccumulator]

theorem count_unwound (steps : List FoldStep) (φ : Formula Leaf) :
    (steps.foldl undoing φ).count Leaf.isAccumulator = φ.count Leaf.isAccumulator := by
  induction steps generalizing φ with
  | nil => rfl
  | cons step steps ih => rw [List.foldl_cons, ih, count_undoing]

theorem count_chained (steps : List FoldStep) : (chained steps).count Leaf.isAccumulator = 0 := by
  fun_induction chained steps with
  | case1 | case2 => rfl
  | case3 _ _ _ _ ih | case4 _ _ _ _ ih => simp [Formula.count, Leaf.isAccumulator, ih]

theorem count_counted (chain op : Operator) (steps : List FoldStep) :
    (counted chain op steps).count Leaf.isAccumulator = 1 := by
  simp [counted, Worth.selected, Formula.count, count_chained, Leaf.isAccumulator]

theorem Free.count_targets {x : NodeId} (free : Free a x t.id) (stands : t.StandsIn a) (once : t.ids.Nodup) :
    (a.targets t.ids).count x = 0 := by
  rw [Free, stands.descendants_eq once] at free
  rw [List.count_eq_zero, Arena.mem_targets]
  rintro ⟨y, inside, found⟩
  obtain ⟨name, held⟩ := Arena.of_target?_eq_some found
  exact free y inside name held

theorem Spine.count_targets {x id : NodeId} {steps : List FoldStep} (spine : Spine a x id steps) (same : t.id = id)
    (stands : t.StandsIn a) (once : t.ids.Nodup) : (a.targets t.ids).count x = 1 := by
  have sides {op : Operator} {l r : NodeId} {t : Tree} (stands : t.StandsIn a) (once : t.ids.Nodup)
      (held : a.kind? t.id = some (.binary op l r)) : ∃ u v : Tree, u.id = l ∧ v.id = r ∧
        (∀ s ∈ [u, v], s.StandsIn a ∧ s.ids.Nodup) ∧
        (a.targets t.ids).count x = (a.targets u.ids).count x + (a.targets v.ids).count x := by
    obtain ⟨id, kind, parts⟩ := t
    cases held.symm.trans stands.held
    obtain ⟨u, more, rfl, rfl, more_slots⟩ := List.map_eq_cons_iff.1 stands.filled.symm
    obtain ⟨v, rfl, rfl⟩ := List.map_eq_singleton_iff.1 more_slots
    refine ⟨u, v, rfl, rfl, fun s part => ⟨stands.child part, (ids_sublist part).nodup once⟩, ?_⟩
    rw [targets_node stands (by simp), idsOf, idsOf_singleton, Arena.targets_append, List.count_append]
  induction spine generalizing t with
  | use held =>
    subst same
    obtain ⟨id, kind, parts⟩ := t
    cases held.symm.trans stands.held
    obtain rfl := List.map_eq_nil_iff.1 stands.filled.symm
    rw [ids, Arena.targets, List.filterMap_cons_some (Arena.target?_eq_some stands.held)]
    simp [idsOf]
  | left held known free rest ih =>
    subst same
    obtain ⟨u, v, rfl, rfl, each, count⟩ := sides stands once held
    obtain ⟨stand, stand'⟩ := each v (by simp)
    rw [count, ih rfl (each u (by simp)).1 (each u (by simp)).2, free.count_targets stand stand']
  | right held known free rest ih =>
    subst same
    obtain ⟨u, v, rfl, rfl, each, count⟩ := sides stands once held
    obtain ⟨stand, stand'⟩ := each u (by simp)
    rw [count, ih rfl (each v (by simp)).1 (each v (by simp)).2, free.count_targets stand stand']

section Making

variable (planted : fold.Planted a p q s) (old : ∀ y ∈ a.targets s.ids, y < a.size)
include planted old

theorem Planted.operand_old {step : FoldStep} (listed : step ∈ fold.steps) (same : o.id = step.other)
    (stands : o.StandsIn a) : ∀ y ∈ a.targets o.ids, y < a.size := by
  obtain ⟨o', same', stands', inside, -⟩ := planted.operand listed
  obtain rfl := stands.unique stands' (same.trans same'.symm)
  exact fun y points => old y ((inside.filterMap _).subset points)

theorem OperandCopy.count_targets {step : FoldStep} (listed : step ∈ fold.steps) (copy : fold.OperandCopy a d row step o')
    (fresh : a.size ≤ acc.id) (other : acc.id ≠ row.id) (apart : acc.id ∉ o'.ids) :
    (d.targets o'.ids).count acc.id = 0 := by
  obtain ⟨o, same, stands, copy⟩ := copy
  rw [List.count_eq_zero]
  intro points
  obtain ⟨x, pointed, ⟨r, found, here⟩ | ⟨-, inside, -⟩ | ⟨-, -, rfl⟩⟩ := copy.targets_cases stands points
  · rw [getElem?_single] at found
    split at found
    · cases found
      exact other here
    · cases found
  · exact apart inside
  · exact absurd (planted.operand_old old listed same stands _ pointed) (Nat.not_lt.2 fresh)

theorem Reworked.usesOnce {ty : Ty} {φ : Formula Leaf} (reworked : fold.Reworked a d ty φ t) (grown : Grown a d t)
    (single : φ.count Leaf.isAccumulator = 1) : d.UsesOnce t.id := by
  obtain ⟨acc, row, body, -, -, wraps, assembled⟩ := reworked
  have anew : Slot.Anew a d acc row body t := ⟨grown, wraps⟩
  obtain ⟨other, apart, -⟩ := anew.apart
  refine wraps.usesOnce grown.stands grown.once (single ▸ (assembled.within anew.body_stands).count_targets anew.body_stands ?_)
  rintro _ _ l ⟨leaf, upright, inside⟩
  cases leaf with
  | use used =>
    rw [used.targets_eq upright, List.count_singleton_self]
    rfl
  | operand listed copy =>
    exact copy.count_targets planted old listed (anew.beyond (by simp)) other fun below => apart (inside _ below)

theorem Repeated.usesOnce (repeated : fold.Repeated a d t) (grown : Grown a d t) : d.UsesOnce t.id := by
  obtain ⟨acc, row, s', body, -, -, wraps, same, stands', f, copied, rfl⟩ := repeated
  obtain rfl := stands'.unique planted.body_stands (same.trans planted.body.symm)
  obtain ⟨toAcc, -⟩ := planted.redirected copied
  have only : ∀ x ∈ a.targets s'.ids, f x = f fold.accumulator → x = fold.accumulator := fun x pointed here =>
    planted.only_accumulator ⟨grown, wraps⟩ copied (old x pointed) (here.trans toAcc)
  refine wraps.usesOnce grown.stands grown.once ?_
  have spine := planted.spine
  rw [copied.targets stands', ← toAcc, ← spine.count_targets planted.body stands' planted.body_once]
  generalize a.targets s'.ids = pointed at only
  induction pointed with
  | nil => rfl
  | cons x rest ih =>
    rw [List.forall_mem_cons] at only
    rw [List.map_cons, List.count_cons, List.count_cons, ih only.2]
    by_cases here : x = fold.accumulator
    · simp [here]
    · have away : f x ≠ f fold.accumulator := fun same => here (only.1 same)
      simp [here, away]

end Making

section Enclosing

variable (clear : fold.Clear a p q s) (anchored : a.Anchored fold.node)
include clear anchored

theorem anchored_body {y : NodeId} (points : y ∈ a.targets s.ids) :
    y ≠ fold.node ∧ y < a.size ∧ (y ∈ a.descendants fold.node → a.isBinder y = true) := by
  refine anchored.target y ?_
  obtain ⟨x, inside, found⟩ := Arena.mem_targets.1 points
  refine Arena.mem_targets.2 ⟨x, ?_, found⟩
  simp [clear.descendants_eq, inside]

theorem OperandCopy.enclosed (inScope : fold.Scoped a) {step : FoldStep} (isStep : step ∈ fold.steps)
    (copy : fold.OperandCopy a d row step o') {y : NodeId} (points : y ∈ d.targets o'.ids) : y = row.id ∨
    (y ∈ o'.ids ∧ d.isBinder y = true) ∨ (y < a.size ∧ y ∉ a.descendants fold.node) := by
  obtain ⟨o, same, stands, copy⟩ := copy
  obtain ⟨o₁, same₁, stands₁, inside, -⟩ := clear.operand isStep
  obtain rfl := stands.unique stands₁ (same.trans same₁.symm)
  have below : a.descendants step.other = o.ids := same ▸ stands.descendants_eq (inside.nodup clear.body_once)
  obtain ⟨x, pointed, place⟩ := copy.targets_cases stands points
  obtain ⟨-, there, binds⟩ := anchored_body clear anchored ((inside.filterMap _).subset pointed)
  have within : x ∈ o.ids → x ∈ a.descendants fold.node := fun own => by
    simp [clear.descendants_eq, inside.subset own]
  obtain ⟨r, found, rfl⟩ | ⟨own, copied, alike⟩ | ⟨notOwn, notRow, rfl⟩ := place
  · rw [getElem?_single] at found
    split at found
    · cases found
      exact .inl rfl
    · cases found
  · exact .inr (.inl ⟨copied, alike.trans (binds (within own))⟩)
  · refine .inr (.inr ⟨there, fun inFold => ?_⟩)
    obtain ⟨z, inner, found⟩ := Arena.mem_targets.1 pointed
    obtain own | rfl := inScope step isStep z (below ▸ inner) y found inFold
    · exact notOwn (below ▸ own)
    · rw [getElem?_single, if_pos rfl] at notRow
      cases notRow

theorem Reworked.enclosed (inScope : fold.Scoped a) {ty : Ty} {φ : Formula Leaf} (reworked : fold.Reworked a d ty φ t)
    (stands : t.StandsIn d) (once : t.ids.Nodup) : a.Enclosed d fold.node t.id := by
  obtain ⟨acc, row, body, -, -, wraps, assembled⟩ := reworked
  have standing := wraps.body_stands stands
  refine wraps.enclosed stands once fun y points => ?_
  obtain ⟨_, ty, l, ⟨leaf, upright, inside⟩, points⟩ := (assembled.within standing).pointsTo standing points
  cases leaf with
  | use used =>
    rw [used.targets_eq upright] at points
    exact .inl (by simpa using Or.inl (List.mem_singleton.1 points))
  | operand isStep copy =>
    obtain rfl | ⟨own, binder⟩ | outside := copy.enclosed clear anchored inScope isStep points
    · exact .inl (by simp)
    · exact .inr (.inl ⟨inside y own, binder⟩)
    · exact .inr (.inr outside)

theorem Repeated.enclosed (repeated : fold.Repeated a d t) (stands : t.StandsIn d) (once : t.ids.Nodup) :
    a.Enclosed d fold.node t.id := by
  obtain ⟨acc, row, s', body, -, -, wraps, same, stands', copy⟩ := repeated
  obtain rfl := stands'.unique clear.body_stands (same.trans clear.body.symm)
  refine wraps.enclosed stands once fun y points => ?_
  obtain ⟨x, pointed, place⟩ := copy.targets_cases stands' points
  obtain ⟨notNode, there, binds⟩ := anchored_body clear anchored pointed
  obtain ⟨r, found, rfl⟩ | ⟨own, copied, alike⟩ | ⟨notOwn, notParam, rfl⟩ := place
  · rw [getElem?_params] at found
    split at found
    · cases found
      exact .inl (by simp [Slot.redirect])
    · split at found
      · cases found
        exact .inl (by simp [Slot.redirect])
      · cases found
  · exact .inr (.inl ⟨copied, alike.trans (binds (by simp [clear.descendants_eq, own]))⟩)
  · refine .inr (.inr ⟨there, fun inFold => ?_⟩)
    rw [getElem?_params] at notParam
    simp only [clear.descendants_eq, List.mem_cons] at inFold
    obtain node | acc | row | inside := inFold
    · exact notNode node
    · rw [acc, if_neg clear.accumulator_ne_row.symm, if_pos rfl] at notParam
      cases notParam
    · rw [row, if_pos rfl] at notParam
      cases notParam
    · exact notOwn inside

end Enclosing

end Fold

/-- The nodes of `(acc, row) => (acc + (let x = row.size; x)) * limit`, where `limit` is assigned outside. -/
def limited : Arena := ⟨#[
  ⟨.number 3, none, none⟩,
  ⟨.assignment "limit" 0, none, none⟩,
  ⟨.param "acc" none, none, none⟩,
  ⟨.param "row" none, none, none⟩,
  ⟨.reference 3 "row", none, none⟩,
  ⟨.identifier "size", none, none⟩,
  ⟨.access 4 5, none, none⟩,
  ⟨.reference 8 "x", none, none⟩,
  ⟨.binding "x" 6 7, none, none⟩,
  ⟨.reference 2 "acc", none, none⟩,
  ⟨.binary .add 9 8, none, none⟩,
  ⟨.reference 1 "limit", none, none⟩,
  ⟨.binary .mul 10 11, some .number, none⟩,
  ⟨.function none [2, 3] 12, none, none⟩]⟩

def limitedMade : Workspace Unit := (invertFold 13 0 0 : Pass RowsError Unit NodeId).after ⟨limited, ()⟩

/-- The nodes of `(acc, row) => (acc + (let x = 2; x)) * x`, whose last operand refers to what the first one
binds. -/
def lent : Arena := ⟨#[
  ⟨.param "acc" none, none, none⟩,
  ⟨.param "row" none, none, none⟩,
  ⟨.number 2, none, none⟩,
  ⟨.reference 4 "x", none, none⟩,
  ⟨.binding "x" 2 3, none, none⟩,
  ⟨.reference 0 "acc", none, none⟩,
  ⟨.binary .add 5 4, none, none⟩,
  ⟨.reference 4 "x", none, none⟩,
  ⟨.binary .mul 6 7, some .number, none⟩,
  ⟨.function none [0, 1] 8, none, none⟩]⟩

def lentMade : Workspace Unit := (invertFold 9 2 2 : Pass RowsError Unit NodeId).after ⟨lent, ()⟩

end DerivedTables
