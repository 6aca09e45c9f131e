import DerivedTables.Proofs.Eval.Exact
import DerivedTables.Proofs.Eval.Mirrored
import DerivedTables.Proofs.Rows.Enclosed

/-!
The forward function of a fold of numbers does what the fold does, faults included.
-/

namespace DerivedTables

open Tree

namespace Arena

/-- Evaluation that has come upon one node may come upon the other next. -/
def Onward (a : Arena) (q r : Approach × NodeId) : Prop := ∃ k, a.kind? q.2 = some k ∧ r ∈ k.onward q.1

/-- Evaluation that comes upon the node may come upon the others. -/
def Ahead (a : Arena) (y : NodeId) (q : Approach × NodeId) : Prop := Relation.ReflTransGen a.Onward (.name, y) q

/-- References at or below the node do not lead back to it: none names it, and what they lead to outside of it does
not come upon any part of it. -/
structure Departs (a : Arena) (node : NodeId) : Prop where
  other : node ∉ a.targets (a.descendants node)
  away : ∀ y ∈ a.targets (a.descendants node), y ∉ a.descendants node → ∀ q, a.Ahead y q → q.2 ∉ a.descendants node

/-- The parameters of the function at the node are parameters, and what its references lead to outside of it is
there. -/
structure Supplied (a : Arena) (node : NodeId) : Prop where
  params : ∀ {name ps body}, a.kind? node = some (.function name ps body) →
    ∀ p ∈ ps, ∃ n t, a.kind? p = some (.param n t)
  there : ∀ y ∈ a.targets (a.descendants node), y ∉ a.descendants node → ∀ q, a.Ahead y q → q.2 < a.size

theorem Ahead.mem {a : Arena} {y : NodeId} {q : Approach × NodeId} (ahead : a.Ahead y q)
    {seen : List (Approach × NodeId)} (start : (.name, y) ∈ seen)
    (closed : ∀ q ∈ seen, ∀ r ∈ (a.kind? q.2).elim [] (Kind.onward q.1), r ∈ seen) : q ∈ seen := by
  induction ahead with
  | refl => exact start
  | tail _ onward ih =>
    obtain ⟨k, held, next⟩ := onward
    exact closed _ ih _ (by simpa [held] using next)

end Arena

namespace Fold

variable {a d : Arena} {fold : Fold} {p q s t : Tree} {how : Approach} {x : NodeId}

inductive Met (a : Arena) (fold : Fold) (s : Tree) : Approach → NodeId → Prop
  | inside {how : Approach} {x : NodeId} (within : x ∈ s.ids) : Met a fold s how x
  | param {x : NodeId} (listed : x ∈ [fold.accumulator, fold.row]) : Met a fold s .name x
  | outside {how : Approach} {x y : NodeId} (pointed : y ∈ a.targets s.ids) (beyond : y ∉ a.descendants fold.node)
    (leads : a.Ahead y (how, x)) : Met a fold s how x

structure Detached (a : Arena) (fold : Fold) (p q s : Tree) : Prop extends fold.Clear a p q s where
  departs : a.Departs fold.node
  supplied : a.Supplied fold.node

section

variable (detached : fold.Detached a p q s)
include detached

theorem Detached.pointed {y : NodeId} (points : y ∈ a.targets s.ids) : y ∈ a.targets (a.descendants fold.node) := by
  obtain ⟨x, inside, found⟩ := Arena.mem_targets.1 points
  refine Arena.mem_targets.2 ⟨x, ?_, found⟩
  simp [detached.descendants_eq, inside]

theorem Detached.apart {y : NodeId} (points : y ∈ a.targets s.ids) (beyond : y ∉ a.descendants fold.node)
    (leads : a.Ahead y (how, x)) : x < a.size ∧ x ∉ fold.accumulator :: fold.row :: s.ids := by
  have pointed := detached.pointed points
  have apart := detached.departs.away y pointed beyond _ leads
  rw [detached.descendants_eq, List.mem_cons, not_or] at apart
  exact ⟨detached.supplied.there y pointed beyond _ leads, apart.2⟩

theorem Met.onward {k : Kind} {r : Approach × NodeId} (met : Met a fold s how x) (held : a.kind? x = some k)
    (next : r ∈ k.onward how) : Met a fold s r.1 r.2 := by
  cases met with
  | inside within =>
    obtain child | ⟨target, name, rfl, rfl⟩ := Kind.mem_children_of_mem_onward next
    · exact .inside (detached.body_stands.whole.child x within k held _ child)
    · have pointed : target ∈ a.targets s.ids := Arena.mem_targets.2 ⟨x, within, Arena.target?_eq_some held⟩
      by_cases below : target ∈ a.descendants fold.node
      · rw [detached.descendants_eq] at below
        simp only [List.mem_cons] at below
        obtain rfl | rfl | rfl | below := below
        · exact absurd (detached.pointed pointed) detached.departs.other
        · exact .param (by simp)
        · exact .param (by simp)
        · exact .inside below
      · exact .outside pointed below .refl
  | param isParam =>
    obtain ⟨_, _, held'⟩ := detached.param _ isParam
    cases held.symm.trans held'
    cases next
  | outside pointed beyond leads => exact .outside pointed beyond (leads.tail ⟨k, held, next⟩)

theorem Met.cases_part (met : Met a fold s how x) : x ∈ fold.accumulator :: fold.row :: s.ids ∨
    x < a.size ∧ x ∉ fold.accumulator :: fold.row :: s.ids := by
  cases met with
  | inside within => exact .inl (by simp [within])
  | param isParam => exact .inl (List.mem_append_left s.ids isParam)
  | outside pointed beyond leads => exact .inr (detached.apart pointed beyond leads)

/-- Whatever is met is alike to what it has become in the function that repeats the fold. -/
theorem Repeated.mirror {acc row : Slot} {f : NodeId → NodeId} (anew : Slot.Anew a d acc row (s.renamed d f) t)
    (copied : CopiedBy a d ((∅ : Redirects).insert fold.accumulator acc.redirect |>.insert fold.row row.redirect) s f) :
    d.Mirror d (fun how x y => Met a fold s how x ∧ y = f x) (· ∈ [fold.accumulator, fold.row]) := by
  obtain ⟨toAcc, toRow⟩ := detached.redirected copied
  have image : t.ids = t.id :: (fold.accumulator :: fold.row :: s.ids).map f := by
    simp only [anew.wraps.ids_eq, ids_renamed, List.map_cons, toAcc, toRow]
    rfl
  have kept := anew.larger
  have once := anew.once
  have fresh := anew.fresh
  rw [image] at once fresh
  have stays : ∀ x ∉ fold.accumulator :: fold.row :: s.ids, f x = x := by
    intro x apart
    simp only [List.mem_cons, not_or] at apart
    exact copied.other x apart.2.2 (by rw [getElem?_params, if_neg (Ne.symm apart.2.1), if_neg (Ne.symm apart.1)])
  have injective := List.inj_on_of_nodup_map (List.nodup_cons.1 once).2
  have made : ∀ x ∈ fold.accumulator :: fold.row :: s.ids, a.size ≤ f x := fun x part =>
    fresh _ (.tail _ (List.mem_map_of_mem part))
  refine ⟨?_, ?_⟩
  · rintro how how' x x' _ _ ⟨met, rfl⟩ ⟨met', rfl⟩
    refine ⟨congrArg f, fun same => ?_⟩
    obtain part | ⟨there, apart⟩ := met.cases_part detached
    · obtain part' | ⟨there', apart'⟩ := met'.cases_part detached
      · exact injective part part' same
      · rw [stays x' apart'] at same
        exact absurd (same ▸ made x part) (Nat.not_le.2 there')
    · obtain part' | ⟨there', apart'⟩ := met'.cases_part detached
      · rw [stays x apart] at same
        exact absurd (same ▸ made x' part') (Nat.not_le.2 there)
      · rw [← stays x apart, same, stays x' apart']
  · rintro how x _ ⟨met, rfl⟩
    have onward {k : Kind} (held : a.kind? x = some k) (r : Approach × NodeId) (next : r ∈ k.onward how) :=
      met.onward detached held next
    cases met with
    | inside within =>
      obtain ⟨k, held⟩ := Arena.exists_kind?_of_lt (detached.body_stands.lt_size x within)
      obtain ⟨l, copy, renames⟩ := copied.rendered.renames x within k held
      refine ⟨k, l, kept.kind_of_some held, copy, ?_⟩
      cases renames with
      | same => exact .same k f fun r next => ⟨onward held r next, rfl⟩
      | reference target name other =>
        have named := onward held (.name, target) (by cases how <;> simp)
        by_cases isParam : target ∈ [fold.accumulator, fold.row]
        · exact .read name other ⟨named, rfl⟩ isParam
        · simp only [List.mem_cons, List.not_mem_nil, or_false, not_or] at isParam
          have same := copied.named x within target name held (by
            rw [getElem?_params, if_neg (Ne.symm isParam.2), if_neg (Ne.symm isParam.1)])
          cases copy.symm.trans same
          exact .same (.reference target name) f fun r next => ⟨onward held r next, rfl⟩
    | param isParam =>
      obtain ⟨name, ty, held⟩ := detached.param x isParam
      obtain ⟨slot, made, same⟩ : ∃ slot ∈ [acc, row], f x = slot.id := by
        simp only [List.mem_cons, List.not_mem_nil, or_false] at isParam
        obtain rfl | rfl := isParam
        · exact ⟨acc, by simp, toAcc⟩
        · exact ⟨row, by simp, toRow⟩
      rw [same]
      exact ⟨_, _, kept.kind_of_some held, anew.wraps.param anew.stands made, .param _ _ _ _⟩
    | outside pointed beyond leads =>
      obtain ⟨there, apart⟩ := detached.apart pointed beyond leads
      obtain ⟨k, held⟩ := Arena.exists_kind?_of_lt there
      refine ⟨k, k, kept.kind_of_some held, by rw [stays x apart, kept.kind_of_some held], .self fun r next => ?_⟩
      have further := leads.tail ⟨k, held, next⟩
      exact ⟨.outside pointed beyond further, (stays _ (detached.apart pointed beyond further).2).symm⟩

theorem Repeated.call_eq {N : Type} [Arithmetic N] (grown : Grown a d t) (repeated : fold.Repeated a d t)
    (context : List (String × Value N)) (depth : Nat) (u v : Value N) :
    (Setting.fresh (Setting.callWithin ⟨d, context⟩ depth fold.node [u, v])).mapError Fault.unlocated =
    (Setting.fresh (Setting.callWithin ⟨d, context⟩ depth t.id [u, v])).mapError Fault.unlocated := by
  obtain ⟨acc, row, s', body, -, -, wraps, same, stands', f, copied, rfl⟩ := repeated
  obtain rfl := stands'.unique detached.body_stands (same.trans detached.body.symm)
  obtain ⟨toAcc, toRow⟩ := detached.redirected copied
  obtain ⟨name, standing⟩ := detached.stands
  obtain ⟨name', held⟩ := wraps.function grown.stands
  have mirror := Repeated.mirror detached ⟨grown, wraps⟩ copied
  refine Arena.Mirror.call_eq (s := ⟨d, context⟩) (t := ⟨d, context⟩) mirror rfl (grown.larger.kind_of_some standing.held) held
    ⟨.inside ?_, ?_⟩ rfl rfl ⟨?_, ?_⟩ depth
  · exact detached.body ▸ s'.id_mem_ids
  · rw [id_renamed, detached.body]
  · rintro how x _ ⟨met, rfl⟩
    have toAcc' := mirror.unique ⟨.param (show fold.accumulator ∈ _ by simp), rfl⟩ ⟨met, rfl⟩
    have toRow' := mirror.unique ⟨.param (show fold.row ∈ _ by simp), rfl⟩ ⟨met, rfl⟩
    simp only [List.map, ← toAcc, ← toRow, Setting.getElem?_bound_two, toAcc', toRow']
  · intro x isParam
    simp only [List.mem_cons, List.not_mem_nil, or_false] at isParam
    rw [Setting.getElem?_bound_two]
    obtain rfl | rfl := isParam
    · rw [if_neg (Ne.symm detached.accumulator_ne_row), if_pos rfl]
      exact ⟨u, rfl⟩
    · rw [if_pos rfl]
      exact ⟨v, rfl⟩

end

end Fold

variable {ω : Type} {w w' : Workspace ω} {node source initial r : NodeId}

/-- A fold of numbers is called as its forward function is, with the same value or the same fault, if its references
do not lead back to it. -/
theorem forward_eq_fold (shaped : w.arena.TreeShaped node) (departs : w.arena.Departs node)
    (supplied : w.arena.Supplied node)
    (number : ∀ name params body, w.arena.kind? node = some (.function name params body) →
      (w.arena.ty? body).map Ty.effective = some .number)
    (done : (invertFold node source initial : Pass RowsError ω NodeId) w = .ok r w') :
    ∃ g, Aggregate.of? w'.arena r = some g ∧
      ∀ (N : Type) [Arithmetic N] (context : List (String × Value N)) (depth : Nat) (acc row : Value N),
        (Setting.fresh (Setting.callWithin ⟨w'.arena, context⟩ depth g.forward [acc, row])).mapError Fault.unlocated =
          (Setting.fresh (Setting.callWithin ⟨w'.arena, context⟩ depth node [acc, row])).mapError Fault.unlocated := by
  obtain ⟨t, rfl, stands, once, listed⟩ := shaped.exists_tree
  obtain ⟨fold, p, q, s, forward, inverse, view, ty, -, same, planted, parts, inverted⟩ :=
    ((invertFold_inverted stands once source initial).ok done).2 _ (.refl _)
  obtain ⟨start, held, -⟩ := inverted.held
  rw [← same] at departs supplied listed number ⊢
  obtain ⟨name, standing⟩ := planted.stands
  have detached : fold.Detached w.arena p q s :=
    ⟨⟨planted, listed.trans parts, supplied.params standing.held⟩, departs, supplied⟩
  cases inverted.body.symm.trans (number _ _ _ standing.held)
  refine ⟨⟨source, start, forward.id, inverse.id, view.id⟩, by simp [Aggregate.of?, held], ?_⟩
  intro N _ context depth acc row
  cases inverted.functions with
  | numeric arithmetic first =>
    exact (first.call_eq detached (inverted.grown.part (by simp)) context depth acc row).symm

/-- The nodes of `(acc, row) => acc + (let x = scale(row.size); x)`, where `scale` is assigned `z => z * 2`. -/
def scaled : Arena := ⟨#[
  ⟨.param "z" none, none, none⟩,
  ⟨.reference 0 "z", none, none⟩,
  ⟨.number 2, none, none⟩,
  ⟨.binary .mul 1 2, none, none⟩,
  ⟨.function none [0] 3, none, none⟩,
  ⟨.assignment "scale" 4, none, none⟩,
  ⟨.param "acc" none, none, none⟩,
  ⟨.param "row" none, none, none⟩,
  ⟨.reference 7 "row", none, none⟩,
  ⟨.identifier "size", none, none⟩,
  ⟨.access 8 9, none, none⟩,
  ⟨.reference 5 "scale", none, none⟩,
  ⟨.invoke 11 [10], none, none⟩,
  ⟨.reference 14 "x", none, none⟩,
  ⟨.binding "x" 12 13, none, none⟩,
  ⟨.reference 6 "acc", none, none⟩,
  ⟨.binary .add 15 14, some .number, none⟩,
  ⟨.function none [6, 7] 16, none, none⟩]⟩

def scaledMade : Workspace Unit := (invertFold 17 2 2 : Pass RowsError Unit NodeId).after ⟨scaled, ()⟩

def Setting.outcome? {N : Type} : Except Fault (Value N) → Option (N ⊕ Fault)
  | .ok (.number n) => some (.inl n)
  | .ok _ => none
  | .error fault => some (.inr fault)

theorem scaled_forward_eq_fold :
    scaled.TreeShaped 17 ∧ scaled.Departs 17 ∧ scaled.Supplied 17 ∧
      ∃ g, Aggregate.of? scaledMade.arena 45 = some g ∧
        Setting.outcome? ((Setting.fresh (Setting.callWithin ⟨scaledMade.arena, []⟩ 9 g.forward
          [.number (10 : ℚ), .object [("size", .number 3)]])).mapError Fault.unlocated) = some (.inl 16) ∧
        Setting.outcome? ((Setting.fresh (Setting.callWithin ⟨scaledMade.arena, []⟩ 9 g.forward
          [.number (10 : ℚ), .object []])).mapError Fault.unlocated) = some (.inr (.missingField 0 "size")) := by
  have shaped : scaled.TreeShaped 17 := by decide
  have held : scaled.kind? 17 = some (.function none [6, 7] 16) := rfl
  -- The only reference to the outside leads through the assignment to its function.
  have outside : ∀ y ∈ scaled.targets (scaled.descendants 17), y ∉ scaled.descendants 17 → y = 5 := by decide
  have apart : ∀ q ∈ [(.name, 5), (.value, 4), (.name, 4), (.value, 3), (.name, 0), (.value, 1), (.value, 2)],
      Prod.snd (α := Approach) q < scaled.size ∧ q.2 ∉ scaled.descendants 17 := by decide
  have seen {y : NodeId} (points : y ∈ scaled.targets (scaled.descendants 17)) (beyond : y ∉ scaled.descendants 17)
      {q : Approach × NodeId} (ahead : scaled.Ahead y q) : q.2 < scaled.size ∧ q.2 ∉ scaled.descendants 17 :=
    apart q (ahead.mem (outside y points beyond ▸ by simp) (by decide))
  have departs : scaled.Departs 17 := ⟨by decide, fun _ points beyond _ ahead => (seen points beyond ahead).2⟩
  have supplied : scaled.Supplied 17 := by
    refine ⟨fun held' => ?_, fun _ points beyond _ ahead => (seen points beyond ahead).1⟩
    cases held.symm.trans held'
    simpa using ⟨⟨_, _, rfl⟩, ⟨_, _, rfl⟩⟩
  have done : (invertFold 17 2 2 : Pass RowsError Unit NodeId) ⟨scaled, ()⟩ = .ok 45 scaledMade :=
    @Pass.run_eq_ok _ _ _ (invertFold 17 2 2) ⟨scaled, ()⟩ 45 (by decide +kernel)
  obtain ⟨g, made, same⟩ := forward_eq_fold shaped departs supplied
    (fun _ _ _ held' => by cases held.symm.trans held'; decide) done
  refine ⟨shaped, departs, supplied, g, made, ?_, ?_⟩
  · rw [same]
    decide +kernel
  · rw [same]
    decide +kernel

/-- The nodes of `(acc, row) => acc + row(1)`, where the function `z => z` stands for the parameter `row`. -/
def applied : Arena := ⟨#[
  ⟨.param "z" none, none, none⟩,
  ⟨.reference 0 "z", none, none⟩,
  ⟨.function none [0] 1, none, none⟩,
  ⟨.param "acc" none, none, none⟩,
  ⟨.reference 3 "acc", none, none⟩,
  ⟨.reference 2 "row", none, none⟩,
  ⟨.number 1, none, none⟩,
  ⟨.invoke 5 [6], none, none⟩,
  ⟨.binary .add 4 7, some .number, none⟩,
  ⟨.function none [3, 2] 8, none, none⟩,
  ⟨.null, none, none⟩,
  ⟨.number 0, none, none⟩]⟩

def appliedMade : Workspace Unit := (invertFold 9 10 11 : Pass RowsError Unit NodeId).after ⟨applied, ()⟩

/-- The nodes of `(acc, row) => acc + later`, where `later` is the node that is made next. -/
def awaiting : Arena := ⟨#[
  ⟨.null, none, none⟩,
  ⟨.number 0, none, none⟩,
  ⟨.param "acc" none, none, none⟩,
  ⟨.param "row" none, none, none⟩,
  ⟨.reference 2 "acc", none, none⟩,
  ⟨.reference 8 "later", none, none⟩,
  ⟨.binary .add 4 5, some .number, none⟩,
  ⟨.function none [2, 3] 6, none, none⟩]⟩

def awaitingMade : Workspace Unit := (invertFold 7 0 1 : Pass RowsError Unit NodeId).after ⟨awaiting, ()⟩

/-- A fold that calls its own parameter has a value where its forward function has none, and one that refers to what
is not there yet has none where its forward function has one. -/
theorem forward_ne_fold :
    (applied.TreeShaped 9 ∧ applied.Departs 9 ∧
      (invertFold 9 10 11 : Pass RowsError Unit NodeId) ⟨applied, ()⟩ = .ok 31 appliedMade ∧
      Aggregate.of? appliedMade.arena 31 = some ⟨10, 11, 19, 27, 30⟩ ∧
      Setting.outcome? ((Setting.fresh (Setting.callWithin ⟨appliedMade.arena, []⟩ 9 9
        [.number (1 : ℚ), .number 5])).mapError Fault.unlocated) = some (.inl 2) ∧
      Setting.outcome? ((Setting.fresh (Setting.callWithin ⟨appliedMade.arena, []⟩ 9 19
        [.number (1 : ℚ), .number 5])).mapError Fault.unlocated) =
          some (.inr (.mismatch 0 "function" "parameter"))) ∧
    awaiting.TreeShaped 7 ∧ awaiting.Departs 7 ∧
      (invertFold 7 0 1 : Pass RowsError Unit NodeId) ⟨awaiting, ()⟩ = .ok 23 awaitingMade ∧
      Aggregate.of? awaitingMade.arena 23 = some ⟨0, 1, 13, 19, 22⟩ ∧
      Setting.outcome? ((Setting.fresh (Setting.callWithin ⟨awaitingMade.arena, []⟩ 9 7
        [.number (1 : ℚ), .number 5])).mapError Fault.unlocated) = some (.inr (.unbound 0 "later")) ∧
      Setting.outcome? ((Setting.fresh (Setting.callWithin ⟨awaitingMade.arena, []⟩ 9 13
        [.number (1 : ℚ), .number 5])).mapError Fault.unlocated) = some (.inl 2) := by
  have inner : ∀ y ∈ applied.targets (applied.descendants 9), y ∈ applied.descendants 9 := by decide
  have ahead : ∀ y ∈ awaiting.targets (awaiting.descendants 7), y ∉ awaiting.descendants 7 → y = 8 := by decide
  refine ⟨⟨by decide, ⟨by decide, fun y points beyond => absurd (inner y points) beyond⟩,
    @Pass.run_eq_ok _ _ _ (invertFold 9 10 11) ⟨applied, ()⟩ 31 (by decide +kernel), by decide +kernel,
    by decide +kernel, by decide +kernel⟩, by decide, ⟨by decide, fun y points beyond q reached => ?_⟩,
    @Pass.run_eq_ok _ _ _ (invertFold 7 0 1) ⟨awaiting, ()⟩ 23 (by decide +kernel), by decide +kernel,
    by decide +kernel, by decide +kernel⟩
  obtain rfl := ahead y points beyond
  have only : q ∈ [(Approach.name, 8)] := reached.mem (by simp) (by decide)
  obtain rfl := List.mem_singleton.1 only
  exact beyond

end DerivedTables
