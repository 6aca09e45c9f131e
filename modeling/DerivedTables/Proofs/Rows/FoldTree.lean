import DerivedTables.Proofs.Rows.Spine
import DerivedTables.Proofs.Tree.Renamed
import DerivedTables.Proofs.Tree.WellFormed
import DerivedTables.Rows.Recognition

/-!
Folds as trees.
-/

namespace DerivedTables

def RowsError.isFoldError : RowsError → Bool
  | accumulatorUnused _ | accumulatorReused .. | notInvertible .. | unsupportedResult .. | booleanWithoutOperator _
  | mixedChain _ => true
  | _ => false

theorem RowsError.not_dangling {e : RowsError} (fold : e.isFoldError = true) : ¬ Dangling e := by
  rintro ⟨_, rfl⟩
  cases fold

open Tree

variable {tables known : Set NodeId} {a : Arena} {t : Tree}

namespace Tree

theorem Grounded.without (grounded : t.Grounded tables known) (stands : t.StandsIn a) {x : NodeId}
    (free : ∀ y ∈ t.ids, ∀ name, a.kind? y ≠ some (.reference x name)) : t.Grounded tables (known \ {x}) := by
  have below {id : NodeId} {kind : Kind} {parts : List Tree}
      (free : ∀ y ∈ (node id kind parts).ids, ∀ name, a.kind? y ≠ some (.reference x name)) :
      ∀ s ∈ parts, ∀ y ∈ s.ids, ∀ name, a.kind? y ≠ some (.reference x name) :=
    fun s part y inside => free y (.tail _ (mem_idsOf.2 ⟨s, part, inside⟩))
  induction grounded with
  | binding _ _ boundIH followsIH =>
    refine .binding (boundIH (stands.child (by simp)) (below free _ (by simp))) ?_
    refine (followsIH (stands.child (by simp)) (below free _ (by simp))).mono ?_
    rintro y ⟨rfl | outer, other⟩
    · exact Set.mem_insert ..
    · exact Set.mem_insert_of_mem _ ⟨outer, other⟩
  | @other known id kind parts sees _ ih =>
    refine .other ?_ fun t part => (ih t part (stands.child part) (below free _ part)).mono ?_
    · cases kind with
      | reference target shown =>
        refine ⟨sees, ?_⟩
        rintro rfl
        exact free id (by simp [ids]) shown stands.held
      | _ => exact sees
    · rintro y ⟨outer | inner, other⟩
      · exact .inl ⟨outer, other⟩
      · exact .inr inner

theorem StandsIn.operands {op : Operator} {x y : NodeId} (stands : t.StandsIn a)
    (held : a.kind? t.id = some (.binary op x y)) : ∃ l r : Tree, l.id = x ∧ r.id = y ∧ ∀ s ∈ [l, r], s.StandsIn a ∧
    s.ids.Sublist t.ids ∧ ∀ {tables known}, t.Grounded tables known → s.Grounded tables known := by
  obtain ⟨id, kind, parts⟩ := t
  cases held.symm.trans stands.held
  obtain ⟨l, more, rfl, rfl, more_slots⟩ := List.map_eq_cons_iff.1 stands.filled.symm
  obtain ⟨r, _, rfl, rfl, last⟩ := List.map_eq_cons_iff.1 more_slots
  obtain rfl := List.map_eq_nil_iff.1 last
  exact ⟨l, r, rfl, rfl, fun s part => ⟨stands.child part, ids_sublist part, fun grounded =>
    grounded.parts rfl s part⟩⟩

end Tree

namespace Slot

def leaf (slot : Slot) : Tree := node slot.id (.param slot.name (some slot.ty)) []

theorem leaf_isParam (slot : Slot) : slot.leaf.IsParam := ⟨_, _, _, rfl⟩

end Slot

namespace Fold

variable {fold : Fold}

section Finding

variable {steps : List FoldStep} {acc id : NodeId}

theorem Spine.operand (spine : Spine a acc id steps) (same : t.id = id) (stands : t.StandsIn a)
    (grounded : t.Grounded tables known) : ∀ step ∈ steps, ∃ s : Tree, s.id = step.other ∧ s.StandsIn a ∧ s.ids.Sublist
    t.ids ∧ s.Grounded tables known ∧ Free a acc s.id := by
  induction spine generalizing t with
  | use held => simp
  | left held _ free _ ih =>
    subst same
    obtain ⟨l, r, rfl, rfl, each⟩ := stands.operands held
    have left := each l (by simp)
    have right := each r (by simp)
    refine List.forall_mem_cons.2 ⟨⟨r, rfl, right.1, right.2.1, right.2.2 grounded, free⟩, fun step listed => ?_⟩
    obtain ⟨s, same, standing, inside, rest⟩ := ih rfl left.1 (left.2.2 grounded) step listed
    exact ⟨s, same, standing, inside.trans left.2.1, rest⟩
  | right held _ free _ ih =>
    subst same
    obtain ⟨l, r, rfl, rfl, each⟩ := stands.operands held
    have left := each l (by simp)
    have right := each r (by simp)
    refine List.forall_mem_cons.2 ⟨⟨l, rfl, left.1, left.2.1, left.2.2 grounded, free⟩, fun step listed => ?_⟩
    obtain ⟨s, same, standing, inside, rest⟩ := ih rfl right.1 (right.2.2 grounded) step listed
    exact ⟨s, same, standing, inside.trans right.2.1, rest⟩

theorem kind?_of_mem_pathsTo {fuel : Nat} {path : List NodeId} (found : path ∈ pathsTo a acc fuel id) :
    ∀ x ∈ path, ∃ k, a.kind? x = some k := by
  induction fuel generalizing id path with
  | zero => simp [pathsTo] at found
  | succ fuel ih =>
    rw [pathsTo] at found
    split at found
    · rename_i held
      split at found
      · obtain rfl := List.mem_singleton.1 found
        simpa using ⟨_, held⟩
      · cases found
    · rename_i k _ held
      obtain ⟨more, inside, rfl⟩ := List.mem_map.1 found
      obtain ⟨c, -, inside⟩ := List.mem_flatMap.1 inside
      exact List.forall_mem_cons.2 ⟨⟨k, held⟩, ih inside⟩
    · cases found

theorem stepAt_error {ancestor inner : NodeId} {e : RowsError} (there : ∃ k, a.kind? ancestor = some k)
    (failed : stepAt a ancestor inner = .error e) : e.isFoldError = true := by
  obtain ⟨k, held⟩ := there
  have found : (a.expect ancestor : Except RowsError Kind) = .ok k := Arena.expect_eq_ok.2 held
  rw [stepAt, found] at failed
  cases k with
  | binary op lhs rhs =>
    simp only [bind, Except.bind] at failed
    split at failed
    · split at failed <;> cases failed
    · cases failed
      rfl
  | _ =>
    cases failed
    rfl

theorem stepsTo_error {node body : NodeId} {e : RowsError} (failed : stepsTo a node acc body = .error e) :
    e.isFoldError = true := by
  unfold stepsTo at failed
  split at failed
  · cases failed
    rfl
  · rename_i path only
    obtain ⟨⟨ancestor, inner⟩, listed, failed⟩ := except_mapM_error failed
    have there := kind?_of_mem_pathsTo (only ▸ List.mem_singleton_self path)
    exact stepAt_error (there ancestor (List.of_mem_zip listed).1) failed
  · cases failed
    rfl

theorem of_error {e : RowsError} {k : Kind} (held : a.kind? id = some k) (failed : Fold.of a id = .error e) :
    e.isFoldError = true ∨ (∃ found, e = .tree (.unexpected id "function" found) ∧ k.isFunction = false) ∨
      ∃ name params body, k = .function name params body ∧ params.length ≠ 2 ∧ e = .paramCount id params.length := by
  rw [Fold.of] at failed
  obtain missing | ⟨k', found, failed⟩ := except_bind_eq_error failed
  · cases missing.symm.trans (Arena.expect_eq_ok.2 held)
  obtain rfl : k' = k := Option.some_injective _ ((Arena.expect_eq_ok.1 found).symm.trans held)
  split at failed
  · obtain failed | ⟨steps, -, failed⟩ := except_bind_eq_error failed
    · exact .inl (stepsTo_error failed)
    · cases failed
  · rename_i other
    cases failed
    refine .inr (.inr ⟨_, _, _, rfl, fun two => ?_, rfl⟩)
    obtain ⟨acc, row, rfl⟩ := List.length_eq_two.1 two
    exact other _ _ rfl
  · rename_i other
    cases failed
    refine .inr (.inl ⟨_, rfl, ?_⟩)
    cases k' with
    | function => exact (other _ _ _ rfl).elim
    | _ => rfl

theorem of_not_dangling {e : RowsError} {k : Kind} (held : a.kind? id = some k) (failed : Fold.of a id = .error e) :
    ¬ Dangling e := by
  obtain fold | ⟨_, rfl, -⟩ | ⟨_, _, _, -, -, rfl⟩ := of_error held failed
  · exact RowsError.not_dangling fold
  · rintro ⟨_, ⟨⟩⟩
  · rintro ⟨_, ⟨⟩⟩

end Finding

theorem mem_slots {slot : Slot} {slots : List Slot} (listed : slot ∈ slots) :
    slot.id ∈ known ∪ roots (slots.map Slot.leaf) :=
  .inr (List.mem_map.2 ⟨slot.leaf, List.mem_map_of_mem listed, rfl⟩)

theorem chainOf_error {e : RowsError} (failed : fold.chainOf = .error e) : e.isFoldError = true := by
  unfold chainOf at failed
  split at failed
  · cases failed
    rfl
  · rename_i first rest held
    split at failed
    · cases failed
      rfl
    · obtain failed | ⟨_, -, failed⟩ := except_bind_eq_error failed
      · obtain ⟨step, -, failed⟩ := except_forM_error failed
        split at failed
        · cases failed
        · split at failed <;> (cases failed; rfl)
      · cases failed

end Fold

end DerivedTables
