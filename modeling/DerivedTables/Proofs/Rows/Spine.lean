import DerivedTables.Proofs.Runs
import DerivedTables.Proofs.Tree.Subtree
import DerivedTables.Rows.Fold

/-!
What the search for the accumulator finds.
-/

namespace DerivedTables

theorem Arena.expect_eq_ok {ε : Type} [OfTreeError ε] {a : Arena} {id : NodeId} {k : Kind} :
    (a.expect id : Except ε Kind) = .ok k ↔ a.kind? id = some k := by
  unfold expect
  split <;> simp_all

namespace Fold

variable {a : Arena} {acc : NodeId}
variable {fuel : Nat} {id : NodeId}

def Free (a : Arena) (target id : NodeId) : Prop :=
  ∀ x ∈ a.descendants id, ∀ name, a.kind? x ≠ some (.reference target name)

/-- The operators from a node down to the reference to the accumulator. -/
inductive Spine (a : Arena) (acc : NodeId) : NodeId → List FoldStep → Prop
  | use {id : NodeId} {name : String} (held : a.kind? id = some (.reference acc name)) :
    Spine a acc id []
  | left {id inner other : NodeId} {op : Operator} {steps : List FoldStep}
    (held : a.kind? id = some (.binary op inner other)) (known : op.isArithmetic || op.isLogical)
    (free : Free a acc other) (rest : Spine a acc inner steps) :
    Spine a acc id (⟨id, op, true, other⟩ :: steps)
  | right {id inner other : NodeId} {op : Operator} {steps : List FoldStep}
    (held : a.kind? id = some (.binary op other inner)) (known : op.isArithmetic || op.isLogical)
    (free : Free a acc other) (rest : Spine a acc inner steps) :
    Spine a acc id (⟨id, op, false, other⟩ :: steps)

theorem pathsTo_of_not_reference {k : Kind} (held : a.kind? id = some k) (other : ∀ target name, k ≠ .reference target
    name) : pathsTo a acc (fuel + 1) id = (k.children.flatMap (pathsTo a acc fuel)).map (id :: ·) := by
  rw [pathsTo, held]
  split
  next found name same => cases same; exact absurd rfl (other found name)
  next k' _ same => cases same; rfl
  next same => cases same

theorem pathsTo_of_reference {target : NodeId} {name : String} (held : a.kind? id = some (.reference target name)) :
    pathsTo a acc (fuel + 1) id = if target = acc then [[id]] else [] := by
  rw [pathsTo, held]

theorem head_of_mem_pathsTo {path : List NodeId}
    (found : path ∈ pathsTo a acc fuel id) : ∃ more, path = id :: more := by
  cases fuel with
  | zero => simp [pathsTo] at found
  | succ fuel =>
    rw [pathsTo] at found
    split at found
    · split at found <;> simp_all
    · obtain ⟨more, _, rfl⟩ := List.mem_map.1 found
      exact ⟨more, rfl⟩
    · simp at found

theorem pathsTo_eq_nil_iff : pathsTo a acc fuel id = [] ↔ ∀ x ∈ a.preorder fuel id, ∀ name, a.kind? x ≠ some
    (.reference acc name) := by
  induction fuel generalizing id with
  | zero => simp [pathsTo, Arena.preorder]
  | succ fuel ih =>
    cases held : a.kind? id with
    | none => simp [pathsTo, Arena.preorder, held]
    | some k =>
      by_cases reference : ∃ target name, k = .reference target name
      · obtain ⟨target, name, rfl⟩ := reference
        rw [pathsTo_of_reference held, Arena.preorder_succ held]
        simp [Kind.children, held]
      · have other : ∀ target name, k ≠ .reference target name := fun target name same =>
          reference ⟨target, name, same⟩
        rw [pathsTo_of_not_reference held other, Arena.preorder_succ held]
        simp only [List.map_eq_nil_iff, List.flatMap_eq_nil_iff, List.forall_mem_cons,
          List.mem_flatMap, ih, held, ne_eq, Option.some.injEq]
        constructor
        · rintro free
          refine ⟨other acc, ?_⟩
          rintro x ⟨c, child, listed⟩
          exact free c child x listed
        · rintro ⟨-, free⟩ c child x listed
          exact free x ⟨c, child, listed⟩

theorem stepsAlong_cons (first second : NodeId) (path : List NodeId) : stepsAlong a (first :: second :: path) = do
      let step ← stepAt a first second let steps ← stepsAlong a (second :: path) return step :: steps := by
  simp [stepsAlong]

theorem stepAt_eq_ok {ancestor inner : NodeId} {step : FoldStep} : stepAt a ancestor inner = .ok step ↔ ∃ op lhs rhs,
    a.kind? ancestor = some (.binary op lhs rhs) ∧ (op.isArithmetic || op.isLogical) ∧ step = if lhs = inner then
    ⟨ancestor, op, true, rhs⟩ else ⟨ancestor, op, false, lhs⟩ := by
  rw [stepAt, except_bind_eq_ok]
  simp only [Arena.expect_eq_ok]
  constructor
  · rintro ⟨k, held, ok⟩
    split at ok
    next op lhs rhs =>
      refine ⟨op, lhs, rhs, held, ?_⟩
      split at ok
      next known =>
        refine ⟨known, ?_⟩
        split at ok <;> cases ok <;> simp_all
      next => cases ok
    next => cases ok
  · rintro ⟨op, lhs, rhs, held, known, rfl⟩
    refine ⟨_, held, ?_⟩
    simp only [known, if_true]
    split <;> rfl

theorem spine_of_pathsTo {path : List NodeId} {steps : List FoldStep}
    (tree : a.TreeWithin fuel id) (within : fuel ≤ a.size + 1)
    (only : pathsTo a acc fuel id = [path]) (ok : stepsAlong a path = .ok steps) : Spine a acc id steps := by
  induction fuel generalizing id path steps with
  | zero => exact tree.elim
  | succ fuel ih =>
    obtain ⟨k, held, below⟩ := tree
    by_cases reference : ∃ target name, k = .reference target name
    · obtain ⟨target, name, rfl⟩ := reference
      rw [pathsTo_of_reference held] at only
      split at only
      next same =>
        subst same
        cases only
        cases ok
        exact .use held
      next => cases only
    · have other : ∀ target name, k ≠ .reference target name := fun target name same =>
        reference ⟨target, name, same⟩
      rw [pathsTo_of_not_reference held other] at only
      obtain ⟨rest, single, rfl⟩ := List.map_eq_singleton_iff.1 only
      obtain ⟨inner, _, found⟩ := List.mem_flatMap.1 (single ▸ List.mem_singleton_self rest)
      obtain ⟨more, rfl⟩ := head_of_mem_pathsTo found
      rw [stepsAlong_cons, except_bind_eq_ok] at ok
      obtain ⟨step, stepOk, ok⟩ := ok
      obtain ⟨inward, inwardOk, ok⟩ := except_bind_eq_ok.1 ok
      cases ok
      obtain ⟨op, lhs, rhs, held', known, rfl⟩ := stepAt_eq_ok.1 stepOk
      cases held.symm.trans held'
      simp only [Kind.children, List.flatMap_cons, List.flatMap_nil, List.append_nil,
        List.append_eq_singleton_iff] at single
      have smaller : fuel ≤ a.size + 1 := (Nat.le_succ fuel).trans within
      have free {side : NodeId} (isChild : side ∈ [lhs, rhs]) (none : pathsTo a acc fuel side = []) :
          Free a acc side := by
        rw [Free, Arena.descendants, (below side isChild).preorder_eq smaller]
        exact pathsTo_eq_nil_iff.1 none
      obtain ⟨leftNone, rightOne⟩ | ⟨leftOne, rightNone⟩ := single
      · obtain ⟨_, same⟩ := head_of_mem_pathsTo (rightOne ▸ List.mem_singleton_self _)
        cases same
        have apart : lhs ≠ inner := by
          rintro rfl
          cases leftNone.symm.trans rightOne
        rw [if_neg apart]
        exact .right held known (free (by simp) leftNone)
          (ih (below inner (by simp [Kind.children])) smaller rightOne inwardOk)
      · obtain ⟨_, same⟩ := head_of_mem_pathsTo (leftOne ▸ List.mem_singleton_self _)
        cases same
        rw [if_pos rfl]
        exact .left held known (free (by simp) rightNone)
          (ih (below inner (by simp [Kind.children])) smaller leftOne inwardOk)

theorem Spine.pathsTo {steps : List FoldStep} (spine : Spine a acc id steps) (tree : a.TreeWithin fuel id) (within :
    fuel ≤ a.size + 1) : ∃ more, pathsTo a acc fuel id = [id :: more] ∧ stepsAlong a (id :: more) = .ok steps := by
  have none {fuel : Nat} {side : NodeId} (tree : a.TreeWithin fuel side)
      (within : fuel ≤ a.size + 1) (free : Free a acc side) : Fold.pathsTo a acc fuel side = [] := by
    rw [Free, Arena.descendants, tree.preorder_eq within] at free
    exact pathsTo_eq_nil_iff.2 free
  induction spine generalizing fuel with
  | use held =>
    cases fuel with
    | zero => exact tree.elim
    | succ fuel =>
      refine ⟨[], ?_, rfl⟩
      rw [pathsTo_of_reference held, if_pos rfl]
  | @left id inner other op steps held known free rest ih =>
    cases fuel with
    | zero => exact tree.elim
    | succ fuel =>
      obtain ⟨_, held', below⟩ := tree
      cases held.symm.trans held'
      have smaller : fuel ≤ a.size + 1 := (Nat.le_succ fuel).trans within
      obtain ⟨more, only, ok⟩ := ih (below inner (by simp [Kind.children])) smaller
      have missing := none (below other (by simp [Kind.children])) smaller free
      refine ⟨inner :: more, ?_, ?_⟩
      · rw [pathsTo_of_not_reference held (by simp)]
        simp [Kind.children, only, missing]
      · rw [stepsAlong_cons, stepAt_eq_ok.2 ⟨op, inner, other, held, known, (if_pos rfl).symm⟩, ok]
        rfl
  | @right id inner other op steps held known free rest ih =>
    cases fuel with
    | zero => exact tree.elim
    | succ fuel =>
      obtain ⟨_, held', below⟩ := tree
      cases held.symm.trans held'
      have smaller : fuel ≤ a.size + 1 := (Nat.le_succ fuel).trans within
      obtain ⟨more, only, ok⟩ := ih (below inner (by simp [Kind.children])) smaller
      have missing := none (below other (by simp [Kind.children])) smaller free
      have apart : other ≠ inner := by
        rintro rfl
        simp [missing] at only
      refine ⟨inner :: more, ?_, ?_⟩
      · rw [pathsTo_of_not_reference held (by simp)]
        simp [Kind.children, only, missing]
      · rw [stepsAlong_cons, stepAt_eq_ok.2 ⟨op, other, inner, held, known, (if_neg apart).symm⟩, ok]
        rfl

theorem stepsTo_eq_ok_iff {node body : NodeId} {steps : List FoldStep} (tree : a.TreeWithin (a.size + 1) body) :
    stepsTo a node acc body = .ok steps ↔ Spine a acc body steps := by
  constructor
  · intro ok
    unfold stepsTo at ok
    split at ok
    next => cases ok
    next path only => exact spine_of_pathsTo tree le_rfl only ok
    next => cases ok
  · intro spine
    obtain ⟨more, only, ok⟩ := spine.pathsTo tree le_rfl
    rw [stepsTo, only]
    exact ok

theorem Spine.operands {root : NodeId} {d : Nat} {steps : List FoldStep}
    (spine : Spine a acc id steps) (tree : a.TreeWithin d root) (listed : id ∈ a.preorder d root) :
    ∀ step ∈ steps, step.other ∈ a.preorder d root ∧ Free a acc step.other := by
  induction spine with
  | use => simp
  | left held known free rest ih =>
    have inside {c : NodeId} := tree.child_mem (c := c) listed held
    simp only [List.forall_mem_cons]
    exact ⟨⟨inside (by simp [Kind.children]), free⟩, ih (inside (by simp [Kind.children]))⟩
  | right held known free rest ih =>
    have inside {c : NodeId} := tree.child_mem (c := c) listed held
    simp only [List.forall_mem_cons]
    exact ⟨⟨inside (by simp [Kind.children]), free⟩, ih (inside (by simp [Kind.children]))⟩

end Fold

end DerivedTables
