import DerivedTables.Proofs.Tree.Grounded
import DerivedTables.Typing.Rules

/-!
What a rule can complain of.
-/

namespace DerivedTables

variable {ε α β : Type} {reason : ε → Prop}

structure FailsBy (reason : ε → Prop) (r : Except ε α) : Prop where
  failure : ∀ e, r = .error e → reason e

namespace FailsBy

theorem ok (x : α) : FailsBy reason (.ok x : Except ε α) := ⟨fun _ failed => by cases failed⟩

theorem error {e : ε} (here : reason e) : FailsBy reason (.error e : Except ε α) := by
  refine ⟨fun _ failed => ?_⟩
  cases failed
  exact here

theorem bind {m : Except ε α} {f : α → Except ε β} (first : FailsBy reason m) (second : ∀ x, m = .ok x → FailsBy reason (f x)) :
    FailsBy reason (m >>= f) := by
  cases m with
  | error e => exact .error (first.failure e rfl)
  | ok x => exact second x rfl

theorem mapM {f : α → Except ε β} {xs : List α} (each : ∀ x ∈ xs, FailsBy reason (f x)) : FailsBy reason (xs.mapM f) := by
  refine ⟨fun e failed => ?_⟩
  obtain ⟨x, listed, failed⟩ := except_mapM_error failed
  exact (each x listed).failure e failed

theorem forM {f : α → Except ε Unit} {xs : List α} (each : ∀ x ∈ xs, FailsBy reason (f x)) : FailsBy reason (xs.forM f) := by
  refine ⟨fun e failed => ?_⟩
  obtain ⟨x, listed, failed⟩ := except_forM_error failed
  exact (each x listed).failure e failed

end FailsBy

namespace Typing

variable {env : Resolution} {a : Arena} {x : NodeId} {lineage : Lineage}

def Near (a : Arena) (x y : NodeId) : Prop := y = x ∨ ∃ k, a.kind? x = some k ∧ (y ∈ k.children ∨ y ∈ k.links)

inductive Reason (env : Resolution) (a : Arena) (x : NodeId) (lineage : Lineage) : TypingError → Prop
  | missing {y : NodeId} (near : Near a x y) (gone : a.kind? y = none) : Reason env a x lineage (.tree (.dangling y))
  | unexpected (node : NodeId) (expected found : String) : Reason env a x lineage (.tree (.unexpected node expected found))
  | unknownType {name : String} (hidden : env.definition? a name (env.scopeAt x lineage) = none) :
    Reason env a x lineage (.unknownType x name)
  | own {e : TypingError} (other : (∀ inner, e ≠ .tree inner) ∧ (∀ node name, e ≠ .unknownType node name) ∧
      ∀ passes, e ≠ .noFixedPoint passes) : Reason env a x lineage e

theorem expect_fails {y : NodeId} (near : Near a x y) : FailsBy (Reason env a x lineage) (a.expect y) := by
  rw [Arena.expect]
  cases held : a.kind? y with
  | none => exact .error (.missing near held)
  | some k => exact .ok k

theorem contextRule_fails (node : NodeId) (name : String) : FailsBy (Reason env a x lineage) (contextRule a node name lineage) := by
  unfold contextRule
  split
  · exact .error (.own (by simp))
  · split
    · exact .ok _
    · exact .error (.own (by simp))

theorem checkDeclared_fails (declared : Ty) :
    FailsBy (Reason env a x lineage) (checkDeclared env a x declared (env.scopeAt x lineage)) := by
  refine .forM fun name _ => ?_
  split
  · exact .ok _
  · exact .error (.unknownType ‹_›)

theorem declaredRule_fails (declared : Ty) :
    FailsBy (Reason env a x lineage) (declaredRule env a x declared lineage) := by
  unfold declaredRule
  split
  · exact contextRule_fails ..
  · exact .bind (checkDeclared_fails _) fun _ _ => .ok _

theorem require_fails (node : NodeId) (op : Operator) (expected lhs rhs : Ty) :
    FailsBy (Reason env a x lineage) (require node op expected lhs rhs) := by
  refine .forM fun found _ => ?_
  split
  · exact .ok _
  · exact .error (.own (by simp))

theorem binaryRule_fails (node : NodeId) (op : Operator) (lhs rhs : NodeId) :
    FailsBy (Reason env a x lineage) (binaryRule env a node op lhs rhs lineage) := by
  unfold binaryRule
  split
  · split
    · exact .bind (require_fails ..) fun _ _ => .ok _
    · split
      · exact .bind (require_fails ..) fun _ _ => .ok _
      · split
        · exact .bind (require_fails ..) fun _ _ => .ok _
        · split
          · exact .ok _
          · exact .ok _
          · exact .error (.own (by simp))
  · exact .ok _

theorem accessRule_fails (source : NodeId) {property : NodeId} (near : Near a x property) :
    FailsBy (Reason env a x lineage) (accessRule env a x source property lineage) := by
  refine .bind (expect_fails near) fun found _ => ?_
  dsimp only
  split
  · rw [pure_bind]
    split
    · exact .ok _
    · split
      · exact .ok _
      · exact .error (.own (by simp))
    · split
      · exact .error (.unknownType ‹_›)
      · split
        · exact .ok _
        · exact .error (.own (by simp))
    · split
      · exact .ok _
      · exact .ok _
      · exact .error (.own (by simp))
    · exact .error (.own (by simp))
  · exact .error (.unexpected ..)

theorem checkArguments_fails (scope : ScopeId) (args : List (NodeId × Ty)) (index : Nat) :
    FailsBy (Reason env a x lineage) (checkArguments env a scope index args) := by
  induction args generalizing index with
  | nil => exact .ok _
  | cons arg rest ih =>
    obtain ⟨arg, expected⟩ := arg
    rw [checkArguments]
    split
    · exact .bind (.bind (ih _) fun _ _ => .ok _) fun _ _ => .ok _
    · split
      · exact ih _
      · exact .bind (.bind (ih _) fun _ _ => .ok _) fun _ _ => .ok _
      · exact .error (.own (by simp))

theorem invokeRule_fails (node callee : NodeId) (args : List NodeId) :
    FailsBy (Reason env a x lineage) (invokeRule env a node callee args lineage) := by
  unfold invokeRule
  split
  · exact .ok _
  · dsimp only
    split
    · exact .error (.own (by simp))
    · exact .bind (checkArguments_fails ..) fun _ _ => .ok _
  · exact .error (.own (by simp))

theorem conditionalRule_fails (node condition thenBranch elseBranch : NodeId) :
    FailsBy (Reason env a x lineage) (conditionalRule env a node condition thenBranch elseBranch lineage) := by
  unfold conditionalRule
  split
  · exact .ok _
  · rename_i found _
    by_cases boolean : found = .boolean
    · rw [if_neg (not_not_intro boolean)]
      dsimp only
      split
      · split
        · exact .ok _
        · exact .ok _
        · exact .error (.own (by simp))
      · exact .ok _
    · rw [if_pos boolean]
      exact .error (.own (by simp))

theorem propertyField_fails {property : NodeId} (near : Near a x property) :
    FailsBy (Reason env a x lineage) (propertyField a property) := by
  refine .bind (expect_fails near) fun found _ => ?_
  split
  · exact .ok _
  · exact .ok _
  · exact .error (.unexpected ..)

theorem paramField_fails {param : NodeId} (near : Near a x param) :
    FailsBy (Reason env a x lineage) (paramField a param) := by
  refine .bind (expect_fails near) fun found _ => ?_
  split
  · exact .ok _
  · exact .ok _

/-- A rule looks at the node, at what it holds and at what it points at, and nowhere else. -/
theorem infer_fails : FailsBy (Reason env a x lineage) (infer env a x lineage) := by
  refine .bind (expect_fails (.inl rfl)) fun k found => ?_
  rw [Arena.expect] at found
  obtain ⟨held⟩ : ∃ held : a.kind? x = some k, True := by
    cases held : a.kind? x <;> rw [held] at found <;> cases found
    exact ⟨rfl, trivial⟩
  have part {y : NodeId} (inside : y ∈ k.children) : Near a x y := .inr ⟨k, held, .inl inside⟩
  cases k with
  | identifier name =>
    dsimp only
    split
    · exact .ok _
    · exact .error (.own (by simp))
  | context name => exact contextRule_fails ..
  | param name declared =>
    cases declared with
    | none => exact .ok _
    | some declared => exact declaredRule_fails _
  | column name declared => exact .bind (checkDeclared_fails _) fun _ _ => .ok _
  | definition name properties => exact .bind (.mapM fun p listed => propertyField_fails (part listed)) fun _ _ => .ok _
  | function name params body =>
    exact .bind (.mapM fun p listed => paramField_fails (part (List.mem_append_left _ listed))) fun _ _ => .ok _
  | reference target name =>
    have near : Near a x target := .inr ⟨_, held, .inr (by simp [Kind.links])⟩
    exact .bind (.bind (expect_fails near) fun _ _ => .ok _) fun _ _ => .ok _
  | rows operand =>
    dsimp only
    split
    · exact .ok _
    · exact .error (.own (by simp))
  | reduce source initial add remove view =>
    dsimp only
    split
    · exact .ok _
    · exact .ok _
  | binary op lhs rhs => exact binaryRule_fails ..
  | access source property => exact accessRule_fails _ (part (by simp [Kind.children]))
  | invoke callee args => exact invokeRule_fails ..
  | conditional condition thenBranch elseBranch => exact conditionalRule_fails ..
  | _ => exact .ok _

end Typing

end DerivedTables
