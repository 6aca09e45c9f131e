import DerivedTables.Proofs.Rows.Spine
import DerivedTables.Proofs.Scope.Grounded
import DerivedTables.Proofs.Scope.Lexical
import DerivedTables.Proofs.Typing.FixedPoint

/-!
What types that are accepted satisfy.
-/

namespace DerivedTables

namespace Ty

theorem isComplete_effective {ty : Ty} (complete : ty.isComplete = true) : ty.effective.isComplete = true := by
  induction ty using effective.induct with
  | case1 value next ih =>
    rw [isComplete, Bool.and_eq_true] at complete
    rw [effective]
    exact ih complete.2
  | case2 ty other =>
    rw [effective]
    · exact complete
    · exact other

theorem isComplete_boundValue {ty : Ty} (complete : ty.isComplete = true) : ty.boundValue.isComplete = true := by
  cases ty with
  | binding value next =>
    rw [isComplete, Bool.and_eq_true] at complete
    exact isComplete_effective complete.1
  | _ => exact complete

theorem isUnknown_of_complete {ty : Ty} (complete : ty.isComplete = true) : ty.isUnknown = false := by
  cases ty <;> first | rfl | cases complete

end Ty

namespace Arena

variable {a : Arena} {x : NodeId} {ty : Ty}

/-- The type of what a node gives as an expression. -/
def exprTy? (a : Arena) (x : NodeId) : Option Ty := (a.ty? x).map Ty.effective

def Typed (a : Arena) (x : NodeId) : Prop := ∃ ty, a.ty? x = some ty ∧ ty.isComplete = true

theorem Typed.complete? (typed : a.Typed x) :
    ∃ ty, a.exprTy? x = some ty ∧ Typing.known? a x = some ty ∧ Typing.complete? a x = some ty := by
  obtain ⟨ty, held, complete⟩ := typed
  have complete' := Ty.isComplete_effective complete
  have known : Typing.known? a x = some ty.effective := by
    simp [Typing.known?, held, Ty.isUnknown_of_complete complete']
  exact ⟨ty.effective, by simp [exprTy?, held], known, by simp [Typing.complete?, known, complete']⟩

end Arena

theorem Arena.descends_cases {a : Arena} {id : NodeId} {lineage path : List NodeId} {k : Kind}
    (held : a.kind? id = some k) (descends : a.Descends (id :: lineage) path) :
    path = id :: lineage ∨ ∃ child ∈ k.children, a.Descends (child :: id :: lineage) path := by
  induction descends with
  | here => exact .inl rfl
  | @child p x above l path held' slot ih =>
    right
    obtain same | ⟨child, listed, inside⟩ := ih
    · cases same
      cases held.symm.trans held'
      exact ⟨x, slot, .here⟩
    · exact ⟨child, listed, .child inside held' slot⟩

namespace Visitor

variable {ε ω : Type} [OfTreeError ε] {hook : NodeId → Lineage → Unit → Pass ε ω (Option NodeId)} {fails : ε → Prop}
  {change : Workspace ω → Workspace ω → Prop} {w : Workspace ω}

/-- When nothing that the hooks can still do leads anywhere else, a walk that succeeds has run each of them
to no effect. -/
theorem visit_idle (tree : ∀ e, fails (OfTreeError.ofTreeError e)) (stays : ∀ w, change w w) (compose : ∀ {u v w}, change u v → change v w → change u w)
    (leaves : ∀ id lineage state w, Pass.Leaves (hook id lineage state) w fails (· = none) change)
    (still : ∀ {u}, change u w → u = w) {fuel : Nat} {id r : NodeId} {lineage : Lineage} {u : Workspace ω}
    (done : (leaving hook).visit fuel id lineage () u = .ok r w) :
    u = w ∧ ∀ x above, w.arena.Descends (id :: lineage) (x :: above) → hook x above () w = .ok none w := by
  have visits (fuel : Nat) (id : NodeId) (lineage : Lineage) (u : Workspace ω) :
      Pass.Leaves ((leaving hook).visit fuel id lineage ()) u fails (· = id) change :=
    visit_leaves (v := leaving hook) tree stays compose (fun _ _ _ w => ⟨rfl, stays w⟩) leaves fuel id lineage () u
  induction fuel generalizing id lineage u r with
  | zero => cases done
  | succ fuel ih =>
    obtain ⟨k₀, entry, w₁, there, entered, going⟩ := visit_cases done
    cases entered
    obtain ⟨_, goes, -⟩ | ⟨-, k, children, w₂, result, held, visited, left, -⟩ := going
    · cases goes
    have kept (ids made : List NodeId) (u v : Workspace ω)
        (visited : (ids.mapM fun child => (leaving hook).visit fuel child (id :: lineage) ()) u = .ok made v) :
        made = ids := by
      induction ids generalizing u v made with
      | nil =>
        cases visited
        rfl
      | cons child rest others =>
        rw [List.mapM_cons] at visited
        obtain ⟨c, u₁, first, visited⟩ := bind_eq_ok.1 visited
        obtain ⟨cs, u₂, second, last⟩ := bind_eq_ok.1 visited
        cases last
        have same := visits fuel child (id :: lineage) u
        rw [Pass.Leaves, first] at same
        rw [same.1, others cs u₁ _ second]
    -- Each child is visited in the workspace that the walk ends in.
    have below (ids made : List NodeId) (u : Workspace ω)
        (visited : (ids.mapM fun child => (leaving hook).visit fuel child (id :: lineage) ()) u = .ok made w) :
        u = w ∧ ∀ child ∈ ids, ∀ x above, w.arena.Descends (child :: id :: lineage) (x :: above) →
          hook x above () w = .ok none w := by
      induction ids generalizing u made with
      | nil =>
        cases visited
        exact ⟨rfl, by simp⟩
      | cons child rest others =>
        rw [List.mapM_cons] at visited
        obtain ⟨c, u₁, first, visited⟩ := bind_eq_ok.1 visited
        obtain ⟨cs, u₂, second, last⟩ := bind_eq_ok.1 visited
        cases last
        obtain ⟨rfl, each⟩ := others cs u₁ second
        obtain ⟨rfl, here⟩ := ih first
        exact ⟨rfl, List.forall_mem_cons.2 ⟨here, each⟩⟩
    obtain rfl := kept _ _ _ _ visited
    rw [if_pos rfl] at left
    have last := leaves id lineage () w₂
    rw [Pass.Leaves, show hook id lineage () w₂ = .ok result w from left] at last
    obtain ⟨rfl, changed⟩ := last
    obtain rfl := still changed
    obtain ⟨rfl, each⟩ := below _ _ _ visited
    refine ⟨rfl, fun x above path => ?_⟩
    obtain same | ⟨child, listed, inside⟩ := Arena.descends_cases held path
    · cases same
      exact left
    · exact each child listed x above inside

end Visitor

namespace Typing

open Pass Tree

variable {env : Resolution} {a : Arena} {x : NodeId} {above lineage : Lineage} {w w' : Workspace Bool} {t : Tree}

def SettledAt (env : Resolution) (a : Arena) (x : NodeId) (above : Lineage) : Prop :=
  ∃ found, infer env a x above = .ok found ∧ ∀ ty ∈ found, a.ty? x = some ty

theorem retype_settled (left : retype env x above () w = .ok none w') (quiet : w'.notes = false) :
    SettledAt env w.arena x above := by
  obtain ⟨-, found, inferred, same⟩ := retype_cases left
  refine ⟨found, inferred, ?_⟩
  rintro ty ⟨⟩
  rw [retyped] at same
  by_cases held : w.arena.ty? x = some ty
  · exact held
  · rw [if_neg held] at same
    rw [same] at quiet
    cases quiet

theorem assignTypes_reaches {root : NodeId} {limit passes : Nat}
    (done : assignTypes env root limit w = .ok passes w') (x : NodeId) (above : Lineage)
    (path : w'.arena.Descends [root] (x :: above)) :
    SettledAt env w'.arena x above ∧ (w'.arena.Typed x ∨ ∃ member source,
      w'.arena.kind? x = some (.intent member source)) := by
  obtain ⟨total, w₁, settled, done⟩ := bind_eq_ok.1 done
  obtain ⟨_, w₂, checked, last⟩ := bind_eq_ok.1 done
  cases last
  obtain ⟨r, w₂, checked, last⟩ := bind_eq_ok.1 checked
  cases last
  obtain ⟨quiet, still⟩ := settle_eq_ok settled
  have same := complete_leaves root w₁
  rw [Leaves, checked] at same
  obtain ⟨-, rfl⟩ := same
  obtain ⟨-, idle⟩ := Visitor.visit_idle Decisive.ofTree .refl .trans (retype_leaves env) (fun changed => (changed.unnoted quiet).symm)
    still
  obtain ⟨-, complete⟩ := Visitor.visit_idle Decisive.ofTree (fun _ => rfl) .trans requireComplete_leaves (fun same => same) checked
  refine ⟨retype_settled (idle x above path) quiet, ?_⟩
  obtain ⟨-, -, n, found, ⟨ty, typed, whole⟩ | ⟨-, member, source, intent⟩⟩ :=
    requireComplete_cases above (complete x above path)
  · exact .inl ⟨ty, by simp [Arena.ty?, found, typed], whole⟩
  · exact .inr ⟨member, source, by simp [Arena.kind?, found, intent]⟩

section Rules

variable {k : Kind}

/-- What the source of an access has to offer under the name. -/
def HasMember (env : Resolution) (a : Arena) (scope : ScopeId) : Ty → String → Prop
  | .object fields, field => (fields.find? field).isSome
  | .named table, field => ∃ definition column, env.definition? a table scope = some definition ∧
      Resolution.column? a definition field = some column
  | .array _, field => (RowMember.ofName? field).isSome
  | _, _ => False

/-- The node declares the name, and gives values of the type. -/
def Declares (a : Arena) (id : NodeId) (field : String × Ty) : Prop :=
  (a.kind? id).bind Kind.label? = some field.1 ∧ a.exprTy? id = some field.2

/-- What the rules ask of a node of each kind, given the types around it. -/
def Obeys (env : Resolution) (a : Arena) (x : NodeId) (above : Lineage) : Kind → Prop
  | .binary op lhs rhs => ∃ l r, a.exprTy? lhs = some l ∧ a.exprTy? rhs = some r ∧
      if op.isArithmetic then l = .number ∧ r = .number ∧ a.ty? x = some .number
      else if op.isOrdering then l = .number ∧ r = .number ∧ a.ty? x = some .boolean
      else if op.isLogical then l = .boolean ∧ r = .boolean ∧ a.ty? x = some .boolean
      else env.compare a l r (env.scopeAt x above) ≠ .different
  | .conditional condition thenBranch elseBranch => a.exprTy? condition = some .boolean ∧
      ∃ s t, a.exprTy? thenBranch = some s ∧ a.exprTy? elseBranch = some t ∧
        env.compare a s t (env.scopeAt x above) ≠ .different
  | .invoke callee args => ∃ params returns, a.exprTy? callee = some (.function params returns) ∧
      List.Forall₂ (fun arg param => ∃ found, a.exprTy? arg = some found ∧
        env.compare a found param.2 (env.scopeAt x above) ≠ .different) args params.toList
  | .access source property => ∃ ty field, a.exprTy? source = some ty ∧ a.identifier? property = some field ∧
      HasMember env a (env.scopeAt x above) ty field
  | .reference target _ => ∃ ty, a.ty? target = some ty ∧ a.ty? x = some ty.boundValue
  | .definition _ properties => ∃ fields, List.Forall₂ (Declares a) properties fields ∧
      a.ty? x = some (.object (.sorted fields))
  | .function _ params body => ∃ fields returns, List.Forall₂ (Declares a) params fields ∧
      a.exprTy? body = some returns ∧ a.ty? x = some (.function (.ofList fields) returns)
  | _ => True

theorem require_eq_ok {node : NodeId} {op : Operator} {expected l r ty : Ty} {found : Option Ty}
    (passed : (do require node op expected l r; return some ty) = Except.ok found) :
    l = expected ∧ r = expected ∧ found = some ty := by
  obtain ⟨_, required, last⟩ := except_bind_eq_ok.1 passed
  cases last
  have each := except_forM_eq_ok.1 required
  simp only [List.forall_mem_cons] at each
  refine ⟨?_, ?_, rfl⟩
  · by_contra other
    simp [other] at each
  · by_contra other
    simp [other] at each

theorem obeys_binary {op : Operator} {lhs rhs : NodeId} (held : a.kind? x = some (.binary op lhs rhs))
    (settled : SettledAt env a x above) (left : a.Typed lhs) (right : a.Typed rhs) :
    Obeys env a x above (.binary op lhs rhs) := by
  obtain ⟨found, inferred, agrees⟩ := settled
  obtain ⟨l, lhsTy, -, lhsWhole⟩ := left.complete?
  obtain ⟨r, rhsTy, -, rhsWhole⟩ := right.complete?
  have rule : infer env a x above = binaryRule env a x op lhs rhs above := by
    rw [infer, Arena.expect, held]
    rfl
  simp only [rule, binaryRule, lhsWhole, rhsWhole] at inferred
  refine ⟨l, r, lhsTy, rhsTy, ?_⟩
  split_ifs with arithmetic ordering logical
  · rw [if_pos arithmetic] at inferred
    obtain ⟨left, right, rfl⟩ := require_eq_ok inferred
    exact ⟨left, right, agrees _ rfl⟩
  · rw [if_neg arithmetic, if_pos ordering] at inferred
    obtain ⟨left, right, rfl⟩ := require_eq_ok inferred
    exact ⟨left, right, agrees _ rfl⟩
  · rw [if_neg arithmetic, if_neg ordering, if_pos logical] at inferred
    obtain ⟨left, right, rfl⟩ := require_eq_ok inferred
    exact ⟨left, right, agrees _ rfl⟩
  · rw [if_neg arithmetic, if_neg ordering, if_neg logical] at inferred
    intro different
    rw [different] at inferred
    cases inferred

theorem obeys_conditional {condition thenBranch elseBranch : NodeId}
    (held : a.kind? x = some (.conditional condition thenBranch elseBranch)) (settled : SettledAt env a x above)
    (asks : a.Typed condition) (yes : a.Typed thenBranch) (no : a.Typed elseBranch) :
    Obeys env a x above (.conditional condition thenBranch elseBranch) := by
  obtain ⟨found, inferred, -⟩ := settled
  obtain ⟨c, conditionTy, -, conditionWhole⟩ := asks.complete?
  obtain ⟨s, thenTy, thenKnown, -⟩ := yes.complete?
  obtain ⟨t, elseTy, elseKnown, -⟩ := no.complete?
  have rule : infer env a x above = conditionalRule env a x condition thenBranch elseBranch above := by
    rw [infer, Arena.expect, held]
    rfl
  rw [rule, conditionalRule, conditionWhole, thenKnown, elseKnown] at inferred
  by_cases boolean : c = .boolean
  · subst boolean
    refine ⟨conditionTy, s, t, thenTy, elseTy, fun different => ?_⟩
    simp only [ne_eq, not_true_eq_false, ↓reduceIte, different] at inferred
    cases inferred
  · simp only [ne_eq, boolean, not_false_eq_true, ↓reduceIte] at inferred
    cases inferred

theorem checkArguments_eq_ok {scope : ScopeId} {index : Nat} {isOpen : Bool} {args : List NodeId} {expected : List Ty}
    (typed : ∀ arg ∈ args, a.Typed arg) (length : expected.length = args.length)
    (passed : checkArguments env a scope index (args.zip expected) = .ok isOpen) : List.Forall₂
    (fun arg ty => ∃ found, a.exprTy? arg = some found ∧ env.compare a found ty scope ≠ .different) args expected := by
  induction args generalizing index isOpen expected with
  | nil =>
    cases expected with
    | nil => exact .nil
    | cons ty rest => cases length
  | cons arg args ih =>
    cases expected with
    | nil => cases length
    | cons ty rest =>
      rw [List.forall_mem_cons] at typed
      obtain ⟨found, argTy, argKnown, -⟩ := typed.1.complete?
      simp only [List.zip_cons_cons, checkArguments, argKnown] at passed
      have further (index : Nat) (isOpen : Bool)
          (passed : checkArguments env a scope index (args.zip rest) = .ok isOpen) :=
        ih typed.2 (Nat.succ.inj length) passed
      cases verdict : env.compare a found ty scope with
      | equal =>
        rw [verdict] at passed
        exact .cons ⟨found, argTy, by simp [verdict]⟩ (further _ _ passed)
      | undecided =>
        rw [verdict] at passed
        obtain ⟨_, checked, -⟩ := except_bind_eq_ok.1 passed
        obtain ⟨_, checked, -⟩ := except_bind_eq_ok.1 checked
        exact .cons ⟨found, argTy, by simp [verdict]⟩ (further _ _ checked)
      | different =>
        rw [verdict] at passed
        cases passed

theorem obeys_invoke {callee : NodeId} {args : List NodeId} (held : a.kind? x = some (.invoke callee args))
    (settled : SettledAt env a x above) (called : a.Typed callee) (typed : ∀ arg ∈ args, a.Typed arg) :
    Obeys env a x above (.invoke callee args) := by
  obtain ⟨found, inferred, -⟩ := settled
  obtain ⟨ty, calleeTy, calleeKnown, -⟩ := called.complete?
  have rule : infer env a x above = invokeRule env a x callee args above := by
    rw [infer, Arena.expect, held]
    rfl
  rw [rule, invokeRule, calleeKnown] at inferred
  cases ty with
  | function params returns =>
    by_cases length : (params.toList.map Prod.snd).length = args.length
    · simp only [ne_eq, length, not_true_eq_false, ↓reduceIte] at inferred
      obtain ⟨isOpen, passed, -⟩ := except_bind_eq_ok.1 inferred
      refine ⟨params, returns, calleeTy, ?_⟩
      exact List.forall₂_map_right_iff.1 (checkArguments_eq_ok typed length passed)
    · simp only [ne_eq, length, not_false_eq_true, ↓reduceIte] at inferred
      cases inferred
  | _ => cases inferred

theorem obeys_access {source property : NodeId} (held : a.kind? x = some (.access source property))
    (settled : SettledAt env a x above) (typed : a.Typed source) : Obeys env a x above (.access source property) := by
  obtain ⟨found, inferred, -⟩ := settled
  obtain ⟨ty, sourceTy, sourceKnown, -⟩ := typed.complete?
  have rule : infer env a x above = accessRule env a x source property above := by
    rw [infer, Arena.expect, held]
    rfl
  rw [rule, accessRule] at inferred
  obtain ⟨k, there, inferred⟩ := except_bind_eq_ok.1 inferred
  cases k with
  | identifier field =>
    refine ⟨ty, field, sourceTy, ?_, ?_⟩
    · rw [Arena.identifier?, Arena.expect_eq_ok.1 there]
    simp only [sourceKnown, pure_bind] at inferred
    cases ty with
    | object fields =>
      cases has : fields.find? field with
      | none =>
        simp only [has] at inferred
        cases inferred
      | some ty => simp [HasMember, has]
    | named table =>
      cases definition : env.definition? a table (env.scopeAt x above) with
      | none =>
        simp only [definition] at inferred
        cases inferred
      | some table =>
        cases column : Resolution.column? a table field with
        | none =>
          simp only [definition, column] at inferred
          cases inferred
        | some c => exact ⟨table, c, definition, column⟩
    | array element =>
      cases member : RowMember.ofName? field with
      | none =>
        simp only [ArrayMember.of, member] at inferred
        cases inferred
      | some m => simp [HasMember, member]
    | _ => cases inferred
  | _ => cases inferred

theorem obeys_reference {target : NodeId} {name : String} (held : a.kind? x = some (.reference target name))
    (settled : SettledAt env a x above) (typed : a.Typed target) : Obeys env a x above (.reference target name) := by
  obtain ⟨found, inferred, agrees⟩ := settled
  obtain ⟨ty, targetTy, complete⟩ := typed
  obtain ⟨k, there, inferred⟩ := except_bind_eq_ok.1 inferred
  cases held.symm.trans (Arena.expect_eq_ok.1 there)
  obtain ⟨_, -, last⟩ := except_bind_eq_ok.1 inferred
  cases last
  refine ⟨ty, targetTy, agrees _ ?_⟩
  simp [targetTy, Ty.isUnknown_of_complete (Ty.isComplete_boundValue complete)]

theorem mapM_declares {field : NodeId → Except TypingError (String × Ty)} {ids : List NodeId}
    {fields : List (String × Ty)} (each : ∀ id ∈ ids, ∀ found, field id = .ok found → Declares a id found)
    (passed : ids.mapM field = .ok fields) : List.Forall₂ (Declares a) ids fields := by
  induction ids generalizing fields with
  | nil =>
    cases passed
    exact .nil
  | cons id ids ih =>
    rw [List.mapM_cons] at passed
    rw [List.forall_mem_cons] at each
    obtain ⟨found, here, passed⟩ := except_bind_eq_ok.1 passed
    obtain ⟨rest, there, last⟩ := except_bind_eq_ok.1 passed
    cases last
    exact .cons (each.1 found here) (ih each.2 there)

theorem exprTy?_of_typed {id : NodeId} (typed : a.Typed id) : a.exprTy? id = some (knownOrUnknown a id) := by
  obtain ⟨ty, exprTy, known, -⟩ := typed.complete?
  rw [exprTy, knownOrUnknown, known]
  rfl

theorem obeys_definition {name : String} {properties : List NodeId}
    (held : a.kind? x = some (.definition name properties)) (settled : SettledAt env a x above)
    (typed : ∀ property ∈ properties, a.Typed property) : Obeys env a x above (.definition name properties) := by
  obtain ⟨found, inferred, agrees⟩ := settled
  obtain ⟨k, there, inferred⟩ := except_bind_eq_ok.1 inferred
  cases held.symm.trans (Arena.expect_eq_ok.1 there)
  obtain ⟨fields, passed, last⟩ := except_bind_eq_ok.1 inferred
  cases last
  refine ⟨fields, mapM_declares (fun id listed found read => ?_) passed, agrees _ rfl⟩
  rw [propertyField] at read
  obtain ⟨k, there, read⟩ := except_bind_eq_ok.1 read
  cases k with
  | column shown declared =>
    cases read
    exact ⟨by rw [Arena.expect_eq_ok.1 there]; rfl, exprTy?_of_typed (typed id listed)⟩
  | derived shown derivation =>
    cases read
    exact ⟨by rw [Arena.expect_eq_ok.1 there]; rfl, exprTy?_of_typed (typed id listed)⟩
  | _ => cases read

theorem obeys_function {name : Option String} {params : List NodeId} {body : NodeId}
    (held : a.kind? x = some (.function name params body)) (settled : SettledAt env a x above)
    (leaves : ∀ p ∈ params, ∃ shown declared, a.kind? p = some (.param shown declared))
    (typed : ∀ p ∈ params, a.Typed p) (gives : a.Typed body) : Obeys env a x above (.function name params body) := by
  obtain ⟨found, inferred, agrees⟩ := settled
  obtain ⟨k, there, inferred⟩ := except_bind_eq_ok.1 inferred
  cases held.symm.trans (Arena.expect_eq_ok.1 there)
  obtain ⟨fields, passed, last⟩ := except_bind_eq_ok.1 inferred
  cases last
  refine ⟨fields, _, mapM_declares (fun id listed found read => ?_) passed, exprTy?_of_typed gives, agrees _ rfl⟩
  obtain ⟨shown, declared, leaf⟩ := leaves id listed
  rw [paramField, Arena.expect, leaf] at read
  cases read
  exact ⟨by rw [leaf]; rfl, exprTy?_of_typed (typed id listed)⟩

/-- The rules hold together at a node whose children and, of a reference, target have complete types. -/
theorem obeys_of_settled (held : a.kind? x = some k) (settled : SettledAt env a x above)
    (below : ∀ child ∈ k.children, a.Typed child) (linked : ∀ target ∈ k.links, a.Typed target)
    (leaves : ∀ name params body, k = .function name params body →
      ∀ p ∈ params, ∃ shown declared, a.kind? p = some (.param shown declared)) : Obeys env a x above k := by
  cases k with
  | binary op lhs rhs =>
    simp only [Kind.children, List.forall_mem_cons] at below
    exact obeys_binary held settled below.1 below.2.1
  | conditional condition thenBranch elseBranch =>
    simp only [Kind.children, List.forall_mem_cons] at below
    exact obeys_conditional held settled below.1 below.2.1 below.2.2.1
  | invoke callee args =>
    rw [Kind.children, List.forall_mem_cons] at below
    exact obeys_invoke held settled below.1 below.2
  | access source property =>
    rw [Kind.children, List.forall_mem_cons] at below
    exact obeys_access held settled below.1
  | reference target name => exact obeys_reference held settled (linked target (by simp [Kind.links]))
  | definition name properties => exact obeys_definition held settled below
  | function name params body =>
    rw [Kind.children, List.forall_mem_append, List.forall_mem_singleton] at below
    exact obeys_function held settled (leaves name params body rfl) below.1 below.2
  | _ => trivial

end Rules

end Typing

theorem Arena.kind?_untyped (a : Arena) (x : NodeId) : a.untyped.kind? x = a.kind? x := by
  simp only [kind?, node?, untyped, Array.getElem?_map]
  cases a.nodes[x]? <;> rfl

namespace Compilation

variable {c c' : Compilation} {t : Tree} {limit : Nat}

theorem assignTypes_kind? (done : c.assignTypes limit = .ok c') (x : NodeId) : c'.arena.kind? x = c.arena.kind? x := by
  obtain ⟨⟨passes, w⟩, ran, last⟩ := except_bind_eq_ok.1 done
  cases last
  obtain ⟨total, w₁, settled, ran⟩ := bind_eq_ok.1 (Pass.placed_eq_ok.1 ran)
  obtain ⟨_, w₂, checked, last⟩ := bind_eq_ok.1 ran
  cases last
  obtain ⟨r, w₂, checked, last⟩ := bind_eq_ok.1 checked
  cases last
  have settles := Typing.settle_leaves c.resolution c.root (max limit 1) 0 ⟨c.arena, false⟩
  have completes := Typing.complete_leaves c.root w₁
  rw [Pass.Leaves, settled] at settles
  rw [Pass.Leaves, checked] at completes
  obtain ⟨-, rfl⟩ := completes
  rw [← Arena.kind?_untyped, settles.2, Arena.kind?_untyped]

theorem assignTypes_holds (held : c.Holds t) (done : c.assignTypes limit = .ok c') : c'.Holds t := by
  have root : c'.root = c.root := by
    obtain ⟨⟨passes, w⟩, -, last⟩ := except_bind_eq_ok.1 done
    cases last
    rfl
  exact ⟨{ held.toEntire with stands := held.stands.congr fun x _ => assignTypes_kind? done x }, root.trans held.root⟩

end Compilation

namespace Typing

/-- Types that are accepted satisfy every rule at once: each node that the root leads to has a complete
type, and what its rule asks holds of the types around it. -/
theorem assignTypes_obeys {program : Program} {limit : Nat} {c c' : Compilation}
    (resolved : (Compilation.lower program >>= Compilation.resolve) = .ok c) (typed : c.assignTypes limit = .ok c')
    (x : NodeId) (above : Lineage) (path : c'.arena.Descends [c'.root] (x :: above)) : ∃ k ty, c'.arena.kind? x = some k
    ∧ c'.arena.ty? x = some ty ∧ ty.isComplete = true ∧ Obeys c'.resolution c'.arena x above k := by
  obtain ⟨t, held⟩ := Compilation.resolved_holds resolved
  have held := Compilation.assignTypes_holds held typed
  obtain ⟨⟨passes, w⟩, ran, last⟩ := except_bind_eq_ok.1 typed
  cases last
  have reaches := assignTypes_reaches (Pass.placed_eq_ok.1 ran)
  rw [held.root] at path reaches
  -- The walks leave out intents alone, and a program has none before its rows are recognized.
  have complete (y : NodeId) (inside : y ∈ t.ids) : w.arena.Typed y := by
    obtain ⟨lineage, path⟩ := held.stands.exists_path [] inside
    obtain typed | ⟨member, source, intent⟩ := (reaches y lineage path).2
    · exact typed
    · cases held.formed.surface held.stands inside intent
  have inside := held.stands.mem_ids path
  obtain ⟨k, found⟩ : ∃ k, w.arena.kind? x = some k := by
    obtain ⟨s, rfl, -, below⟩ := held.grounded.subtree inside
    exact ⟨s.kind, (below held.stands).kind⟩
  obtain ⟨ty, hasTy, whole⟩ := complete x inside
  refine ⟨k, ty, found, hasTy, whole, obeys_of_settled found (reaches x above path).1 ?_ ?_ ?_⟩
  · intro child slot
    exact complete child (held.stands.mem_ids (.child path found slot))
  · intro target link
    obtain nothing | nothing | live := held.grounded.links held.stands inside found link
    · cases nothing
    · cases nothing
    · exact complete target live
  · rintro name params body rfl
    exact held.grounded.param_kinds held.stands inside found

/-- `T { a: number, least(k: number) = if k < a then k else a, own = $row.least(a) == a }` -/
def leastOf : Program :=
  ⟨[.definition "T" [
    .property "a" (.named "number" false) none,
    .method "least" [⟨"k", some (.named "number" false), none⟩]
      (.ifElse none (.binary none .lt (.identifier none "k") (.identifier none "a"))
        (.identifier none "k") (.identifier none "a")) none,
    .derived "own" (.binary none .eq
      (.call none (.member none (.context none "row") "least") [.identifier none "a"])
      (.identifier none "a")) none] none]⟩

/-- The method is called through a row whose type is still open in the first pass. -/
theorem leastOf_obeys : ∃ c c', (Compilation.lower leastOf >>= Compilation.resolve) = .ok c ∧ c.assignTypes 8 = .ok c' ∧
    ∀ x above, c'.arena.Descends [c'.root] (x :: above) → ∃ k, c'.arena.kind? x = some k ∧ Obeys c'.resolution c'.arena
    x above k := by
  obtain ⟨c, resolved, succeeds⟩ : ∃ c, (Compilation.lower leastOf >>= Compilation.resolve) = .ok c ∧
      (c.assignTypes 8).toOption.isSome = true :=
    except_any (by decide +kernel)
  cases typed : c.assignTypes 8 with
  | error e =>
    rw [typed] at succeeds
    cases succeeds
  | ok c' =>
    refine ⟨c, c', resolved, typed, fun x above path => ?_⟩
    obtain ⟨k, -, held, -, -, obeys⟩ := assignTypes_obeys resolved typed x above path
    exact ⟨k, held, obeys⟩

end Typing

end DerivedTables
