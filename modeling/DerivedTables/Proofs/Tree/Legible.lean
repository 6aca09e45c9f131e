import DerivedTables.Proofs.Text.Forms
import DerivedTables.Tree.Text

/-!
What the text of an expression says about its tree.
-/

namespace DerivedTables

namespace Arena

def param? (a : Arena) (id : NodeId) : Option (String × Option String) :=
  match a.kind? id with
  | some (.param x declared) => some (x, declared.map Ty.text)
  | _ => none

def member? (a : Arena) (id : NodeId) : Option String :=
  match a.kind? id with
  | some (.identifier x) => some x
  | _ => none

def formWithin (a : Arena) : Nat → NodeId → Option Form
  | 0, _ => none
  | fuel + 1, id => do
    match ← a.kind? id with
    | .string value => return .string value
    | .boolean value => return .boolean value
    | .identifier x => return .name x
    | .binary op lhs rhs => return .binary op (← a.formWithin fuel lhs) (← a.formWithin fuel rhs)
    | .access source property => return .access (← a.formWithin fuel source) (← a.member? property)
    | .function called params body => return .function called (← params.mapM a.param?) (← a.formWithin fuel body)
    | .invoke callee args => return .invoke (← a.formWithin fuel callee) (← args.mapM (a.formWithin fuel))
    | .conditional condition thenBranch elseBranch =>
      return .conditional (← a.formWithin fuel condition) (← a.formWithin fuel thenBranch) (← a.formWithin fuel elseBranch)
    | .binding x value next => return .binding x (← a.formWithin fuel value) (← a.formWithin fuel next)
    | .effect head next => return .effect (← a.formWithin fuel head) (← a.formWithin fuel next)
    | .rows operand => return .rows (← a.formWithin fuel operand)
    | _ => none

/-- What a subtree of expressions shows. -/
def form? (a : Arena) (id : NodeId) : Option Form := a.formWithin (a.size + 1) id

theorem map_eq_of_mapM {α β γ : Type} {f : α → Option β} {g : α → γ} {h : β → γ} (each : ∀ x y, f x = some y → g x = h y)
    {xs : List α} {ys : List β} (whole : xs.mapM f = some ys) : xs.map g = ys.map h := by
  induction xs generalizing ys with
  | nil =>
    obtain rfl := Option.some.inj whole
    rfl
  | cons x xs ih =>
    simp only [List.mapM_cons, Option.bind_eq_bind, Option.bind_eq_some_iff, Option.pure_def, Option.some.injEq] at whole
    obtain ⟨y, first, ys, others, rfl⟩ := whole
    rw [List.map_cons, List.map_cons, each x y first, ih others]

variable {a : Arena}

theorem renderWithin_param {fuel : Nat} (fueled : 0 < fuel) {id : NodeId} {p : String × Option String} (found : a.param? id = some p) :
    (a.renderWithin fuel id).toList = Form.annotated p.1.toList p.2 := by
  obtain ⟨n, rfl⟩ := Nat.exists_eq_add_one.2 fueled
  rw [param?] at found
  split at found
  · obtain rfl := Option.some.inj found
    rename_i declared kind
    cases declared <;> simp [renderWithin, kind, Form.annotated]
  · cases found

theorem renderWithin_member {fuel : Nat} (fueled : 0 < fuel) {id : NodeId} {x : String} (found : a.member? id = some x) :
    (a.renderWithin fuel id).toList = x.toList := by
  obtain ⟨n, rfl⟩ := Nat.exists_eq_add_one.2 fueled
  rw [member?] at found
  split at found
  · obtain rfl := Option.some.inj found
    simp [renderWithin, *]
  · cases found

theorem formWithin_some {fuel : Nat} {id : NodeId} {f : Form} (shown : a.formWithin fuel id = some f) :
    0 < fuel ∧ ∃ kind, a.kind? id = some kind ∧ kind.needsParens = f.wrapped := by
  cases fuel with
  | zero => cases shown
  | succ n =>
    rw [formWithin, Option.bind_eq_bind, Option.bind_eq_some_iff] at shown
    obtain ⟨kind, found, shown⟩ := shown
    refine ⟨n.succ_pos, kind, found, ?_⟩
    split at shown <;> simp [Option.bind_eq_some_iff] at shown <;> grind [Kind.needsParens, Form.wrapped]

theorem renderWithin_form {fuel : Nat} {id : NodeId} {f : Form} (shown : a.formWithin fuel id = some f) :
    (a.renderWithin fuel id).toList = f.text := by
  induction fuel generalizing id f with
  | zero => cases shown
  | succ fuel ih =>
    have operand {id : NodeId} {g : Form} (inner : a.formWithin fuel id = some g) : ∃ kind, a.kind? id = some kind ∧
        (if kind.needsParens then "(" ++ a.renderWithin fuel id ++ ")" else a.renderWithin fuel id).toList = g.parenthesized g.text := by
      obtain ⟨-, kind, found, parens⟩ := formWithin_some inner
      refine ⟨kind, found, ?_⟩
      rw [parens, Form.parenthesized, ← ih inner]
      split <;> simp
    rw [formWithin, Option.bind_eq_bind, Option.bind_eq_some_iff] at shown
    obtain ⟨kind, found, shown⟩ := shown
    split at shown <;> simp only [Option.bind_eq_bind, Option.bind_eq_some_iff, Option.pure_def, Option.some.injEq, reduceCtorEq] at shown
    · obtain rfl := shown
      simp [renderWithin, found, Form.text]
    · obtain rfl := shown
      rename_i value
      cases value <;> simp [renderWithin, found, Form.text]
    · obtain rfl := shown
      simp [renderWithin, found, Form.text]
    · obtain ⟨l, left, r, right, rfl⟩ := shown
      obtain ⟨k, kind, shown⟩ := operand left
      obtain ⟨k', kind', shown'⟩ := operand right
      simp only [renderWithin, found, kind, kind', Form.text, String.toList_append, shown, shown']
      simp
    · obtain ⟨source, inner, x, member, rfl⟩ := shown
      obtain ⟨k, kind, shown⟩ := operand inner
      have property := renderWithin_member (formWithin_some inner).1 member
      simp only [renderWithin, found, kind, Form.text, String.toList_append, shown, property]
      simp
    · obtain ⟨ps, params, body, inner, rfl⟩ := shown
      have texts := map_eq_of_mapM (fun _ _ => renderWithin_param (formWithin_some inner).1) params
      simp only [renderWithin, found, Form.text, String.toList_append, String.toList_intercalate, List.map_map, Function.comp_def, texts, ih inner]
      simp
    · obtain ⟨callee, inner, fs, args, rfl⟩ := shown
      obtain ⟨k, kind, shown⟩ := operand inner
      have texts := map_eq_of_mapM (fun _ _ => ih) args
      simp only [renderWithin, found, kind, Form.text, Form.texts_eq_map, String.toList_append, shown, String.toList_intercalate, List.map_map, Function.comp_def, texts]
      simp
    · obtain ⟨condition, first, thenBranch, second, elseBranch, third, rfl⟩ := shown
      simp [renderWithin, found, Form.text, ih first, ih second, ih third]
    · obtain ⟨value, first, next, second, rfl⟩ := shown
      simp [renderWithin, found, Form.text, ih first, ih second]
    · obtain ⟨head, first, next, second, rfl⟩ := shown
      simp [renderWithin, found, Form.text, ih first, ih second]
    · obtain ⟨operand, inner, rfl⟩ := shown
      simp [renderWithin, found, Form.text, ih inner]

/-- Two subtrees that can be told apart in their own text and show the same are alike: the same kinds, arranged alike, with
the same names, operators and values. -/
theorem render_unambiguous {a b : Arena} {x y : NodeId} {f g : Form} (shown : a.form? x = some f) (shown' : b.form? y = some g)
    (legible : f.Legible true) (legible' : g.Legible true) (same : a.render x = b.render y) : f = g := by
  refine Form.text_inj legible legible' ?_
  rw [← renderWithin_form shown, ← renderWithin_form shown']
  exact congrArg String.toList same

def ofKinds (kinds : List Kind) : Arena := ⟨(kinds.map fun k => ⟨k, none, none⟩).toArray⟩

/-- `if p then (n + m).total else f(x, true); y`. -/
def summed : Arena :=
  ofKinds [.identifier "n", .identifier "m", .binary .add 0 1, .identifier "total", .access 2 3, .identifier "p", .identifier "f",
    .identifier "x", .boolean true, .invoke 6 [7, 8], .identifier "y", .effect 9 10, .conditional 5 4 11]

/-- The same, written down in another order. -/
def summed' : Arena :=
  ofKinds [.conditional 1 2 3, .identifier "p", .access 4 5, .effect 6 7, .binary .add 8 9, .identifier "total",
    .invoke 10 [11, 12], .identifier "y", .identifier "n", .identifier "m", .identifier "f", .identifier "x", .boolean true]

theorem summed_unambiguous : summed.render 12 = summed'.render 0 ∧ summed.form? 12 = summed'.form? 0 := by
  have same : summed.render 12 = summed'.render 0 := by decide
  have shown : summed.form? 12 = some _ := rfl
  have shown' : summed'.form? 0 = some _ := rfl
  refine ⟨same, shown.trans (.trans (congrArg some (render_unambiguous shown shown' ?_ ?_ same)) shown'.symm)⟩
  all_goals
    simp only [Form.Legible, Form.AllLegible, List.reverse_cons, List.reverse_nil, List.nil_append, List.cons_append]
    decide

/-- Pairs of nodes that show the same: `a + b[]`, `a; b; c`, `(x) => a + b`, `(x) => a.b`, `(x) => a; b`, `let y = a; b; c`,
`a + b; c` and `a.b.c`. -/
def ambiguous : Arena :=
  ofKinds [.identifier "a", .identifier "b", .identifier "c", .param "x" none,
    .binary .add 0 1, .rows 4, .rows 1, .binary .add 0 6,
    .effect 0 1, .effect 8 2, .effect 1 2, .effect 0 10,
    .function none [3] 0, .binary .add 12 1, .function none [3] 4,
    .access 12 1, .access 0 1, .function none [3] 16,
    .effect 12 1, .function none [3] 8,
    .binding "y" 8 2, .binding "y" 0 10,
    .binary .add 0 10, .effect 4 2,
    .access 1 2, .access 0 24, .access 16 2]

/-- The two show the same text, and the kinds below them, each after the one that holds it, are not the same. -/
def Confused (a : Arena) (x y : NodeId) : Prop :=
  a.render x = a.render y ∧ (a.descendants x).map (fun id => (a.kind? id).map Kind.name) ≠
    (a.descendants y).map fun id => (a.kind? id).map Kind.name

theorem ambiguous_shown : ambiguous.Confused 5 7 ∧ ambiguous.Confused 9 11 ∧ ambiguous.Confused 13 14 ∧
    ambiguous.Confused 15 17 ∧ ambiguous.Confused 18 19 ∧ ambiguous.Confused 20 21 ∧ ambiguous.Confused 22 23 ∧
    ambiguous.Confused 25 26 := by
  unfold Confused
  decide

end Arena

end DerivedTables
