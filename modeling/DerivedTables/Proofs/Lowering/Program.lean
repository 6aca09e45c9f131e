import DerivedTables.Proofs.Tree.Expression

/-!
The tree a program is lowered to.
-/

namespace DerivedTables

open Lowering Tree

def Member.Lowers : Member → Tree → Prop
  | .property name (.named base isArray) _, t =>
    ∃ id, t = node id (.column name (.ofDeclared base isArray)) []
  | .property _ (.context _) _, _ => False
  | .derived name expr _, t => ∃ id e, expr.Lowers e ∧ t = node id (.derived name e.id) [e]
  | .method name params body _, t => ∃ id f ps b, ParamsLower params ps ∧ body.Lowers b ∧
      t = node id (.derived name f) [node f (.function (some name) (ps.map Tree.id) b.id) (ps ++ [b])]

def StatementsLower : List Statement → List Tree → List Tree → List Expr → Prop
  | [], definitions, assignments, exprs => definitions = [] ∧ assignments = [] ∧ exprs = []
  | .definition name members _ :: rest, definitions, assignments, exprs => ∃ id ps others,
      List.Forall₂ Member.Lowers members ps ∧ StatementsLower rest others assignments exprs ∧
      definitions = node id (.definition name (ps.map Tree.id)) ps :: others
  | .assignment name value _ :: rest, definitions, assignments, exprs => ∃ id e others,
      value.Lowers e ∧ StatementsLower rest definitions others exprs ∧
      assignments = node id (.assignment name e.id) [e] :: others
  | .expression expr :: rest, definitions, assignments, exprs => ∃ others,
      StatementsLower rest definitions assignments others ∧ exprs = expr :: others

theorem StatementsLower.exprs_eq {statements : List Statement} {ds vs : List Tree} {exprs : List Expr}
    (lower : StatementsLower statements ds vs exprs) : exprs = statements.filterMap Statement.expr? := by
  induction statements generalizing ds vs exprs with
  | nil => exact lower.2.2
  | cons statement rest ih =>
    cases statement with
    | definition | assignment =>
      obtain ⟨_, _, _, -, lower, -⟩ := lower
      exact ih lower
    | expression expr =>
      obtain ⟨others, lower, rfl⟩ := lower
      exact congrArg _ (ih lower)

def Program.Lowers (program : Program) (t : Tree) : Prop :=
  ∃ id definitions assignments exprs e,
    StatementsLower program.statements definitions assignments exprs ∧ BlockLowers exprs e ∧
    t = node id (.root (definitions.map Tree.id) (assignments.map Tree.id) e.id)
      (definitions ++ assignments ++ [e])

namespace Lowering

theorem lowerMember_judged (member : Member) (w : Workspace Nat) :
    Judges member.Violates (lowerMember member) w (Made w member.Lowers) := by
  obtain ⟨name, ⟨base, isArray⟩ | context, span⟩ | ⟨name, expr, span⟩ | ⟨name, params, body, span⟩ := member
  · exact (Judges.leaf rfl rfl fun id => ⟨id, rfl⟩).congr (by simp [Expr.AnyViolates, Member.Violates])
  · exact .throw _
  · refine (lowering_judged.1 expr w).before ?_
    rintro _ w₁ ⟨e, rfl, grown, lowers⟩
    exact .node rfl grown.single rfl ⟨_, e, lowers, rfl⟩
  · refine (lowerParams_judged params w).after ?_
    rintro _ w₁ ⟨ps, rfl, pgrown, leaves⟩
    refine (lowering_judged.1 body w₁).before ?_
    rintro _ w₂ ⟨b, rfl, bgrown, lowers⟩
    have function := (pgrown.append bgrown.single).node (n := ⟨.function (some name) (ps.map Tree.id) b.id,
      none, span⟩) (by simp [Kind.children])
    exact .make rfl (.node rfl function.single rfl ⟨_, _, ps, b, leaves, lowers, rfl⟩)

theorem lowerMembers_judged (members : List Member) (w : Workspace Nat) : Judges
    (fun fault => ∃ member ∈ members, member.Violates fault) (members.mapM lowerMember) w
    (MadeAll w (List.Forall₂ Member.Lowers members)) := by
  induction members generalizing w with
  | nil => exact (Judges.pure ⟨[], rfl, .nil (.refl _), .nil⟩).congr (by simp [Expr.AnyViolates])
  | cons member rest ih =>
    rw [List.mapM_cons]
    refine (lowerMember_judged member w).cons ?_
    rintro _ w₁ ⟨t, rfl, grown, lowers⟩
    refine (ih w₁).before ?_
    rintro _ w₂ ⟨ts, rfl, more, lower⟩
    exact .pure ⟨t :: ts, rfl, grown.single.append more, .cons lowers lower⟩

def MadeItems (w : Workspace Nat) (statements : List Statement) (items : Items) (w' : Workspace Nat) : Prop :=
  ∃ ds vs, ds.map Tree.id = items.definitions ∧ vs.map Tree.id = items.assignments ∧
    GrownAll w.arena w'.arena (ds ++ vs) ∧ StatementsLower statements ds vs items.exprs

theorem lowerStatements_judged (statements : List Statement) (w : Workspace Nat) : Judges
    (fun fault => ∃ statement ∈ statements, statement.Violates fault) (lowerStatements statements) w
    (MadeItems w statements) := by
  induction statements generalizing w with
  | nil => exact (Judges.pure ⟨[], [], rfl, rfl, .nil (.refl _), rfl, rfl, rfl⟩).congr (by simp [Expr.AnyViolates])
  | cons statement rest ih =>
    cases statement with
    | definition name members span =>
      refine Judges.cons (y := Statement.definition name members span) (lowerMembers_judged members w) ?_
      rintro _ w₁ ⟨ps, rfl, grown, lower⟩
      refine .make rfl ((ih _).before ?_)
      rintro items w₂ ⟨ds, vs, same, same', more, lowers⟩
      have table := grown.node (n := ⟨.definition name (ps.map Tree.id), none, span⟩) rfl
      exact .pure ⟨_ :: ds, vs, by simp [same], same', table.single.append more, _, ps, ds, lower, lowers, rfl⟩
    | assignment name value span =>
      refine Judges.cons (y := Statement.assignment name value span) (lowering_judged.1 value w) ?_
      rintro _ w₁ ⟨e, rfl, grown, lower⟩
      refine .make rfl ((ih _).before ?_)
      rintro items w₂ ⟨ds, vs, same, same', more, lowers⟩
      have item := grown.single.node (n := ⟨.assignment name e.id, none, span⟩) rfl
      refine .pure ⟨ds, node w₁.arena.size (.assignment name e.id) [e] :: vs, same, by simp [same'],
        (item.single.append more).perm ?_, _, e, vs, lower, lowers, rfl⟩
      rw [List.singleton_append]
      exact List.perm_middle.symm
    | expression expr =>
      refine Judges.congr ((ih w).before ?_) (by simp [Statement.Violates])
      rintro items w₁ ⟨ds, vs, same, same', more, lowers⟩
      exact .pure ⟨ds, vs, same, same', more, _, lowers, rfl⟩

theorem lowerProgram_judged (program : Program) (w : Workspace Nat) :
    Judges program.Violates (lowerProgram program) w (Made w program.Lowers) := by
  refine (lowerStatements_judged _ w).bind ?_
  rintro items w₁ ⟨ds, vs, same, same', grown, lower⟩
  rw [← lower.exprs_eq]
  refine (lowering_judged.2.1 _ none _).before ?_
  rintro _ w₂ ⟨e, rfl, last, lowers⟩
  refine .node rfl (grown.append last.single) ?_ ⟨w₂.arena.size, ds, vs, items.exprs, e, lower, lowers, ?_⟩
  · simp [Kind.children, ← same, ← same']
  · rw [← same, ← same']

/-- A program has a tree if and only if it has no let outside a sequence, no return before the end of one and
no column with a context type, and an error is that of one of these, at its place. Expressions likewise. -/
theorem lowering_accepts : (∀ (program : Program) (w : Workspace Nat),
      ((∃ root w', lowerProgram program w = .ok root w') ↔ ∀ fault, ¬ program.Violates fault) ∧
      ∀ fault w', lowerProgram program w = .error fault w' → program.Violates fault) ∧
    ∀ (expr : Expr) (w : Workspace Nat), ((∃ id w', lowerExpr expr w = .ok id w') ↔ ∀ fault, ¬ expr.Violates fault) ∧
      ∀ fault w', lowerExpr expr w = .error fault w' → expr.Violates fault :=
  ⟨fun program w => (lowerProgram_judged program w).accepts, fun expr w => (lowering_judged.1 expr w).accepts⟩

end Lowering

theorem Member.Lowers.isProperty {member : Member} {t : Tree} (lowers : member.Lowers t) : t.IsProperty := by
  obtain ⟨name, ⟨base, isArray⟩ | context, span⟩ | ⟨name, expr, span⟩ | ⟨name, params, body, span⟩ := member
  · obtain ⟨id, rfl⟩ := lowers
    exact .column
  · cases lowers
  · obtain ⟨id, e, inside, rfl⟩ := lowers
    exact .derived (lowers_expression.1 _ inside)
  · obtain ⟨id, f, ps, b, leaves, inside, rfl⟩ := lowers
    exact .method leaves.isParam (lowers_expression.1 _ inside)

theorem members_isProperty {members : List Member} {ts : List Tree}
    (lower : List.Forall₂ Member.Lowers members ts) : ∀ t ∈ ts, t.IsProperty := by
  induction lower with
  | nil => simp
  | cons first _ ih => exact List.forall_mem_cons.2 ⟨first.isProperty, ih⟩

theorem StatementsLower.isItem {statements : List Statement} {ds vs : List Tree} {es : List Expr}
    (lower : StatementsLower statements ds vs es) : (∀ t ∈ ds, t.IsItem) ∧ ∀ t ∈ vs, t.IsItem := by
  induction statements generalizing ds vs es with
  | nil =>
    obtain ⟨rfl, rfl, rfl⟩ := lower
    simp
  | cons statement rest ih =>
    cases statement with
    | definition name members span =>
      obtain ⟨id, ps, others, columns, lower, rfl⟩ := lower
      exact ⟨List.forall_mem_cons.2 ⟨.definition (members_isProperty columns), (ih lower).1⟩,
        (ih lower).2⟩
    | assignment name value span =>
      obtain ⟨id, e, others, inside, lower, rfl⟩ := lower
      exact ⟨(ih lower).1,
        List.forall_mem_cons.2 ⟨.assignment (lowers_expression.1 _ inside), (ih lower).2⟩⟩
    | expression expr =>
      obtain ⟨others, lower, rfl⟩ := lower
      exact ih lower

theorem Program.Lowers.isProgram {program : Program} {t : Tree} (lowers : program.Lowers t) : t.IsProgram := by
  obtain ⟨id, ds, vs, es, e, lower, last, rfl⟩ := lowers
  exact .root lower.isItem.1 lower.isItem.2 (lowers_expression.2.1 _ last)

end DerivedTables
