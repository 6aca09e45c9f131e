import DerivedTables.Proofs.Lowering.Lowered

/-!
The trees that expressions and programs are lowered to, and stay when names are bound.
-/

namespace DerivedTables

namespace Kind

def isAtom : Kind → Bool
  | string _ | number _ | boolean _ | identifier _ | context _ | null | reference .. => true
  | _ => false

def isCompound : Kind → Bool
  | binary .. | invoke .. | conditional .. | effect .. | rows _ => true
  | _ => false

end Kind

namespace Tree

def IsParam (t : Tree) : Prop := ∃ id name declared, t = node id (.param name declared) []

inductive Expression : Tree → Prop
  | atom {id : NodeId} {kind : Kind} (atom : kind.isAtom = true) : Expression (node id kind [])
  | compound {id : NodeId} {kind : Kind} {parts : List Tree} (compound : kind.isCompound = true)
    (each : ∀ t ∈ parts, Expression t) : Expression (node id kind parts)
  | access {id name : NodeId} {field : String} {source : Tree} (inside : Expression source) :
    Expression (node id (.access source.id name) [source, node name (.identifier field) []])
  | binding {id : NodeId} {name : String} {value next : Tree} (bound : Expression value)
    (follows : Expression next) : Expression (node id (.binding name value.id next.id) [value, next])
  | function {id : NodeId} {params : List Tree} {body : Tree} (leaves : ∀ t ∈ params, t.IsParam)
    (inside : Expression body) :
    Expression (node id (.function none (params.map Tree.id) body.id) (params ++ [body]))

inductive IsProperty : Tree → Prop
  | column {id : NodeId} {name : String} {declared : Ty} : IsProperty (node id (.column name declared) [])
  | derived {id : NodeId} {name : String} {e : Tree} (inside : e.Expression) :
    IsProperty (node id (.derived name e.id) [e])
  | method {id f : NodeId} {name shown : String} {params : List Tree} {body : Tree}
    (leaves : ∀ t ∈ params, t.IsParam) (inside : body.Expression) :
    IsProperty (node id (.derived name f)
      [node f (.function (some shown) (params.map Tree.id) body.id) (params ++ [body])])

inductive IsItem : Tree → Prop
  | definition {id : NodeId} {name : String} {properties : List Tree}
    (each : ∀ t ∈ properties, t.IsProperty) :
    IsItem (node id (.definition name (properties.map Tree.id)) properties)
  | assignment {id : NodeId} {name : String} {e : Tree} (inside : e.Expression) :
    IsItem (node id (.assignment name e.id) [e])

inductive IsProgram : Tree → Prop
  | root {id : NodeId} {definitions assignments : List Tree} {e : Tree}
    (tables : ∀ t ∈ definitions, t.IsItem) (values : ∀ t ∈ assignments, t.IsItem)
    (last : e.Expression) :
    IsProgram (node id (.root (definitions.map Tree.id) (assignments.map Tree.id) e.id)
      (definitions ++ assignments ++ [e]))

variable {picked : NodeId → Prop} {target : NodeId} {name : String} {t t' : Tree}

theorem ContinuedAll.forall₂ : {ts ts' : List Tree} → ContinuedAll picked target name ts ts' →
    List.Forall₂ (Continued picked target name) ts ts'
  | [], [], _ => .nil
  | _ :: _, _ :: _, ⟨here, there⟩ => .cons here there.forall₂

theorem exists_of_mem_forall₂ {α β : Type} {R : α → β → Prop} {xs : List α} {ys : List β}
    (related : List.Forall₂ R xs ys) : ∀ y ∈ ys, ∃ x ∈ xs, R x y := by
  induction related with
  | nil => simp
  | cons here _ ih =>
    refine List.forall_mem_cons.2 ⟨⟨_, by simp, here⟩, fun y listed => ?_⟩
    obtain ⟨x, part, there⟩ := ih y listed
    exact ⟨x, List.mem_cons_of_mem _ part, there⟩

theorem Continued.eq_of_param (leaf : t.IsParam) (continued : Continued picked target name t t') : t' = t := by
  obtain ⟨id, shown, declared, rfl⟩ := leaf
  obtain ⟨null, -⟩ | ⟨-, parts', below, rfl⟩ := continued
  · cases null
  · cases below.forall₂
    rfl

theorem ContinuedAll.eq_of_params : {ps us : List Tree} → {b : Tree} → (∀ t ∈ ps, t.IsParam) →
    ContinuedAll picked target name (ps ++ [b]) us →
    ∃ b', us = ps ++ [b'] ∧ Continued picked target name b b'
  | [], us, b, _, continued => by
    obtain _ | ⟨here, _ | _⟩ := continued.forall₂
    exact ⟨_, rfl, here⟩
  | p :: ps, _ :: us, b, leaves, ⟨here, there⟩ => by
    simp only [List.forall_mem_cons] at leaves
    obtain ⟨b', rfl, continued⟩ := there.eq_of_params leaves.2
    rw [here.eq_of_param leaves.1]
    exact ⟨b', rfl, continued⟩

theorem isCompound_withChildren (k : Kind) (filled : List NodeId) :
    (k.withChildren filled).isCompound = k.isCompound := by
  unfold Kind.withChildren
  split <;> rfl

theorem Continued.expression (expression : t.Expression)
    (continued : Continued picked target name t t') : t'.Expression := by
  induction expression generalizing t' with
  | atom atom =>
    obtain ⟨-, -, fresh, rfl⟩ | ⟨-, parts', below, rfl⟩ := continued
    · exact .atom rfl
    · cases below.forall₂
      refine .atom ?_
      cases ‹Kind› <;> first | rfl | cases atom
  | compound compound _ ih =>
    obtain ⟨rfl, -⟩ | ⟨-, parts', below, rfl⟩ := continued
    · cases compound
    · refine .compound ((isCompound_withChildren _ _).trans compound) fun t' part' => ?_
      obtain ⟨t, part, here⟩ := exists_of_mem_forall₂ below.forall₂ t' part'
      exact ih t part here
  | access _ ih =>
    obtain ⟨null, -⟩ | ⟨-, parts', below, rfl⟩ := continued
    · cases null
    obtain _ | ⟨here, _ | ⟨leaf, _ | _⟩⟩ := below.forall₂
    obtain ⟨null, -⟩ | ⟨-, _, nothing, rfl⟩ := leaf
    · cases null
    cases nothing.forall₂
    exact .access (ih here)
  | binding _ _ valueIH nextIH =>
    obtain ⟨null, -⟩ | ⟨-, parts', below, rfl⟩ := continued
    · cases null
    obtain _ | ⟨here, _ | ⟨there, _ | _⟩⟩ := below.forall₂
    exact .binding (valueIH here) (nextIH there)
  | function leaves _ ih =>
    obtain ⟨null, -⟩ | ⟨-, parts', below, rfl⟩ := continued
    · cases null
    obtain ⟨b', rfl, here⟩ := below.eq_of_params leaves
    rw [show ∀ (ps : List Tree) (b b' : Tree), (Kind.function none (ps.map Tree.id) b.id).withChildren
        ((ps ++ [b']).map Tree.id) = .function none (ps.map Tree.id) b'.id by
      intro ps b b'
      simp [Kind.withChildren]]
    exact .function leaves (ih here)

end Tree

open Tree

theorem ParamsLower.isParam {params : List Param} {ts : List Tree} (lower : ParamsLower params ts) :
    ∀ t ∈ ts, t.IsParam := by
  induction lower with
  | nil => simp
  | cons first _ ih =>
    obtain ⟨id, rfl⟩ := first
    exact List.forall_mem_cons.2 ⟨⟨_, _, _, rfl⟩, ih⟩

/-- Along the recursion of lowering: what holds of every tree that is put together as expressions are, holds of
what expressions, blocks and arguments become. -/
theorem lowers_induct {P : Tree → Prop}
    (atom : ∀ {id : NodeId} {kind : Kind}, kind.isAtom = true → (∀ target shown, kind ≠ .reference target shown) →
      P (node id kind []))
    (compound : ∀ {id : NodeId} {kind : Kind} {parts : List Tree}, kind.isCompound = true → (∀ t ∈ parts, P t) →
      P (node id kind parts)) (access : ∀ {id name : NodeId} {field : String} {source : Tree}, P source →
      P (node id (.access source.id name) [source, node name (.identifier field) []]))
    (function : ∀ {id : NodeId} {params : List Tree} {body : Tree}, (∀ t ∈ params, t.IsParam) → P body →
      P (node id (.function none (params.map Tree.id) body.id) (params ++ [body])))
    (binding : ∀ {id : NodeId} {name : String} {value next : Tree}, P value → P next →
      P (node id (.binding name value.id next.id) [value, next]))
    (continued : ∀ {picked : NodeId → Prop} {id : NodeId} {name : String} {whole next joined : Tree}, P whole → P next →
      Continued picked id name whole joined → P (node id (.binding name next.id joined.id) [next, joined])) :
    (∀ (e : Expr) {t}, e.Lowers t → P t) ∧ (∀ es {t}, BlockLowers es t → P t) ∧
      ∀ es {ts}, ArgsLower es ts → ∀ t ∈ ts, P t := by
  refine Lowering.lowerExpr.mutual_induct _ _ _ ?string ?number ?boolean ?identifier ?context ?binary
    ?member ?lambda ?call ?ifThen ?ifElse ?binding ?block ?ret ?rows ?paren ?nil ?last ?early ?letThen
    ?ifThenThen ?ifElseThen ?effectThen ?none ?more
  case string | number | boolean | identifier | context =>
    intros
    rename_i lowers
    rw [Expr.Lowers] at lowers
    obtain ⟨id, rfl⟩ := lowers
    exact atom rfl (by simp)
  case binary =>
    intro span op lhs rhs left right t lowers
    rw [Expr.Lowers] at lowers
    obtain ⟨id, l, r, lhs, rhs, rfl⟩ := lowers
    exact compound rfl (by simp [left lhs, right rhs])
  case member =>
    intro span object property inside t lowers
    rw [Expr.Lowers] at lowers
    obtain ⟨id, name, o, lowers, rfl⟩ := lowers
    exact access (inside lowers)
  case lambda =>
    intro span params body inside t lowers
    rw [Expr.Lowers] at lowers
    obtain ⟨id, ps, b, leaves, lowers, rfl⟩ := lowers
    exact function leaves.isParam (inside lowers)
  case call =>
    intro span callee args called given t lowers
    rw [Expr.Lowers] at lowers
    obtain ⟨id, f, ts, lowers, others, rfl⟩ := lowers
    exact compound rfl (List.forall_mem_cons.2 ⟨called lowers, given others⟩)
  case ifThen =>
    intro span condition thenBranch test hit t lowers
    rw [Expr.Lowers] at lowers
    obtain ⟨id, c, y, n, tested, taken, rfl⟩ := lowers
    exact compound rfl (by simpa using ⟨test tested, hit taken, atom rfl (by simp)⟩)
  case ifElse =>
    intro span condition thenBranch elseBranch test hit miss t lowers
    rw [Expr.Lowers] at lowers
    obtain ⟨id, c, y, n, tested, taken, passed, rfl⟩ := lowers
    exact compound rfl (by simp [test tested, hit taken, miss passed])
  case binding =>
    intro span name value t lowers
    rw [Expr.Lowers] at lowers
    cases lowers
  case block | ret | paren =>
    intro _ _ inside t lowers
    rw [Expr.Lowers] at lowers
    exact inside lowers
  case rows =>
    intro span operand inside t lowers
    rw [Expr.Lowers] at lowers
    obtain ⟨id, o, lowers, rfl⟩ := lowers
    exact compound rfl (by simp [inside lowers])
  case nil =>
    intro t lowers
    rw [BlockLowers] at lowers
    obtain ⟨id, rfl⟩ := lowers
    exact atom rfl (by simp)
  case last =>
    intro span value inside t lowers
    rw [BlockLowers] at lowers
    exact inside lowers
  case early =>
    intro span value rest more _ t lowers
    rw [BlockLowers] at lowers
    · cases lowers
    · exact more
  case letThen =>
    intro span name value rest after inside t lowers
    rw [BlockLowers] at lowers
    obtain ⟨id, v, next, lowers, follows, -, rfl⟩ := lowers
    exact binding (inside lowers) (after follows)
  case ifThenThen =>
    intro span condition thenBranch rest after test hit t lowers
    rw [BlockLowers] at lowers
    obtain ⟨id, c, y, next, tested, taken, follows, rfl⟩ := lowers
    exact compound rfl (by simp [test tested, hit taken, after follows])
  case ifElseThen =>
    intro span condition thenBranch elseBranch rest after test hit miss t lowers
    rw [BlockLowers] at lowers
    obtain ⟨id, k, count, c, y, n, next, joined, tested, taken, passed, follows, ends, -, rfl⟩ := lowers
    have whole : P (node k (.conditional c.id y.id n.id) [c, y, n]) :=
      compound rfl (by simp [test tested, hit taken, miss passed])
    exact continued whole (after follows) ends
  case effectThen =>
    intro expr rest _ noReturn noLet noIf noIfElse after inside t lowers
    rw [BlockLowers] at lowers
    · obtain ⟨id, e, next, lowers, follows, rfl⟩ := lowers
      exact compound rfl (by simp [inside lowers, after follows])
    all_goals assumption
  case none =>
    intro ts lower
    rw [ArgsLower] at lower
    simp [lower]
  case more =>
    intro arg rest inside others ts lower
    rw [ArgsLower] at lower
    obtain ⟨t, more, lowers, lower, rfl⟩ := lower
    exact List.forall_mem_cons.2 ⟨inside lowers, others lower⟩

theorem lowers_expression : (∀ (e : Expr) {t}, e.Lowers t → t.Expression) ∧ (∀ es {t}, BlockLowers es t → t.Expression)
    ∧ ∀ es {ts}, ArgsLower es ts → ∀ t ∈ ts, t.Expression :=
  lowers_induct (fun atom _ => .atom atom) .compound .access .function .binding
    fun whole next ends => .binding next (ends.expression whole)

end DerivedTables
