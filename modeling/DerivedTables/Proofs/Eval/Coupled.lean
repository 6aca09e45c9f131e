import DerivedTables.Eval.Evaluator
import DerivedTables.Proofs.Eval.Alike
import DerivedTables.Proofs.Runs

/-!
Two evaluations side by side.
-/

namespace DerivedTables

attribute [local simp] Kind.entered Kind.isInert Kind.children

variable {N : Type}

def Fault.locate (node : NodeId) : Fault → Fault
  | unbound _ name => unbound node name
  | mismatch _ expected found => mismatch node expected found
  | missingField _ field => missingField node field
  | arity _ expected found => arity node expected found
  | notEvaluable _ kind => notEvaluable node kind
  | dangling _ => dangling node
  | tooDeep _ => tooDeep node

structure Faults where
  agree : Fault → Option Fault → Prop
  lenient : ∀ {e o}, agree e none → agree e o

namespace Faults

def any : Faults := ⟨fun _ _ => True, id⟩

def like (same : Fault → Fault → Prop) : Faults := ⟨fun e o => ∃ e', o = some e' ∧ same e e', by simp⟩

def Near (faults : Faults) (x y : NodeId) : Prop := ∀ e : Fault, faults.agree (e.locate x) (some (e.locate y))

end Faults

def fault? {α : Type} : EStateM.Result Fault (Bindings N) α → Option Fault
  | .ok .. => none
  | .error e _ => some e

theorem Faults.of_error {α : Type} {same : Fault → Fault → Prop} {result : EStateM.Result Fault (Bindings N) α} {e e' : Fault}
    {σ : Bindings N} (failed : result = .error e' σ) (related : same e e') : (Faults.like same).agree e (fault? result) :=
  ⟨e', by rw [failed, fault?], related⟩

def Couples {α β : Type} (faults : Faults) (pre : Bindings N → Bindings N → Prop)
    (post : α → β → Bindings N → Bindings N → Prop) (first : Evaluation N α) (second : Evaluation N β) : Prop :=
  ∀ ρ σ, pre ρ σ →
    (∃ x y ρ' σ', first ρ = .ok x ρ' ∧ second σ = .ok y σ' ∧ post x y ρ' σ') ∨
      ∃ e ρ', first ρ = .error e ρ' ∧ faults.agree e (fault? (second σ))

namespace Couples

variable {faults : Faults} {α β γ δ : Type} {pre env : Bindings N → Bindings N → Prop}
  {post : γ → δ → Bindings N → Bindings N → Prop} {result : α → β → Prop} {first : Evaluation N α}
  {second : Evaluation N β}

theorem pure {x : α} {y : β} (related : result x y) :
    Couples faults env (fun x y ρ σ => result x y ∧ env ρ σ) (pure x) (pure y) :=
  fun ρ σ agree => .inl ⟨x, y, ρ, σ, rfl, rfl, related, agree⟩

theorem throw {e e' : Fault} (agree : faults.agree e (some e')) : Couples faults pre post (throw e) (throw e') :=
  fun ρ _ _ => .inr ⟨e, ρ, rfl, agree⟩

theorem seq {mid : α → β → Bindings N → Bindings N → Prop} {f : α → Evaluation N γ} {g : β → Evaluation N δ}
    (head : Couples faults pre mid first second) (tail : ∀ x y, Couples faults (mid x y) post (f x) (g y)) :
    Couples faults pre post (first >>= f) (second >>= g) := by
  intro ρ σ agree
  obtain ⟨x, y, ρ₁, σ₁, ran, ran', agree₁⟩ | ⟨e, ρ₁, ran, failed⟩ := head ρ σ agree
  · rw [bind_of_ok ran, bind_of_ok ran']
    exact tail x y ρ₁ σ₁ agree₁
  · refine .inr ⟨e, ρ₁, bind_of_error ran, ?_⟩
    cases ran' : second σ with
    | ok =>
      rw [ran'] at failed
      exact faults.lenient failed
    | error =>
      rw [ran'] at failed
      rwa [bind_of_error ran']

theorem bind {mid : Bindings N → Bindings N → Prop} {f : α → Evaluation N γ} {g : β → Evaluation N δ}
    (head : Couples faults pre (fun x y ρ σ => result x y ∧ mid ρ σ) first second)
    (tail : ∀ x y, result x y → Couples faults mid post (f x) (g y)) :
    Couples faults pre post (first >>= f) (second >>= g) :=
  head.seq fun x y ρ σ held => tail x y held.1 ρ σ held.2

theorem mono {stronger : Bindings N → Bindings N → Prop} {weaker : γ → δ → Bindings N → Bindings N → Prop}
    {m : Evaluation N γ} {n : Evaluation N δ} (couples : Couples faults pre post m n)
    (before : ∀ ρ σ, stronger ρ σ → pre ρ σ) (after : ∀ x y ρ σ, post x y ρ σ → weaker x y ρ σ) :
    Couples faults stronger weaker m n := by
  intro ρ σ agree
  obtain ⟨x, y, ρ', σ', ran, ran', held⟩ | failed := couples ρ σ (before ρ σ agree)
  · exact .inl ⟨x, y, ρ', σ', ran, ran', after x y ρ' σ' held⟩
  · exact .inr failed

theorem get {f : Bindings N → Evaluation N γ} {g : Bindings N → Evaluation N δ}
    (tail : ∀ ρ σ, pre ρ σ → Couples faults pre post (f ρ) (g σ)) :
    Couples faults pre post (MonadState.get >>= f) (MonadState.get >>= g) :=
  fun ρ σ agree => tail ρ σ agree ρ σ agree

theorem run {m : Evaluation N γ} {n : Evaluation N δ} (couples : Couples faults pre post m n) {ρ σ : Bindings N}
    (agree : pre ρ σ) {x : γ} {ρ' : Bindings N} (done : m ρ = .ok x ρ') : ∃ y σ', n σ = .ok y σ' ∧ post x y ρ' σ' := by
  obtain ⟨_, y, _, σ', ran, ran', held⟩ | ⟨e, _, failed, -⟩ := couples ρ σ agree
  · cases done.symm.trans ran
    exact ⟨y, σ', ran', held⟩
  · cases done.symm.trans failed

theorem ends {same : Fault → Fault → Prop} {m : Evaluation N γ} {n : Evaluation N δ}
    (couples : Couples (.like same) pre post m n) {ρ σ : Bindings N} (agree : pre ρ σ) :
    (∃ x y ρ' σ', m ρ = .ok x ρ' ∧ n σ = .ok y σ' ∧ post x y ρ' σ') ∨ ∃ e e' ρ' σ', m ρ = .error e ρ' ∧ n σ = .error e'
    σ' ∧ same e e' := by
  refine (couples ρ σ agree).imp_right ?_
  rintro ⟨e, ρ', ran, e', failed, related⟩
  cases ran' : n σ with
  | ok => simp [ran', fault?] at failed
  | error e'' σ' =>
    rw [ran'] at failed
    cases failed
    exact ⟨e, e', ρ', σ', ran, rfl, related⟩

theorem wrap (f : α → γ) {first second : Evaluation N α} {mid : Bindings N → Bindings N → Prop}
    (same : Couples faults pre (fun x y ρ σ => x = y ∧ mid ρ σ) first second) :
    Couples faults pre (fun x y ρ σ => x = y ∧ mid ρ σ) (do return f (← first)) (do return f (← second)) := by
  apply same.bind
  rintro x _ rfl
  exact pure rfl

theorem mapM {f : α → Evaluation N γ} {g : β → Evaluation N γ} {xs : List α} {ys : List β}
    (items : List.Forall₂ (fun x y => Couples faults env (fun u w ρ σ => u = w ∧ env ρ σ) (f x) (g y)) xs ys) :
    Couples faults env (fun us ws ρ σ => us = ws ∧ env ρ σ) (xs.mapM f) (ys.mapM g) := by
  induction items with
  | nil => exact pure rfl
  | cons head _ ih =>
    simp only [List.mapM_cons]
    apply head.bind
    rintro u _ rfl
    exact ih.wrap (u :: ·)

theorem forM {f : α → Evaluation N PUnit} {g : β → Evaluation N PUnit} {xs : List α} {ys : List β}
    (items : List.Forall₂ (fun x y => Couples faults env (fun u w ρ σ => u = w ∧ env ρ σ) (f x) (g y)) xs ys) :
    Couples faults env (fun u w ρ σ => u = w ∧ env ρ σ) (xs.forM f) (ys.forM g) := by
  induction items with
  | nil => exact pure rfl
  | cons head _ ih => exact head.bind fun _ _ _ => ih

end Couples

inductive Halfway (N : Type) where
  | stuck (expected : String)
  | done (value : Value N)
  | needs (rest : Value N → Except String (Value N))

namespace Halfway

def numbers (combine : N → N → Value N) : Value N → Halfway N
  | .number x => .needs fun
    | .number y => .ok (combine x y)
    | _ => .error "number"
  | _ => .stuck "number"

def logical (decisive : Bool) : Value N → Halfway N
  | .boolean x => if x = decisive then .done (.boolean x) else .needs fun
    | .boolean y => .ok (.boolean y)
    | _ => .error "boolean"
  | _ => .stuck "boolean"

end Halfway

def Operator.half [Arithmetic N] (op : Operator) (u : Value N) : Halfway N :=
  match op with
  | .and => .logical false u
  | .or => .logical true u
  | .eq => .needs fun w => .ok (.boolean (u.same w))
  | .ne => .needs fun w => .ok (.boolean (!u.same w))
  | .lt => .numbers (fun x y => .boolean (Arithmetic.less x y)) u
  | .gt => .numbers (fun x y => .boolean (Arithmetic.less y x)) u
  | .add => .numbers (fun x y => .number (Arithmetic.add x y)) u
  | .sub => .numbers (fun x y => .number (Arithmetic.sub x y)) u
  | .mul => .numbers (fun x y => .number (Arithmetic.mul x y)) u
  | .div => .numbers (fun x y => .number (Arithmetic.div x y)) u

namespace Setting

theorem kind_of_kind? {s : Setting N} {id : NodeId} {k : Kind} (held : s.arena.kind? id = some k) :
    s.kind id = pure k := by
  simp [kind, held]

theorem kind_of_none {s : Setting N} {id : NodeId} (held : s.arena.kind? id = none) :
    s.kind id = throw (.dangling id) := by
  simp [kind, held]

/-- An operator goes on to its right operand only if the left one is of the right type and does not decide. -/
theorem binary_eq [Arithmetic N] (op : Operator) (l r : NodeId) (eval : NodeId → Evaluation N (Value N)) :
    binary op l r eval = (do
      let u ← eval l
      match op.half u with
      | .stuck expected => throw (.mismatch l expected u.typeName)
      | .done value => return value
      | .needs rest => do
        let w ← eval r
        match rest w with
        | .ok value => return value
        | .error expected => throw (.mismatch r expected w.typeName)) := by
  have operand {α : Type} (f g : Value N → Evaluation N α) (same : ∀ w, f w = g w) : (eval r >>= f) = eval r >>= g :=
    bind_congr same
  cases op <;> simp only [binary, numbersAt, numberAt, booleanAt, bind_assoc] <;> refine bind_congr fun u => ?_
  case and | or =>
    cases u with
    | boolean x => cases x <;> first | rfl | exact operand _ _ fun w => by cases w <;> rfl
    | _ => rfl
  case eq | ne => rfl
  all_goals
    cases u with
    | number x => exact operand _ _ fun w => by cases w <;> rfl
    | _ => rfl

end Setting

def Kind.isFlat : Kind → Bool
  | binding .. | reference .. | invoke .. | split .. | function .. | param .. => false
  | _ => true

namespace Setting

def member (s : Setting N) (property : NodeId) : Evaluation N String := do
  match ← s.kind property with
  | .identifier field => return field
  | other => throw (.mismatch property "identifier" other.name)

def found (fault : Fault) : Option (Value N) → Evaluation N (Value N)
  | some value => return value
  | none => throw fault

def fieldOf (id : NodeId) (field : String) : Value N → Evaluation N (Value N)
  | .object fields => found (.missingField id field) (fields.lookup field)
  | other => throw (.mismatch id "object" other.typeName)

variable [Arithmetic N]

def flatly (s : Setting N) (eval : NodeId → Evaluation N (Value N)) (id : NodeId) : Kind → Evaluation N (Value N)
  | .string value => return .string value
  | .number value => return .number (Arithmetic.literal value)
  | .boolean value => return .boolean value
  | .null => return .null
  | .binary op lhs rhs => binary op lhs rhs eval
  | .conditional condition thenBranch elseBranch => do
    if ← asBoolean condition (← eval condition) then eval thenBranch else eval elseBranch
  | .effect expr next => do
    discard (eval expr)
    eval next
  | .access source property => do
    let field ← s.member property
    fieldOf id field (← eval source)
  | .context name => found (.unbound id ("$" ++ name)) (s.context.lookup name)
  | .assignment _ value | .derived _ value => eval value
  | other => throw (.notEvaluable id other.name)

theorem flatly_inert {s : Setting N} {eval : NodeId → Evaluation N (Value N)} {x : NodeId} {k : Kind}
    (inert : k.isInert = true) : s.flatly eval x k = throw (.notEvaluable x k.name) := by
  cases k <;> first | rfl | cases inert

omit [Arithmetic N] in
theorem member_bind (s : Setting N) (property : NodeId) (rest : String → Evaluation N (Value N)) :
    (s.member property >>= rest) = (do
      match ← s.kind property with
      | .identifier field => rest field
      | other => throw (.mismatch property "identifier" other.name)) := by
  unfold member
  rw [bind_assoc]
  refine bind_congr fun k => ?_
  cases k <;> rfl

theorem evalWithin_flat {s : Setting N} {x : NodeId} {k : Kind} (held : s.arena.kind? x = some k) (flat : k.isFlat = true)
    (depth : Nat) : s.evalWithin (depth + 1) x = s.flatly (s.evalWithin depth) x k := by
  rw [evalWithin, kind_of_kind? held, pure_bind]
  cases k with
  | access => exact (s.member_bind _ _).symm
  | _ => first | rfl | cases flat

end Setting

namespace Couples

open Setting

variable {faults : Faults} {pre mid post env : Bindings N → Bindings N → Prop} {s t : Setting N} {x y : NodeId}
  {eval eval' : NodeId → Evaluation N (Value N)}

theorem found {e e' : Fault} (agree : faults.agree e (some e')) (value : Option (Value N)) :
    Couples faults env (fun u w ρ σ => u = w ∧ env ρ σ) (found e value) (found e' value) := by
  cases value with
  | some value => exact .pure rfl
  | none => exact .throw agree

theorem columnValue (context : s.context = t.context) (near : faults.Near x y) {n m : String}
    (unbound : faults.agree (.unbound x n) (some (.unbound y m))) (column : String) :
    Couples faults env (fun u w ρ σ => u = w ∧ env ρ σ) (s.columnValue x n column) (t.columnValue y m column) := by
  unfold Setting.columnValue
  rw [context]
  split
  · exact found (near (.missingField x column)) _
  · exact .throw unbound

theorem asBoolean (near : faults.Near x y) (v : Value N) :
    Couples faults env (fun u w ρ σ => u = w ∧ env ρ σ) (asBoolean x v) (asBoolean y v) := by
  cases v with
  | boolean b => exact .pure rfl
  | _ => exact .throw (near (.mismatch x _ _))

theorem fieldOf (near : faults.Near x y) (field : String) (v : Value N) :
    Couples faults env (fun u w ρ σ => u = w ∧ env ρ σ) (fieldOf x field v) (fieldOf y field v) := by
  cases v with
  | object fields => exact found (near (.missingField x field)) _
  | _ => exact .throw (near (.mismatch x _ _))

variable [Arithmetic N]

theorem binary (op : Operator) {l l' r r' : NodeId} (left : faults.Near l l') (right : faults.Near r r')
    (lhs : Couples faults pre (fun u w ρ σ => u = w ∧ mid ρ σ) (eval l) (eval' l'))
    (rhs : Couples faults mid (fun u w ρ σ => u = w ∧ post ρ σ) (eval r) (eval' r')) (skip : ∀ ρ σ, mid ρ σ → post ρ σ) :
    Couples faults pre (fun u w ρ σ => u = w ∧ post ρ σ) (binary op l r eval) (binary op l' r' eval') := by
  rw [binary_eq, binary_eq]
  apply lhs.bind
  rintro u _ rfl
  cases op.half u with
  | stuck => exact .throw (left (.mismatch l _ _))
  | done => exact (Couples.pure rfl).mono skip fun _ _ _ _ held => held
  | needs rest =>
    apply rhs.bind
    rintro w _ rfl
    cases rest w with
    | ok => exact .pure rfl
    | error => exact .throw (right (.mismatch r _ _))

omit [Arithmetic N] in
theorem conditional {c c' yes yes' no no' : NodeId} (near : faults.Near c c')
    (condition : Couples faults pre (fun u w ρ σ => u = w ∧ mid ρ σ) (eval c) (eval' c'))
    (thenBranch : Couples faults mid (fun u w ρ σ => u = w ∧ post ρ σ) (eval yes) (eval' yes'))
    (elseBranch : Couples faults mid (fun u w ρ σ => u = w ∧ post ρ σ) (eval no) (eval' no')) :
    Couples faults pre (fun u w ρ σ => u = w ∧ post ρ σ)
      (do if ← Setting.asBoolean c (← eval c) then eval yes else eval no)
      (do if ← Setting.asBoolean c' (← eval' c') then eval' yes' else eval' no') := by
  apply condition.bind
  rintro v _ rfl
  apply (asBoolean near v).bind
  rintro (_ | _) _ rfl
  · exact elseBranch
  · exact thenBranch

theorem flatly {node binder : NodeId → NodeId → Prop} {idle : NodeId → Prop} {x₀ y₀ : NodeId} {k l : Kind}
    (alike : k.Alike node binder idle x₀ y₀ l) (flat : k.isFlat = true) (context : s.context = t.context)
    (near : faults.Near x y) (nears : ∀ {c c'}, node c c' → faults.Near c c')
    (parts : ∀ {c c'}, c ∈ k.entered → c' ∈ l.entered → node c c' →
      Couples faults env (fun u w ρ σ => u = w ∧ env ρ σ) (eval c) (eval' c'))
    (named : ∀ {v p v' p'}, k = .access v p → l = .access v' p' → node p p' →
      Couples faults env (fun u w ρ σ => u = w ∧ env ρ σ) (s.member p) (t.member p'))
    (inert : k.isInert = true → (∀ e o, faults.agree e o) ∨ l.isInert = true ∧ l.name = k.name) :
    Couples faults env (fun u w ρ σ => u = w ∧ env ρ σ) (s.flatly eval x k) (t.flatly eval' y l) := by
  cases alike with
  | string | number | boolean | null => exact .pure rfl
  | identifier | column => exact .throw (near (.notEvaluable x _))
  | context name =>
    simp only [Setting.flatly, context]
    exact found (near (.unbound x _)) _
  | binary op lhs rhs =>
    exact binary op (nears lhs) (nears rhs) (parts (by simp) (by simp) lhs)
      (parts (by simp) (by simp) rhs) fun _ _ agree => agree
  | conditional condition thenBranch elseBranch =>
    exact conditional (nears condition) (parts (by simp) (by simp) condition)
      (parts (by simp) (by simp) thenBranch)
      (parts (by simp) (by simp) elseBranch)
  | effect expr next =>
    exact ((parts (by simp) (by simp) expr).wrap fun _ => ()).bind fun _ _ _ =>
      parts (by simp) (by simp) next
  | access source property =>
    apply (named rfl rfl property).bind
    rintro field _ rfl
    apply (parts (by simp) (by simp) source).bind
    rintro v _ rfl
    exact fieldOf near field v
  | assignment _ _ value | derived _ _ value => exact parts (by simp) (by simp) value
  | inert l isInert =>
    rw [flatly_inert isInert]
    obtain any | ⟨isInert', same⟩ := inert isInert
    · exact fun ρ _ _ => .inr ⟨_, ρ, rfl, any _ _⟩
    · rw [flatly_inert isInert', same]
      exact .throw (near (.notEvaluable x _))
  | param | binding | reference | invoke | split | function | handed => cases flat

end Couples

end DerivedTables
