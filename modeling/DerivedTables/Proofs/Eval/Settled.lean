import DerivedTables.Proofs.Eval.Correspondence

/-!
Values that do not depend on how deep evaluation may go, nor on what else is bound.
-/

namespace DerivedTables

variable {N : Type}

namespace Setting

def scalar? : EStateM.Result Fault (Bindings N) (Value N) → Option (N ⊕ Bool)
  | .ok (.number n) _ => some (.inl n)
  | .ok (.boolean b) _ => some (.inr b)
  | _ => none

theorem eq_ok_of_scalar? {result : EStateM.Result Fault (Bindings N) (Value N)} {x : N ⊕ Bool}
    (given : scalar? result = some x) : ∃ ρ, result = .ok (x.elim .number .boolean) ρ := by
  unfold scalar? at given
  split at given
  next ρ =>
    cases given
    exact ⟨ρ, rfl⟩
  next ρ =>
    cases given
    exact ⟨ρ, rfl⟩
  next => cases given

variable [Arithmetic N] (s : Setting N)

/-- The value of a node under the given bindings, if evaluation may go deep enough. -/
def Evaluates (ρ : Bindings N) (id : NodeId) (value : Value N) : Prop :=
  ∃ depth ρ', s.evalWithin depth id ρ = .ok value ρ'

/-- What a function gives for the arguments when nothing else is bound. -/
def Calls (function : NodeId) (args : List (Value N)) (value : Value N) : Prop :=
  ∃ depth ρ', s.callWithin depth function args ∅ = .ok value ρ'

end Setting

def Correspondence.refl (s : Setting N) : Correspondence s s where
  node := Eq
  binder := Eq
  idle _ := False
  env := Eq
  context := rfl
  alike := by
    rintro x _ k rfl held
    exact ⟨k, held, Kind.alike_self (fun _ _ => rfl) fun _ _ => rfl⟩
  isFunction := False.elim
  insert := by
    rintro x _ v ρ _ rfl rfl
    rfl
  found := by
    rintro x _ v ρ _ rfl rfl found
    exact found
  missing := by
    rintro x _ k ρ _ rfl rfl _ _ missing
    exact missing

namespace Setting

variable [Arithmetic N] {s : Setting N}
variable {ρ : Bindings N} {args : List (Value N)} {id : NodeId}

theorem evalWithin_mono {depth depth' : Nat} (within : depth ≤ depth')
    {ρ' : Bindings N} {value : Value N} (done : s.evalWithin depth id ρ = .ok value ρ') :
    s.evalWithin depth' id ρ = .ok value ρ' := by
  obtain ⟨_, _, done', rfl, rfl⟩ :=
    ((Correspondence.refl s).carries within).eval rfl |>.run rfl done
  exact done'

theorem callWithin_mono {depth depth' : Nat} (within : depth ≤ depth') {ρ' : Bindings N} {value : Value N}
    (done : s.callWithin depth id args ρ = .ok value ρ') : s.callWithin depth' id args ρ = .ok value ρ' := by
  obtain ⟨_, _, done', rfl, rfl⟩ :=
    ((Correspondence.refl s).carries within).call args rfl |>.run rfl done
  exact done'

theorem Calls.unique {function : NodeId} {v w : Value N}
    (first : s.Calls function args v) (second : s.Calls function args w) : v = w := by
  obtain ⟨d, ρ, first⟩ := first
  obtain ⟨e, σ, second⟩ := second
  have first := callWithin_mono (Nat.le_max_left d e) first
  have second := callWithin_mono (Nat.le_max_right d e) second
  simp_all

theorem Evaluates.unique {v w : Value N} (first : s.Evaluates ρ id v) (second : s.Evaluates ρ id w) : v = w := by
  obtain ⟨d, σ, first⟩ := first
  obtain ⟨e, τ, second⟩ := second
  have first := evalWithin_mono (Nat.le_max_left d e) first
  have second := evalWithin_mono (Nat.le_max_right d e) second
  simp_all

theorem Calls.of_scalar? (depth : Nat) {function : NodeId} (x : N ⊕ Bool)
    (given : scalar? (s.callWithin depth function args ∅) = some x) : s.Calls function args (x.elim .number .boolean) :=
  ⟨depth, eq_ok_of_scalar? given⟩

theorem Evaluates.of_scalar? (depth : Nat) (x : N ⊕ Bool) (given : scalar? (s.evalWithin depth id ρ) = some x) :
    s.Evaluates ρ id (x.elim .number .boolean) :=
  ⟨depth, eq_ok_of_scalar? given⟩

end Setting

def Yields {α : Type} (keeps : Bindings N → Prop) (m : Evaluation N α) (x : α) : Prop :=
  ∀ ρ, keeps ρ → ∃ ρ', m ρ = .ok x ρ' ∧ keeps ρ'

namespace Yields

variable {keeps : Bindings N → Prop} {α β : Type}

theorem pure (x : α) : Yields keeps (pure x) x := fun ρ kept => ⟨ρ, rfl, kept⟩

theorem bind {m : Evaluation N α} {f : α → Evaluation N β} {x : α} {y : β}
    (head : Yields keeps m x) (tail : Yields keeps (f x) y) : Yields keeps (m >>= f) y := by
  intro ρ kept
  obtain ⟨ρ₁, ran, kept₁⟩ := head ρ kept
  obtain ⟨ρ', rest, kept'⟩ := tail ρ₁ kept₁
  refine ⟨ρ', ?_, kept'⟩
  change EStateM.bind m f ρ = _
  simp only [EStateM.bind, ran, rest]

theorem get {f : Bindings N → Evaluation N α} {x : α}
    (tail : ∀ ρ, keeps ρ → Yields keeps (f ρ) x) : Yields keeps (MonadState.get >>= f) x :=
  fun ρ kept => tail ρ kept ρ kept

end Yields

def Operator.combine? [Arithmetic N] : Operator → Value N → Value N → Option (Value N)
  | .and, .boolean x, .boolean y => some (.boolean (x && y))
  | .or, .boolean x, .boolean y => some (.boolean (x || y))
  | .eq, x, y => some (.boolean (x.same y))
  | .ne, x, y => some (.boolean (!x.same y))
  | .lt, .number x, .number y => some (.boolean (Arithmetic.less x y))
  | .gt, .number x, .number y => some (.boolean (Arithmetic.less y x))
  | .add, .number x, .number y => some (.number (Arithmetic.add x y))
  | .sub, .number x, .number y => some (.number (Arithmetic.sub x y))
  | .mul, .number x, .number y => some (.number (Arithmetic.mul x y))
  | .div, .number x, .number y => some (.number (Arithmetic.div x y))
  | _, _, _ => none

theorem Operator.half_of_combine? [Arithmetic N] {op : Operator} {u w v : Value N} (combined : op.combine? u w = some v) :
    op.half u = .done v ∨ ∃ rest, op.half u = .needs rest ∧ rest w = .ok v := by
  cases op
  case eq | ne => exact .inr ⟨_, rfl, congrArg Except.ok (Option.some.inj combined)⟩
  case and | or =>
    cases u <;> cases w <;> cases combined
    rename_i x y
    cases x <;> first | exact .inl rfl | exact .inr ⟨_, rfl, rfl⟩
  all_goals
    cases u <;> cases w <;> cases combined
    exact .inr ⟨_, rfl, rfl⟩
namespace Setting

variable {keeps : Bindings N → Prop} {eval : NodeId → Evaluation N (Value N)} {l r : NodeId}

variable [Arithmetic N]

theorem binary_yields {op : Operator} {u w v : Value N} (lhs : Yields keeps (eval l) u)
    (rhs : Yields keeps (eval r) w) (combined : op.combine? u w = some v) : Yields keeps (binary op l r eval) v := by
  rw [binary_eq]
  apply lhs.bind
  obtain done | ⟨rest, needs, given⟩ := op.half_of_combine? combined
  · rw [done]
    exact .pure v
  · rw [needs]
    apply rhs.bind
    rw [given]
    exact .pure v

end Setting

namespace Setting

variable {args : List (Value N)} {params : List NodeId} {s : Setting N} {v : Value N}

structure Keeps (s : Setting N) (kept ρ : Bindings N) : Prop where
  held : ∀ (x : NodeId) v, kept[x]? = some v → ρ[x]? = some v
  items : ∀ (x : NodeId) k, s.arena.kind? x = some k → k.isItem → ρ[x]? = none

def bound : List NodeId → List (Value N) → Bindings N → Bindings N
  | param :: params, arg :: args, ρ => bound params args (ρ.insert param arg)
  | _, _, ρ => ρ

theorem bound_of_not_mem {ρ : Bindings N} {x : NodeId} (other : x ∉ params) : (bound params args ρ)[x]? = ρ[x]? := by
  induction params generalizing args ρ with
  | nil => rfl
  | cons param params ih =>
    simp only [List.mem_cons, not_or] at other
    cases args with
    | nil => rfl
    | cons arg args =>
      rw [bound, ih other.2, Std.TreeMap.getElem?_insert, if_neg]
      simpa using Ne.symm other.1

theorem getElem?_bound_two (p q x : NodeId) (u v : Value N) :
    (bound [p, q] [u, v] ∅)[x]? = if q = x then some v else if p = x then some u else none := by
  simp [bound, Std.TreeMap.getElem?_insert]

theorem bindAll (params : List NodeId) (args : List (Value N)) (ρ : Bindings N) :
    ((params.zip args).forM fun (param, arg) => bind param arg) ρ = .ok () (bound params args ρ) := by
  induction params generalizing args ρ with
  | nil => rfl
  | cons param params ih =>
    cases args with
    | nil => rfl
    | cons arg args => exact ih args (ρ.insert param arg)

variable [Arithmetic N]

def Settled (s : Setting N) (kept : Bindings N) (id : NodeId) (value : Value N) : Prop :=
  ∃ depth, Yields (s.Keeps kept) (s.evalWithin depth id) value

namespace Settled

variable {s : Setting N} {kept : Bindings N} {id : NodeId}

theorem deeper {depth depth' : Nat} (within : depth ≤ depth') {v : Value N}
    (yields : Yields (s.Keeps kept) (s.evalWithin depth id) v) : Yields (s.Keeps kept) (s.evalWithin depth' id) v := by
  intro ρ keeps
  obtain ⟨ρ', done, keeps'⟩ := yields ρ keeps
  exact ⟨ρ', evalWithin_mono within done, keeps'⟩

theorem number {x : Float} (held : s.arena.kind? id = some (.number x)) :
    s.Settled kept id (.number (Arithmetic.literal x)) := by
  refine ⟨1, ?_⟩
  simp only [evalWithin, kind_of_kind? held, pure_bind]
  exact .pure _

theorem boolean {b : Bool} (held : s.arena.kind? id = some (.boolean b)) : s.Settled kept id (.boolean b) := by
  refine ⟨1, ?_⟩
  simp only [evalWithin, kind_of_kind? held, pure_bind]
  exact .pure _

theorem reference {target : NodeId} {name : String} {v : Value N}
    (held : s.arena.kind? id = some (.reference target name)) (bound : kept[target]? = some v) :
    s.Settled kept id v := by
  refine ⟨1, ?_⟩
  simp only [evalWithin, kind_of_kind? held, pure_bind]
  apply Yields.get
  intro ρ keeps
  simpa only [keeps.held target v bound] using .pure v

theorem binary {op : Operator} {l r : NodeId} {u w v : Value N}
    (held : s.arena.kind? id = some (.binary op l r)) (lhs : s.Settled kept l u)
    (rhs : s.Settled kept r w) (combined : op.combine? u w = some v) : s.Settled kept id v := by
  obtain ⟨d, lhs⟩ := lhs
  obtain ⟨e, rhs⟩ := rhs
  refine ⟨max d e + 1, ?_⟩
  simp only [evalWithin, kind_of_kind? held, pure_bind]
  exact binary_yields (deeper (Nat.le_max_left d e) lhs) (deeper (Nat.le_max_right d e) rhs) combined

theorem conditional {c t e : NodeId} {b : Bool} {v : Value N}
    (held : s.arena.kind? id = some (.conditional c t e)) (condition : s.Settled kept c (.boolean b))
    (branch : s.Settled kept (if b then t else e) v) : s.Settled kept id v := by
  obtain ⟨d, condition⟩ := condition
  obtain ⟨f, branch⟩ := branch
  refine ⟨max d f + 1, ?_⟩
  simp only [evalWithin, kind_of_kind? held, pure_bind]
  apply (deeper (Nat.le_max_left d f) condition).bind
  apply (Yields.pure b).bind
  have branch := deeper (Nat.le_max_right d f) branch
  cases b <;> exact branch

end Settled

theorem Calls.of_settled {f body : NodeId} {name : Option String}

    (held : s.arena.kind? f = some (.function name params body))
    (count : params.length = args.length)
    (plain : ∀ p ∈ params, ∀ k, s.arena.kind? p = some k → k.isItem = false)
    (settled : s.Settled (bound params args ∅) body v) : s.Calls f args v := by
  obtain ⟨depth, settled⟩ := settled
  have keeps : s.Keeps (bound params args ∅) (bound params args ∅) := by
    refine ⟨fun _ _ => id, fun x k found item => ?_⟩
    rw [bound_of_not_mem fun param => ?_]
    · exact Std.TreeMap.getElem?_emptyc
    · simp [plain x param k found] at item
  obtain ⟨ρ', done, _⟩ := settled _ keeps
  refine ⟨depth + 2, ρ', ?_⟩
  have done := evalWithin_mono (Nat.le_succ depth) done
  simp only [callWithin, calleeWithin, kind_of_kind? held, pure_bind, count, ne_eq,
    not_true_eq_false, if_false]
  change EStateM.bind _ _ _ = _
  simp only [EStateM.bind, bindAll, done]

theorem Calls.evaluates {f body : NodeId} {name : Option String} (called : s.Calls f args v)
    (held : s.arena.kind? f = some (.function name params body)) : s.Evaluates (bound params args ∅) body v := by
  obtain ⟨depth, ρ', done⟩ := called
  cases depth with
  | zero =>
    rw [callWithin] at done
    cases done
  | succ depth =>
    cases depth with
    | zero =>
      rw [callWithin, calleeWithin] at done
      cases done
    | succ depth =>
      simp only [callWithin, calleeWithin, kind_of_kind? held, pure_bind] at done
      split at done
      · cases done
      · obtain ⟨_, ρ, ran, done⟩ := bind_eq_ok.1 done
        rw [bindAll] at ran
        cases ran
        exact ⟨depth + 1, ρ', done⟩

theorem Settled.evaluates {kept : Bindings N} {id : NodeId} (settled : s.Settled kept id v)
    (plain : ∀ (x : NodeId) k, s.arena.kind? x = some k → k.isItem → kept[x]? = none) : s.Evaluates kept id v := by
  obtain ⟨depth, yields⟩ := settled
  obtain ⟨ρ, done, _⟩ := yields kept ⟨fun _ _ held => held, plain⟩
  exact ⟨depth, ρ, done⟩

end Setting

end DerivedTables
