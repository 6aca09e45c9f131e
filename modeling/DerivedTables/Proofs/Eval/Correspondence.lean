import DerivedTables.Proofs.Eval.Coupled

/-!
Two evaluations side by side. A correspondence relates nodes of one tree to nodes that do the same
in another (or in the same one), and the bindings on both sides; then whatever has a value on the
first side has that value on the second.
-/

namespace DerivedTables

variable {N : Type}

abbrev Follows {α β : Type} (env : Bindings N → Bindings N → Prop) (result : α → β → Prop)
    (first : Evaluation N α) (second : Evaluation N β) : Prop :=
  Couples .any env (fun x y ρ σ => result x y ∧ env ρ σ) first second

namespace Follows

variable {env : Bindings N → Bindings N → Prop} {α β : Type} {result : α → β → Prop}

theorem of_run {first : Evaluation N α} {second : Evaluation N β}
    (given : ∀ ρ σ, env ρ σ → ∀ x ρ', first ρ = .ok x ρ' → ∃ y σ', second σ = .ok y σ' ∧ result x y ∧ env ρ' σ') :
    Follows env result first second := by
  intro ρ σ agree
  cases ran : first ρ with
  | error e ρ' => exact .inr ⟨e, ρ', rfl, trivial⟩
  | ok x ρ' =>
    obtain ⟨y, σ', ran', held⟩ := given ρ σ agree x ρ' ran
    exact .inl ⟨x, y, ρ', σ', rfl, ran', held⟩

theorem throw {fault : Fault} {second : Evaluation N β} : Follows env result (throw fault) second :=
  of_run fun ρ σ _ x ρ' done => by cases done

theorem member {s t : Setting N} {p q : NodeId}
    (same : ∀ field, s.arena.kind? p = some (.identifier field) → t.arena.kind? q = some (.identifier field)) :
    Follows env Eq (s.member p) (t.member q) := by
  unfold Setting.member
  cases held : s.arena.kind? p with
  | none =>
    rw [Setting.kind_of_none held]
    exact throw
  | some k =>
    rw [Setting.kind_of_kind? held]
    cases k with
    | identifier field =>
      rw [Setting.kind_of_kind? (same field held)]
      exact .pure rfl
    | _ => exact throw

end Follows

theorem Faults.any_near (x y : NodeId) : Faults.any.Near x y := fun _ => trivial

structure Correspondence (s t : Setting N) where
  node : NodeId → NodeId → Prop
  binder : NodeId → NodeId → Prop
  idle : NodeId → Prop
  env : Bindings N → Bindings N → Prop
  context : s.context = t.context
  alike : ∀ {x y k}, node x y → s.arena.kind? x = some k →
    ∃ l, t.arena.kind? y = some l ∧ k.Alike node binder idle x y l
  isFunction : ∀ {x}, idle x → s.arena.isFunction x
  insert : ∀ {x y v ρ σ}, binder x y → env ρ σ → env (ρ.insert x v) (σ.insert y v)
  found : ∀ {x y v} {ρ σ : Bindings N}, node x y → env ρ σ → ρ[x]? = some v → σ[y]? = some v
  missing : ∀ {x y k} {ρ σ : Bindings N}, node x y → env ρ σ → s.arena.kind? x = some k →
    k.isItem → ρ[x]? = none → σ[y]? = none

namespace Setting

variable [Arithmetic N]

theorem evalWithin_function (s : Setting N) {id : NodeId} (function : s.arena.isFunction id)
    {depth : Nat} {ρ ρ' : Bindings N} {v : Value N} : s.evalWithin depth id ρ ≠ .ok v ρ' := by
  cases depth with
  | zero =>
    intro done
    rw [evalWithin] at done
    cases done
  | succ depth =>
    obtain ⟨name, params, body, held⟩ := Arena.isFunction_iff.1 function
    intro done
    simp only [evalWithin, kind_of_kind? held, pure_bind] at done
    cases done

theorem mapM_function (s : Setting N) {args : List NodeId} {arg : NodeId} (given : arg ∈ args)
    (function : s.arena.isFunction arg) {depth : Nat} (ρ : Bindings N) (vs : List (Value N))
    (ρ' : Bindings N) : args.mapM (s.evalWithin depth) ρ ≠ .ok vs ρ' := by
  induction args generalizing ρ vs ρ' with
  | nil => cases given
  | cons head rest ih =>
    rw [List.mapM_cons]
    intro done
    obtain ⟨v, ρ₁, first, done⟩ := bind_eq_ok.1 done
    obtain ⟨_, _, others, _⟩ := bind_eq_ok.1 done
    obtain rfl | given := List.mem_cons.1 given
    · exact s.evalWithin_function function first
    · exact ih given _ _ _ others

end Setting

namespace Correspondence

variable {s t : Setting N} (c : Correspondence s t) {depth depth' : Nat}

variable {x y : NodeId}

theorem kind_follows (related : c.node x y) : Follows c.env
    (fun k l => s.arena.kind? x = some k ∧ k.Alike c.node c.binder c.idle x y l) (s.kind x) (t.kind y) := by
  cases held : s.arena.kind? x with
  | none =>
    rw [Setting.kind_of_none held]
    exact Follows.throw
  | some k =>
    obtain ⟨l, held', alike⟩ := c.alike related held
    rw [Setting.kind_of_kind? held, Setting.kind_of_kind? held']
    exact .pure ⟨rfl, alike⟩

theorem bind_follows (related : c.binder x y) (v : Value N) : Follows c.env Eq (Setting.bind x v) (Setting.bind y v) :=
  fun _ _ agree => .inl ⟨(), (), _, _, rfl, rfl, rfl, c.insert related agree⟩

theorem params_follow {ps qs : List NodeId} (params : List.Forall₂ c.binder ps qs) (args : List (Value N)) : Follows
    c.env Eq ((ps.zip args).forM fun (param, arg) => Setting.bind param arg)
    ((qs.zip args).forM fun (param, arg) => Setting.bind param arg) := by
  induction params generalizing args with
  | nil => exact .pure rfl
  | cons head _ ih =>
    cases args with
    | nil => exact .pure rfl
    | cons arg rest => exact (c.bind_follows head arg).bind fun _ _ _ => ih rest

variable [Arithmetic N]

structure Carries (depth depth' : Nat) : Prop where
  eval : ∀ {x y}, c.node x y → Follows c.env Eq (s.evalWithin depth x) (t.evalWithin depth' y)
  call : ∀ {x y} (args : List (Value N)), c.node x y →
    Follows c.env Eq (s.callWithin depth x args) (t.callWithin depth' y args)
  callee : ∀ {x y} (i j : NodeId), c.node x y →
    Follows c.env c.node (s.calleeWithin depth i x) (t.calleeWithin depth' j y)

theorem writes_follow (carries : c.Carries depth depth') {ws vs : List (String × NodeId)}
    (writes : List.Forall₂ (fun w v => c.node w.2 v.2 ∧ c.binder w.2 v.2) ws vs) : Follows c.env Eq
    (ws.forM fun (_, write) => do Setting.bind write (← s.evalWithin depth write))
    (vs.forM fun (_, write) => do Setting.bind write (← t.evalWithin depth' write)) := by
  refine .forM (writes.imp ?_)
  rintro ⟨_, x⟩ ⟨_, y⟩ ⟨related, bound⟩
  apply (carries.eval related).bind
  rintro v _ rfl
  exact c.bind_follows bound v

theorem reference_follows (carries : c.Carries depth depth') {target target' : NodeId}
    (related : c.node target target') (n m : String) :
    Follows c.env Eq
      (do
        match (← get)[target]? with
        | some value => return value
        | none =>
          match ← s.kind target with
          | .column column _ => s.columnValue x n column
          | .derived _ value | .assignment _ value => s.evalWithin depth value
          | _ => throw (.unbound x n))
      (do
        match (← get)[target']? with
        | some value => return value
        | none =>
          match ← t.kind target' with
          | .column column _ => t.columnValue y m column
          | .derived _ value | .assignment _ value => t.evalWithin depth' value
          | _ => throw (.unbound y m)) := by
  apply Couples.get
  intro ρ σ agree
  cases found : ρ[target]? with
  | some value => simpa only [c.found related agree found] using .pure rfl
  | none =>
    -- The second side may have a binding that the first lacks, but not of an item.
    cases held : s.arena.kind? target with
    | none =>
      rw [Setting.kind_of_none held]
      exact Follows.throw
    | some k =>
      obtain ⟨l, held', alike⟩ := c.alike related held
      simp only [Setting.kind_of_kind? held, pure_bind]
      cases alike with
      | column name =>
        simp only [c.missing related agree held rfl found, Setting.kind_of_kind? held', pure_bind]
        exact .columnValue c.context (Faults.any_near x y) trivial name
      | derived _ _ value =>
        simp only [c.missing related agree held rfl found, Setting.kind_of_kind? held', pure_bind]
        exact carries.eval value
      | assignment _ _ value =>
        simp only [c.missing related agree held rfl found, Setting.kind_of_kind? held', pure_bind]
        exact carries.eval value
      | inert l inert => cases k <;> first | exact Follows.throw | cases inert
      | _ => exact Follows.throw

theorem eval_follows (carries : c.Carries depth depth') (related : c.node x y) :
    Follows c.env Eq (s.evalWithin (depth + 1) x) (t.evalWithin (depth' + 1) y) := by
  cases held : s.arena.kind? x with
  | none =>
    rw [Setting.evalWithin, Setting.kind_of_none held]
    exact Follows.throw
  | some k =>
    obtain ⟨l, held', alike⟩ := c.alike related held
    by_cases flat : k.isFlat = true ∧ l.isFlat = true
    · rw [Setting.evalWithin_flat held flat.1, Setting.evalWithin_flat held' flat.2]
      refine .flatly alike flat.1 c.context (Faults.any_near x y) (fun _ => Faults.any_near _ _)
        (fun _ _ part => carries.eval part) (fun _ _ named => Follows.member fun field there => ?_) fun _ => .inl fun _ _ => trivial
      obtain ⟨_, there', alike⟩ := c.alike named there
      cases alike with
      | identifier => exact there'
      | inert _ inert => cases inert
    simp only [Setting.evalWithin, Setting.kind_of_kind? held, Setting.kind_of_kind? held', pure_bind]
    cases alike with
    | param =>
      apply Couples.get
      intro ρ σ agree
      cases found : ρ[x]? with
      | some value => simpa only [c.found related agree found] using .pure rfl
      | none => exact Follows.throw
    | binding n m self value next =>
      apply (carries.eval value).bind
      rintro v _ rfl
      exact (c.bind_follows self v).bind fun _ _ _ => carries.eval next
    | reference n m target => exact c.reference_follows carries target n m
    | invoke callee args =>
      apply (Couples.mapM (args.imp fun _ _ arg => carries.eval arg)).bind
      rintro vs _ rfl
      exact carries.call vs callee
    | handed l given isIdle =>
      refine Follows.of_run fun ρ σ _ v ρ' done => ?_
      obtain ⟨values, ρ₁, first, _⟩ := bind_eq_ok.1 done
      exact (s.mapM_function given (c.isFunction isIdle) _ _ _ first).elim
    | split read writes =>
      exact (c.writes_follow carries writes).bind fun _ _ _ => carries.eval read
    | inert l inert => cases k <;> first | exact Follows.throw | cases inert
    | function => exact Follows.throw
    | _ => exact absurd ⟨rfl, rfl⟩ flat

theorem call_follows (carries : c.Carries depth depth') (related : c.node x y) (args : List (Value N)) :
    Follows c.env Eq (s.callWithin (depth + 1) x args) (t.callWithin (depth' + 1) y args) := by
  simp only [Setting.callWithin]
  apply (carries.callee x y related).bind
  intro f g named
  apply (c.kind_follows named).bind
  rintro k l ⟨_, alike⟩
  cases alike with
  | function n m params body =>
    simp only [params.length_eq]
    split
    · exact Follows.throw
    · exact (c.params_follow params args).bind fun _ _ _ => carries.eval body
  | inert l inert => cases k <;> first | exact Follows.throw | cases inert
  | _ => exact Follows.throw

theorem callee_follows (carries : c.Carries depth depth') (related : c.node x y) (i j : NodeId) :
    Follows c.env c.node (s.calleeWithin (depth + 1) i x) (t.calleeWithin (depth' + 1) j y) := by
  simp only [Setting.calleeWithin]
  apply (c.kind_follows related).bind
  rintro k l ⟨_, alike⟩
  cases alike with
  | function => exact .pure related
  | reference n m target => exact carries.callee i j target
  | derived n m derivation => exact carries.callee i j derivation
  | assignment n m value => exact carries.callee i j value
  | binding n m _ value => exact carries.callee i j value
  | split read writes =>
    exact (c.writes_follow carries writes).bind fun _ _ _ => carries.callee i j read
  | inert l inert => cases k <;> first | exact Follows.throw | cases inert
  | _ => exact Follows.throw

theorem carries (within : depth ≤ depth') : c.Carries depth depth' := by
  induction depth generalizing depth' with
  | zero =>
    constructor <;> intros <;>
      simp only [Setting.evalWithin, Setting.callWithin, Setting.calleeWithin] <;> exact Follows.throw
  | succ depth ih =>
    cases depth' with
    | zero => omega
    | succ depth' =>
      have below := ih (Nat.le_of_succ_le_succ within)
      exact ⟨c.eval_follows below, fun args related => c.call_follows below related args,
        fun i j related => c.callee_follows below related i j⟩

end Correspondence

end DerivedTables
