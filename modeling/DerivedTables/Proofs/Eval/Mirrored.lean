import DerivedTables.Proofs.Eval.Settled

/-!
Two evaluations that end alike in every case.
-/

namespace DerivedTables

variable {N : Type}

def Fault.unlocated : Fault → Fault
  | unbound _ name => unbound 0 name
  | mismatch _ expected found => mismatch 0 expected found
  | missingField _ field => missingField 0 field
  | arity _ expected found => arity 0 expected found
  | notEvaluable _ kind => notEvaluable 0 kind
  | dangling _ => dangling 0
  | tooDeep _ => tooDeep 0

/-- How evaluation comes upon a node: for its value, or for what it names, be it referred to, called or the
member that is asked for. -/
inductive Approach where
  | value
  | name
  deriving DecidableEq

namespace Kind

@[simp] def onward : Approach → Kind → List (Approach × NodeId)
  | .value, binary _ lhs rhs => [(.value, lhs), (.value, rhs)]
  | .value, conditional condition thenBranch elseBranch =>
    [(.value, condition), (.value, thenBranch), (.value, elseBranch)]
  | .value, binding _ value next => [(.value, value), (.value, next)]
  | .value, effect expr next => [(.value, expr), (.value, next)]
  | .value, access source property => [(.name, property), (.value, source)]
  | .value, invoke callee args => (.name, callee) :: args.map (.value, ·)
  | .value, assignment _ value | .value, derived _ value => [(.value, value)]
  | .value, split read writes => (.value, read) :: writes.map fun write => (.value, write.2)
  | .name, assignment _ value | .name, derived _ value => [(.value, value), (.name, value)]
  -- A let that is named has a value already, or is called.
  | .name, binding _ value _ => [(.name, value)]
  | .name, function _ params body => (.value, body) :: params.map (.name, ·)
  | .name, split read writes => (.name, read) :: writes.map fun write => (.value, write.2)
  | _, reference target _ => [(.name, target)]
  | _, _ => []

inductive Mirrored (alike : Approach → NodeId → NodeId → Prop) (bound : NodeId → Prop) :
    Approach → Kind → Kind → Prop
  | same {how : Approach} (k : Kind) (f : NodeId → NodeId) (parts : ∀ q ∈ k.onward how, alike q.1 q.2 (f q.2)) :
    Mirrored alike bound how k (k.rename f)
  | read {how : Approach} {target target' : NodeId} (n m : String) (named : alike .name target target')
    (held : bound target) : Mirrored alike bound how (reference target n) (reference target' m)
  | param (n m : String) (s t : Option Ty) : Mirrored alike bound .name (param n s) (param m t)

theorem Mirrored.self {alike : Approach → NodeId → NodeId → Prop} {bound : NodeId → Prop} {how : Approach} {k : Kind}
    (parts : ∀ q ∈ k.onward how, alike q.1 q.2 q.2) : Mirrored alike bound how k k := by
  have same : Mirrored alike bound how k (k.rename id) := .same k id parts
  rwa [rename_id] at same

theorem mem_onward_of_entered {k : Kind} {c : NodeId} (flat : k.isFlat = true) (part : c ∈ k.entered) :
    (.value, c) ∈ k.onward .value := by
  cases k <;> simp_all [isFlat, entered, isInert, children]

theorem mem_children_of_mem_onward {how : Approach} {k : Kind} {q : Approach × NodeId} (onward : q ∈ k.onward how) :
    q.2 ∈ k.children ∨ ∃ target name, k = reference target name ∧ q = (.name, target) := by
  cases how <;> cases k <;> simp_all [children] <;> grind

end Kind

theorem Faults.unlocated_near (x y : NodeId) : (Faults.like fun e e' => e.unlocated = e'.unlocated).Near x y :=
  fun e => ⟨_, rfl, by cases e <;> rfl⟩

abbrev Mirrors {α β : Type} (env : Bindings N → Bindings N → Prop) (result : α → β → Prop)
    (first : Evaluation N α) (second : Evaluation N β) : Prop :=
  Couples (.like fun e e' => e.unlocated = e'.unlocated) env (fun x y ρ σ => result x y ∧ env ρ σ) first second

theorem Mirrors.throw {α β : Type} {env : Bindings N → Bindings N → Prop} {result : α → β → Prop} {e e' : Fault}
    (same : e.unlocated = e'.unlocated) : Mirrors env result (throw e) (throw e') :=
  Couples.throw ⟨e', rfl, same⟩

namespace Setting

theorem callWithin_function [Arithmetic N] {s : Setting N} {x body : NodeId} {name : Option String}
    {params : List NodeId} (held : s.arena.kind? x = some (.function name params body)) {args : List (Value N)}
    (count : params.length = args.length) (depth : Nat) (ρ : Bindings N) :
    s.callWithin (depth + 2) x args ρ = s.evalWithin (depth + 1) body (bound params args ρ) := by
  simp only [callWithin, calleeWithin, kind_of_kind? held, pure_bind, count, ne_eq, not_true, if_false]
  exact bind_of_ok (bindAll params args ρ)

end Setting

structure Agree (alike : Approach → NodeId → NodeId → Prop) (bound : NodeId → Prop) (ρ σ : Bindings N) : Prop where
  same : ∀ {how x y}, alike how x y → ρ[x]? = σ[y]?
  held : ∀ {x}, bound x → ∃ v, ρ[x]? = some v

structure Arena.Mirror (a b : Arena) (alike : Approach → NodeId → NodeId → Prop) (bound : NodeId → Prop) : Prop where
  unique : ∀ {how how' x x' y y'}, alike how x y → alike how' x' y' → (x = x' ↔ y = y')
  kinds : ∀ {how x y}, alike how x y →
    ∃ k l, a.kind? x = some k ∧ b.kind? y = some l ∧ k.Mirrored alike bound how l

namespace Arena.Mirror

variable {s t : Setting N} {alike : Approach → NodeId → NodeId → Prop} {bound : NodeId → Prop}
  {how : Approach} {x y : NodeId} {depth : Nat} (mirror : s.arena.Mirror t.arena alike bound)
include mirror

theorem bind_mirrors (related : alike how x y) (v : Value N) :
    Mirrors (Agree alike bound) Eq (Setting.bind x v) (Setting.bind y v) := by
  intro ρ σ agree
  refine .inl ⟨(), (), _, _, rfl, rfl, rfl, fun {how' x' y'} other => ?_, fun {x'} isBound => ?_⟩
  · have unique := mirror.unique related other
    simp only [Std.TreeMap.getElem?_insert, Std.compare_eq_iff_eq, unique, agree.same other]
  · obtain ⟨u, found⟩ := agree.held isBound
    simp only [Std.TreeMap.getElem?_insert, found]
    split <;> exact ⟨_, rfl⟩

theorem params_mirror (f : NodeId → NodeId) {params : List NodeId} (each : ∀ p ∈ params, alike .name p (f p))
    (args : List (Value N)) : Mirrors (Agree alike bound) Eq
    ((params.zip args).forM fun (param, arg) => Setting.bind param arg)
    (((params.map f).zip args).forM fun (param, arg) => Setting.bind param arg) := by
  rw [List.zip_map_left]
  refine .forM (List.forall₂_map_right_iff.2 (List.forall₂_same.2 ?_))
  rintro ⟨p, v⟩ listed
  exact mirror.bind_mirrors (each p (List.of_mem_zip listed).1) v

variable [Arithmetic N]

omit mirror in
variable (s t alike bound) in
structure Carries (depth : Nat) : Prop where
  eval : ∀ {x y}, alike .value x y → Mirrors (Agree alike bound) Eq (s.evalWithin depth x) (t.evalWithin depth y)
  call : ∀ {x y} (args : List (Value N)), alike .name x y →
    Mirrors (Agree alike bound) Eq (s.callWithin depth x args) (t.callWithin depth y args)
  callee : ∀ {x y} (i j : NodeId), alike .name x y →
    Mirrors (Agree alike bound) (alike .name) (s.calleeWithin depth i x) (t.calleeWithin depth j y)

section

variable (carries : Carries s t alike bound depth)
include carries

theorem writes_mirror (f : NodeId → NodeId) {writes : List (String × NodeId)}
    (each : ∀ w ∈ writes, alike .value w.2 (f w.2)) : Mirrors (Agree alike bound) Eq
      (writes.forM fun (_, write) => do Setting.bind write (← s.evalWithin depth write))
      ((writes.map fun (name, write) => (name, f write)).forM fun (_, write) => do
        Setting.bind write (← t.evalWithin depth write)) := by
  refine .forM (List.forall₂_map_right_iff.2 (List.forall₂_same.2 fun w listed => ?_))
  apply (carries.eval (each w listed)).bind
  rintro v _ rfl
  exact mirror.bind_mirrors (each w listed) v

theorem reference_mirrors (context : s.context = t.context) {target target' : NodeId} {n m : String}
    (held : s.arena.kind? x = some (.reference target n)) (held' : t.arena.kind? y = some (.reference target' m))
    (named : alike .name target target') (same : n = m ∨ bound target) :
    Mirrors (Agree alike bound) Eq (s.evalWithin (depth + 1) x) (t.evalWithin (depth + 1) y) := by
  simp only [Setting.evalWithin, Setting.kind_of_kind? held, Setting.kind_of_kind? held', pure_bind]
  apply Couples.get
  intro ρ σ agree
  rw [← agree.same named]
  cases found : ρ[target]? with
  | some value => exact .pure rfl
  | none =>
    obtain rfl | isBound := same
    · obtain ⟨k, l, there, there', kinds⟩ := mirror.kinds named
      simp only [Setting.kind_of_kind? there, Setting.kind_of_kind? there', pure_bind]
      cases kinds with
      | read => exact Mirrors.throw rfl
      | param => exact Mirrors.throw rfl
      | same k f parts =>
        cases k with
        | column column ty => exact .columnValue context (Faults.unlocated_near x y) ⟨_, rfl, rfl⟩ column
        | derived name value => exact carries.eval (parts (.value, value) (by simp))
        | assignment name value => exact carries.eval (parts (.value, value) (by simp))
        | _ => exact Mirrors.throw rfl
    · obtain ⟨v, isHeld⟩ := agree.held isBound
      cases found.symm.trans isHeld

omit [Arithmetic N] carries in
theorem member_mirrors {p q : NodeId} (named : alike .name p q) :
    Mirrors (Agree alike bound) Eq (s.member p) (t.member q) := by
  obtain ⟨k, l, there, there', kinds⟩ := mirror.kinds named
  simp only [Setting.member, Setting.kind_of_kind? there, Setting.kind_of_kind? there', pure_bind]
  cases kinds with
  | read => exact Mirrors.throw rfl
  | param => exact Mirrors.throw rfl
  | same k f parts =>
    cases k with
    | identifier field => exact .pure rfl
    | _ => exact Mirrors.throw rfl

theorem eval_mirrors (context : s.context = t.context) (related : alike .value x y) :
    Mirrors (Agree alike bound) Eq (s.evalWithin (depth + 1) x) (t.evalWithin (depth + 1) y) := by
  obtain ⟨k, l, held, held', kinds⟩ := mirror.kinds related
  cases kinds with
  | read n m named isBound => exact mirror.reference_mirrors carries context held held' named (.inr isBound)
  | same k f parts =>
    have part (z : NodeId) (listed : (.value, z) ∈ k.onward .value) := carries.eval (parts (.value, z) listed)
    by_cases flat : k.isFlat = true
    · have likewise : k.isFlat = (k.rename f).isFlat ∧ k.isInert = (k.rename f).isInert ∧ (k.rename f).name = k.name := by
        cases k <;> exact ⟨rfl, rfl, rfl⟩
      have same : (k.rename id).Alike (fun z w => w = f z) (fun _ _ => True) (fun _ => False) (id x) (f x) (k.rename f) :=
        Kind.alike_rename (fun _ _ => rfl) fun _ _ => trivial
      rw [Kind.rename_id] at same
      rw [Setting.evalWithin_flat held flat, Setting.evalWithin_flat held' (likewise.1 ▸ flat)]
      refine .flatly same flat context (Faults.unlocated_near x y) (fun _ => Faults.unlocated_near _ _) ?_ ?_
        fun inert => .inr ⟨likewise.2.1 ▸ inert, likewise.2.2⟩
      · rintro c _ entered - rfl
        exact part c (Kind.mem_onward_of_entered flat entered)
      · rintro v p v' _ rfl - rfl
        exact mirror.member_mirrors (parts (.name, p) (by simp))
    simp only [Setting.evalWithin, Setting.kind_of_kind? held, Setting.kind_of_kind? held', pure_bind]
    cases k with
    | reference target name =>
      have mirrors := mirror.reference_mirrors carries context held held' (parts (.name, target) (by simp)) (.inl rfl)
      simpa only [Setting.evalWithin, Setting.kind_of_kind? held, Setting.kind_of_kind? held', pure_bind] using mirrors
    | param name declared =>
      apply Couples.get
      intro ρ σ agree
      rw [← agree.same related]
      cases ρ[x]? with
      | some value => exact .pure rfl
      | none => exact Mirrors.throw rfl
    | binding name value next =>
      apply (part value (by simp)).bind
      rintro v _ rfl
      apply (mirror.bind_mirrors related v).bind
      exact fun _ _ _ => part next (by simp)
    | invoke callee args =>
      apply (Couples.mapM (List.forall₂_map_right_iff.2 (List.forall₂_same.2 fun arg listed =>
        part arg (by simp [listed])))).bind
      rintro values _ rfl
      exact carries.call values (parts (.name, callee) (by simp))
    | split read writes =>
      rw [Kind.rename_split]
      have each (write : String × NodeId) (listed : write ∈ writes) : alike .value write.2 (f write.2) :=
        parts (.value, write.2) (List.mem_cons_of_mem _ (List.mem_map_of_mem listed))
      exact (mirror.writes_mirror carries f each).bind fun _ _ _ => part read (by simp)
    | function => exact Mirrors.throw rfl
    | _ => exact absurd rfl flat

theorem call_mirrors (related : alike .name x y) (args : List (Value N)) :
    Mirrors (Agree alike bound) Eq (s.callWithin (depth + 1) x args) (t.callWithin (depth + 1) y args) := by
  simp only [Setting.callWithin]
  apply (carries.callee x y related).bind
  intro function function' named
  obtain ⟨k, l, held, held', kinds⟩ := mirror.kinds named
  simp only [Setting.kind_of_kind? held, Setting.kind_of_kind? held', pure_bind]
  cases kinds with
  | read => exact Mirrors.throw rfl
  | param => exact Mirrors.throw rfl
  | same k f parts =>
    cases k with
    | function name params body =>
      rw [Kind.rename_function]
      simp only [List.length_map]
      split
      · exact Mirrors.throw rfl
      · have each (p : NodeId) (listed : p ∈ params) : alike .name p (f p) :=
          parts (.name, p) (List.mem_cons_of_mem _ (List.mem_map_of_mem listed))
        apply (mirror.params_mirror f each args).bind
        exact fun _ _ _ => carries.eval (parts (.value, body) (by simp))
    | _ => exact Mirrors.throw rfl

theorem callee_mirrors (related : alike .name x y) (i j : NodeId) :
    Mirrors (Agree alike bound) (alike .name) (s.calleeWithin (depth + 1) i x) (t.calleeWithin (depth + 1) j y) := by
  obtain ⟨k, l, held, held', kinds⟩ := mirror.kinds related
  simp only [Setting.calleeWithin, Setting.kind_of_kind? held, Setting.kind_of_kind? held', pure_bind]
  cases kinds with
  | read n m named isBound => exact carries.callee i j named
  | param => exact Mirrors.throw rfl
  | same k f parts =>
    cases k with
    | function => exact .pure related
    | reference target name => exact carries.callee i j (parts (.name, target) (by simp))
    | derived name value => exact carries.callee i j (parts (.name, value) (by simp))
    | assignment name value => exact carries.callee i j (parts (.name, value) (by simp))
    | binding name value next => exact carries.callee i j (parts (.name, value) (by simp))
    | split read writes =>
      rw [Kind.rename_split]
      have each (write : String × NodeId) (listed : write ∈ writes) : alike .value write.2 (f write.2) :=
        parts (.value, write.2) (List.mem_cons_of_mem _ (List.mem_map_of_mem listed))
      apply (mirror.writes_mirror carries f each).bind
      exact fun _ _ _ => carries.callee i j (parts (.name, read) (by simp))
    | _ => exact Mirrors.throw rfl

end

theorem carries (context : s.context = t.context) (depth : Nat) : Carries s t alike bound depth := by
  induction depth with
  | zero =>
    constructor <;> intros <;>
      simp only [Setting.evalWithin, Setting.callWithin, Setting.calleeWithin] <;> exact Mirrors.throw rfl
  | succ depth below =>
    exact ⟨mirror.eval_mirrors below context, fun args related => mirror.call_mirrors below related args,
      fun i j related => mirror.callee_mirrors below related i j⟩

theorem call_eq (context : s.context = t.context) {name name' : Option String} {params params' : List NodeId}
    {body body' : NodeId} (held : s.arena.kind? x = some (.function name params body))
    (held' : t.arena.kind? y = some (.function name' params' body')) (bodies : alike .value body body')
    {args : List (Value N)} (count : params.length = args.length) (count' : params'.length = args.length)
    (agree : Agree alike bound (Setting.bound params args ∅) (Setting.bound params' args ∅)) (depth : Nat) :
    (Setting.fresh (s.callWithin depth x args)).mapError Fault.unlocated =
    (Setting.fresh (t.callWithin depth y args)).mapError Fault.unlocated := by
  match depth with
  | 0 | 1 =>
    simp only [Setting.callWithin, Setting.calleeWithin]
    rfl
  | depth + 2 =>
    have ran := Setting.callWithin_function held count depth
    have ran' := Setting.callWithin_function held' count' depth
    obtain ⟨v, _, ρ, σ, first, second, rfl, -⟩ | ⟨e, e', ρ, σ, first, second, same⟩ :=
      ((mirror.carries context (depth + 1)).eval bodies).ends agree
    · simp only [Setting.fresh, EStateM.run, ran, ran', first, second]
    · simp only [Setting.fresh, EStateM.run, ran, ran', first, second, Except.mapError, same]

end Arena.Mirror

end DerivedTables
