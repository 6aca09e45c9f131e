import DerivedTables.Proofs.Compilation.Staging

/-!
What was evaluated before makes no difference to a call.
-/

namespace DerivedTables

attribute [local simp] Kind.entered Kind.isInert Kind.children

variable {N : Type} {α β : Type}

def Tree.binders (a : Arena) (t : Tree) : Set NodeId :=
  {y | ∃ x ∈ t.ids, ∃ k, a.kind? x = some k ∧ y ∈ k.binds x}

structure Shares (binders reads : Set NodeId) (ρ σ : Bindings N) : Prop where
  agree : ∀ y ∈ reads, ρ[y]? = σ[y]?
  unbound : ∀ y ∉ binders, ρ[y]? = none ∧ σ[y]? = none

namespace Shares

variable {binders reads fewer : Set NodeId} {ρ σ : Bindings N}

theorem mono (shares : Shares binders reads ρ σ) (subset : fewer ⊆ reads) : Shares binders fewer ρ σ :=
  ⟨fun y read => shares.agree y (subset read), shares.unbound⟩

theorem same (shares : Shares binders reads ρ σ) {y : NodeId} (known : y ∉ binders ∨ y ∈ reads) : ρ[y]? = σ[y]? := by
  obtain free | read := known
  · rw [(shares.unbound y free).1, (shares.unbound y free).2]
  · exact shares.agree y read

theorem bound (shares : Shares binders reads ρ σ) {params : List NodeId} {args : List (Value N)}
    (count : params.length = args.length) (binds : ∀ p ∈ params, p ∈ binders) :
    Shares binders (reads ∪ {y | y ∈ params}) (Setting.bound params args ρ) (Setting.bound params args σ) := by
  refine ⟨fun y read => bound_agree count fun other => shares.agree y (read.resolve_right other), fun y free => ?_⟩
  have other : y ∉ params := fun listed => free (binds y listed)
  rw [Setting.bound_of_not_mem other, Setting.bound_of_not_mem other]
  exact shares.unbound y free

end Shares

namespace Setting

def outcome : EStateM.Result Fault (Bindings N) α → Except Fault α
  | .ok x _ => .ok x
  | .error e _ => .error e

def left : EStateM.Result Fault (Bindings N) α → Bindings N
  | .ok _ ρ | .error _ ρ => ρ

structure Repeats (binders reads : Set NodeId) (m : Evaluation N α) (post : α → Prop) : Prop where
  run : ∀ {ρ σ}, Shares binders reads ρ σ → outcome (m ρ) = outcome (m σ) ∧
    Shares binders reads (left (m ρ)) (left (m σ)) ∧ ∀ x, outcome (m ρ) = .ok x → post x

namespace Repeats

variable {binders reads : Set NodeId} {m : Evaluation N α} {f : α → Evaluation N β} {mid : α → Prop} {post : β → Prop}

theorem pure {x : β} (here : post x) : Repeats binders reads (pure x : Evaluation N β) post :=
  ⟨fun shares => ⟨rfl, shares, fun _ same => by cases same; exact here⟩⟩

theorem throw (fault : Fault) : Repeats binders reads (throw fault : Evaluation N β) post :=
  ⟨fun shares => ⟨rfl, shares, nofun⟩⟩

theorem bind (first : Repeats binders reads m mid) (second : ∀ x, mid x → Repeats binders reads (f x) post) :
    Repeats binders reads (m >>= f) post := by
  refine ⟨fun {ρ σ} shares => ?_⟩
  obtain ⟨same, after, here⟩ := first.run shares
  cases ran : m ρ with
  | ok x ρ' =>
    cases ran' : m σ with
    | ok y σ' =>
      rw [ran, ran'] at same after
      cases same
      rw [bind_of_ok ran, bind_of_ok ran']
      exact (second x (here x (by rw [ran]; rfl))).run after
    | error =>
      rw [ran, ran'] at same
      cases same
  | error e ρ' =>
    cases ran' : m σ with
    | ok =>
      rw [ran, ran'] at same
      cases same
    | error e' σ' =>
      rw [ran, ran'] at same after
      cases same
      rw [bind_of_error ran, bind_of_error ran']
      exact ⟨rfl, after, nofun⟩

theorem kind {s : Setting N} {x : NodeId} {f : Kind → Evaluation N β} (second : ∀ k, s.arena.kind? x = some k → Repeats
    binders reads (f k) post) : Repeats binders reads (s.kind x >>= f) post := by
  cases held : s.arena.kind? x with
  | none =>
    rw [kind_of_none held]
    exact .throw _
  | some k =>
    rw [kind_of_kind? held]
    exact second k held

theorem get {f : Bindings N → Evaluation N β} (same : ∀ ρ σ, Shares binders reads ρ σ → f ρ = f σ)
    (second : ∀ ρ, Repeats binders reads (f ρ) post) : Repeats binders reads (MonadState.get >>= f) post := by
  refine ⟨fun {ρ σ} shares => ?_⟩
  have run := (second ρ).run shares
  have here : f ρ σ = f σ σ := by rw [same ρ σ shares]
  rw [here] at run
  exact run

theorem mapM {xs : List α} (each : ∀ x ∈ xs, Repeats binders reads (f x) fun _ => True) :
    Repeats binders reads (xs.mapM f) fun _ => True := by
  induction xs with
  | nil => exact .pure trivial
  | cons x xs ih =>
    rw [List.forall_mem_cons] at each
    rw [List.mapM_cons]
    exact each.1.bind fun _ _ => (ih each.2).bind fun _ _ => .pure trivial

/-- What has been bound on both sides may be read in what follows. -/
theorem bound {params : List NodeId} {args : List (Value N)} (count : params.length = args.length)
    (binds : ∀ p ∈ params, p ∈ binders) {enter : Evaluation N PUnit}
    (entered : ∀ ρ, enter ρ = .ok () (Setting.bound params args ρ)) {m : Evaluation N β}
    (later : Repeats binders (reads ∪ {y | y ∈ params}) m post) : Repeats binders reads (enter >>= fun _ => m) post := by
  refine ⟨fun {ρ σ} shares => ?_⟩
  rw [bind_of_ok (entered ρ), bind_of_ok (entered σ)]
  obtain ⟨same, after, here⟩ := later.run (shares.bound count binds)
  exact ⟨same, after.mono Set.subset_union_left, here⟩

theorem found (fault : Fault) (value : Option (Value N)) : Repeats binders reads (found fault value) fun _ => True := by
  cases value with
  | some => exact .pure trivial
  | none => exact .throw _

variable [Arithmetic N] {s : Setting N} {x : NodeId} {k : Kind} {eval : NodeId → Evaluation N (Value N)}

theorem flatly (parts : ∀ c ∈ k.entered, Repeats binders reads (eval c) fun _ => True) :
    Repeats binders reads (s.flatly eval x k) fun _ => True := by
  cases k with
  | string | number | boolean | null => exact .pure trivial
  | binary op l r =>
    rw [Setting.flatly, binary_eq]
    refine (parts l (by simp)).bind fun u _ => ?_
    cases op.half u with
    | stuck => exact .throw _
    | done => exact .pure trivial
    | needs rest =>
      refine (parts r (by simp)).bind fun w _ => ?_
      cases rest w with
      | ok => exact .pure trivial
      | error => exact .throw _
  | conditional c yes no =>
    refine (parts c (by simp)).bind fun u _ => ?_
    cases u with
    | boolean b => cases b <;> exact parts _ (by simp)
    | _ => exact .throw _
  | effect expr next =>
    have first : Repeats binders reads (discard (eval expr)) fun _ => True :=
      (parts expr (by simp)).bind fun _ _ => .pure trivial
    exact first.bind fun _ _ => parts next (by simp)
  | access source property =>
    have named : Repeats binders reads (s.member property) fun _ => True := by
      refine .kind fun l _ => ?_
      cases l with
      | identifier => exact .pure trivial
      | _ => exact .throw _
    refine named.bind fun field _ => (parts source (by simp)).bind fun u _ => ?_
    cases u with
    | object fields => exact .found _ _
    | _ => exact .throw _
  | context name => exact .found _ _
  | assignment name v | derived name v => exact parts v (by simp)
  | _ => exact .throw _

end Repeats

end Setting

namespace Tree.Sighted

variable {a : Arena} {t : Tree} {x y c : NodeId} {k : Kind} (sighted : t.Sighted a)

include sighted

/-- A parameter that stands where a value is asked for belongs to no function, so nothing binds it. -/
theorem entered_unbound (live : x ∈ t.ids) (held : a.kind? x = some k) (part : c ∈ k.entered) {name : String}
    {declared : Option Ty} (param : a.kind? c = some (.param name declared)) : c ∉ t.binders a := by
  rintro ⟨z, above, l, there, bound⟩
  cases l with
  | binding =>
    obtain rfl := List.mem_singleton.1 bound
    cases there.symm.trans param
  | function shown params body =>
    have child : c ∈ (Kind.function shown params body).children := List.mem_append_left _ bound
    obtain rfl := sighted.stands.parent_unique sighted.once above live there held child (Kind.mem_children_of_entered part)
    cases there.symm.trans held
    obtain rfl := List.mem_singleton.1 part
    exact (List.nodup_append.1 (sighted.children_nodup live held)).2.2 _ bound _ (List.mem_singleton.2 rfl) rfl
  | split => exact absurd rfl (sighted.layered.unsplit above there)
  | _ => cases bound

theorem target_known {target : NodeId} {name : String} {reads : Set NodeId} (held : a.kind? x = some (.reference target
    name)) (read : ∀ y, a.Free x y → y ∈ reads) : target ∉ t.binders a ∨ target ∈ reads := by
  refine Classical.or_iff_not_imp_left.2 fun bound => ?_
  obtain ⟨z, above, k, binder, binds⟩ := not_not.1 bound
  exact read target (.read held fun l there => sighted.bound_local above binder binds l there)

end Tree.Sighted

theorem Arena.free_of_code {a : Arena} {x y c : NodeId} (code : c ∈ a.code x) (free : a.Free c y) : a.Free x y := by
  obtain ⟨name, v, next, held, lone⟩ | ⟨-, none_ | lone⟩ := a.code_cases x
  · obtain rfl := List.mem_singleton.1 (lone ▸ code)
    exact free_of_run held (List.mem_singleton.2 rfl) (.here free)
  · cases none_ ▸ code
  · exact List.mem_singleton.1 (lone ▸ code) ▸ free

namespace Setting

variable [Arithmetic N] {s : Setting N} {t : Tree} {x : NodeId} {reads : Set NodeId} {depth : Nat}

theorem callee_repeats (sighted : t.Sighted s.arena) (live : x ∈ t.ids)
    (read : ∀ c ∈ s.arena.code x, ∀ y, s.arena.Free c y → y ∈ reads) (i : NodeId) : Repeats (t.binders s.arena) reads
    (s.calleeWithin depth i x) fun g => g ∈ t.ids ∧ ∀ y, s.arena.Free g y → y ∈ reads := by
  induction depth generalizing x with
  | zero =>
    rw [calleeWithin]
    exact .throw _
  | succ depth ih =>
    rw [calleeWithin]
    refine .kind fun k held => ?_
    have child {c : NodeId} (part : c ∈ k.children) := sighted.child_mem live held part
    cases k with
    | function => exact .pure ⟨live, read x (by simp [Arena.code, held])⟩
    | reference target name =>
      refine ih (sighted.links live held target (List.mem_singleton.2 rfl)) fun c code y free => ?_
      obtain ⟨shown, v, next, there, lone⟩ | ⟨-, none_ | lone⟩ := s.arena.code_cases target
      · obtain rfl := List.mem_singleton.1 (lone ▸ code)
        exact read x (by simp [Arena.code, held]) y (.named held there free)
      · cases none_ ▸ code
      · obtain rfl := List.mem_singleton.1 (lone ▸ code)
        exact absurd free (sighted.closed live held code)
    | derived name v | assignment name v =>
      refine ih (child (by simp)) fun c code y free => read x (by simp [Arena.code, held]) y ?_
      exact Arena.free_of_run held (List.mem_singleton.2 rfl) (.here (Arena.free_of_code code free))
    | binding name v next =>
      exact ih (child (by simp)) fun c code y free => read v (by simp [Arena.code, held]) y (Arena.free_of_code code free)
    | split => exact absurd rfl (sighted.layered.unsplit live held)
    | _ => exact .throw _

variable (s t) in
structure Repeated (depth : Nat) : Prop where
  eval : ∀ {x : NodeId} {reads : Set NodeId}, x ∈ t.ids → (∀ y, s.arena.Free x y → y ∈ reads) →
    (∀ name declared, s.arena.kind? x = some (.param name declared) → x ∉ t.binders s.arena ∨ x ∈ reads) →
    Repeats (t.binders s.arena) reads (s.evalWithin depth x) fun _ => True
  call : ∀ {x : NodeId} {reads : Set NodeId}, x ∈ t.ids → (∀ y, s.arena.Free x y → y ∈ reads) → ∀ args,
    Repeats (t.binders s.arena) reads (s.callWithin depth x args) fun _ => True

theorem Repeated.part (below : s.Repeated t depth) (sighted : t.Sighted s.arena) (live : x ∈ t.ids) {k : Kind}
    (held : s.arena.kind? x = some k) {c : NodeId} (part : c ∈ k.entered) (read : ∀ y, s.arena.Free c y → y ∈ reads) :
    Repeats (t.binders s.arena) reads (s.evalWithin depth c) fun _ => True :=
  below.eval (sighted.child_mem live held (Kind.mem_children_of_entered part)) read fun _ _ param =>
    .inl (sighted.entered_unbound live held part param)

theorem Repeated.eval_succ (below : s.Repeated t depth) (sighted : t.Sighted s.arena) (live : x ∈ t.ids) (read : ∀ y,
    s.arena.Free x y → y ∈ reads) (own : ∀ name declared, s.arena.kind? x = some (.param name declared) → x ∉ t.binders
    s.arena ∨ x ∈ reads) : Repeats (t.binders s.arena) reads (s.evalWithin (depth + 1) x) fun _ => True := by
  cases held : s.arena.kind? x with
  | none =>
    rw [evalWithin, kind_of_none held]
    exact .throw _
  | some k =>
  have part {c : NodeId} (entered : c ∈ k.entered) (read : ∀ y, s.arena.Free c y → y ∈ reads) :=
    below.part sighted live held entered read
  by_cases flat : k.isFlat = true
  · have nothing : k.binds x = [] := by cases k <;> first | rfl | cases flat
    rw [evalWithin_flat held flat]
    exact .flatly fun c entered => part entered fun y free => read y (.of_entered held nothing entered free)
  rw [evalWithin, kind_of_kind? held, pure_bind]
  cases k with
  | binding name v next =>
    have run : [(v, [x]), (next, [])] ∈ (Kind.binding name v next).runs x := List.mem_singleton.2 rfl
    refine (part (c := v) (by simp) fun y free => read y (Arena.free_of_run held run (.here free))).bind fun u _ => ?_
    have binds : ∀ p ∈ [x], p ∈ t.binders s.arena := fun p same => ⟨x, live, _, held, same⟩
    have count : [x].length = [u].length := rfl
    refine .bound count binds (fun _ => rfl) (below.part sighted live held (by simp) fun y free => ?_)
    by_cases same : y ∈ [x]
    · exact .inr same
    · exact .inl (read y (Arena.free_of_run held run (.later (.here free) same)))
  | reference target name =>
    refine .get (fun ρ σ shares => by rw [shares.same (sighted.target_known held read)]) fun ρ => ?_
    cases ρ[target]? with
    | some => exact .pure trivial
    | none =>
      refine .kind fun l there => ?_
      have item {v : NodeId} (listed : [(v, [])] ∈ l.runs target) (self : s.arena.code target = [target]) :
          Repeats (t.binders s.arena) reads (s.evalWithin depth v) fun _ => True := by
        refine below.part sighted (sighted.links live held target (List.mem_singleton.2 rfl)) there
          (Arena.mem_entered_of_runs listed (List.mem_singleton.2 rfl)) fun y free => ?_
        exact absurd (Arena.free_of_run there listed (.here free))
          (sighted.closed live held (self ▸ List.mem_singleton.2 rfl))
      cases l with
      | column column declared =>
        dsimp only
        unfold columnValue
        split
        · split
          · exact .pure trivial
          · exact .throw _
        · exact .throw _
      | derived | assignment => exact item (List.mem_singleton.2 rfl) (by simp [Arena.code, there])
      | _ => exact .throw _
  | invoke callee args =>
    have reads' {c : NodeId} (entered : c ∈ (Kind.invoke callee args).entered) (y : NodeId) (free : s.arena.Free c y) :
        y ∈ reads := read y (.of_entered held rfl entered free)
    refine (Repeats.mapM fun arg listed => part (.tail _ listed) (reads' (.tail _ listed))).bind fun vs _ => ?_
    exact below.call (sighted.child_mem live held (by simp)) (reads' (by simp)) vs
  | split => exact absurd rfl (sighted.layered.unsplit live held)
  | param name declared =>
    refine .get (fun ρ σ shares => by rw [shares.same (own name declared held)]) fun ρ => ?_
    cases ρ[x]? with
    | some => exact .pure trivial
    | none => exact .throw _
  | function => exact .throw _
  | _ => exact absurd rfl flat

theorem Repeated.call_succ (below : s.Repeated t depth) (sighted : t.Sighted s.arena) (live : x ∈ t.ids)
    (read : ∀ y, s.arena.Free x y → y ∈ reads) (args : List (Value N)) :
    Repeats (t.binders s.arena) reads (s.callWithin (depth + 1) x args) fun _ => True := by
  rw [callWithin]
  refine (callee_repeats sighted live (fun c code y free => read y (Arena.free_of_code code free)) x).bind ?_
  rintro g ⟨inside, outer⟩
  refine .kind fun k held => ?_
  cases k with
  | function name params body =>
    dsimp only
    by_cases count : params.length = args.length
    · rw [if_neg (not_not.2 count)]
      have binds : ∀ p ∈ params, p ∈ t.binders s.arena := fun p listed => ⟨g, inside, _, held, listed⟩
      refine .bound count binds (bindAll params args) ?_
      refine below.part sighted inside held (List.mem_singleton.2 rfl) fun y free => ?_
      by_cases listed : y ∈ params
      · exact .inr listed
      · exact .inl (outer y (.body held free listed))
    · rw [if_pos count]
      exact .throw _
  | _ => exact .throw _

theorem repeated (sighted : t.Sighted s.arena) (depth : Nat) : s.Repeated t depth := by
  induction depth with
  | zero =>
    constructor <;> intros <;> simp only [evalWithin, callWithin] <;> exact .throw _
  | succ depth below => exact ⟨below.eval_succ sighted, below.call_succ sighted⟩

/-- The bindings that evaluations and calls of these nodes, one after the other, leave behind, whether they
succeed or fail. -/
inductive Past (s : Setting N) (nodes : List NodeId) : Bindings N → Prop
  | start : Past s nodes ∅
  | eval {ρ : Bindings N} (before : Past s nodes ρ) {x : NodeId} (listed : x ∈ nodes) (depth : Nat) :
    Past s nodes (left (s.evalWithin depth x ρ))
  | call {ρ : Bindings N} (before : Past s nodes ρ) {x : NodeId} (listed : x ∈ nodes) (args : List (Value N))
    (depth : Nat) : Past s nodes (left (s.callWithin depth x args ρ))

theorem Past.unbound (sighted : t.Sighted s.arena) {ρ : Bindings N} (past : s.Past t.ids ρ) {y : NodeId}
    (free : y ∉ t.binders s.arena) : ρ[y]? = none := by
  have kept {m : Evaluation N (Value N)} {ρ : Bindings N}
      (repeats : Repeats (t.binders s.arena) Set.univ m fun _ => True)
      (before : ∀ y ∉ t.binders s.arena, ρ[y]? = none) (y : NodeId) (free : y ∉ t.binders s.arena) :
      (left (m ρ))[y]? = none :=
    ((repeats.run ⟨fun _ _ => rfl, fun y free => ⟨before y free, before y free⟩⟩).2.1.unbound y free).1
  revert y
  induction past with
  | start => simp
  | eval before listed depth ih =>
    intro y free
    exact kept ((repeated sighted depth).eval listed (fun _ _ => trivial) fun _ _ _ => .inr trivial) (fun _ => ih) y free
  | call before listed args depth ih =>
    intro y free
    exact kept ((repeated sighted depth).call listed (fun _ _ => trivial) args) (fun _ => ih) y free

theorem call_repeats (sighted : t.Sighted s.arena) {ρ : Bindings N} (past : s.Past t.ids ρ) {f : NodeId}
    (live : f ∈ t.ids) (closed : ∀ y, ¬ s.arena.Free f y) (args : List (Value N)) :
    outcome (s.callWithin depth f args ρ) = fresh (s.callWithin depth f args) := by
  have shares : Shares (t.binders s.arena) ∅ ρ ∅ :=
    ⟨nofun, fun y free => ⟨past.unbound sighted free, Std.TreeMap.getElem?_emptyc⟩⟩
  exact ((repeated sighted depth).call live (fun y free => absurd free (closed y)) args).run shares |>.1

end Setting

open Setting

variable {program : Program} {options : Options} {c : Compilation}

theorem compile_sighted (compiled : compile program options = .ok c) (unsplit : options.lastStage ≠ .split) :
    ∃ t : Tree, t.id = c.root ∧ t.Sighted c.arena := by
  obtain ⟨c₀, lowered, compiled⟩ := except_bind_eq_ok.1 compiled
  obtain ⟨t₀, -, held₀⟩ := Compilation.lower_holds lowered
  cases stage : options.lastStage <;>
    simp only [stage, Stage.route, List.foldlM_cons, List.foldlM_nil, Compilation.enter] at compiled
  case lowered =>
    cases compiled
    exact ⟨t₀, held₀.root.symm, held₀.sighted⟩
  case split => exact absurd stage unsplit
  all_goals obtain ⟨c₁, resolved, compiled⟩ := except_bind_eq_ok.1 compiled
  case resolved =>
    cases compiled
    obtain ⟨t, held⟩ := Compilation.resolved_holds (except_bind_eq_ok.2 ⟨c₀, lowered, resolved⟩)
    exact ⟨t, held.root.symm, held.sighted⟩
  all_goals
    have resolved := except_bind_eq_ok.2 ⟨c₀, lowered, resolved⟩
    obtain ⟨c₂, typed, compiled⟩ := except_bind_eq_ok.1 compiled
  case typed =>
    cases compiled
    obtain ⟨t, root, orderly⟩ := Compilation.orderly resolved typed (.inl rfl)
    exact ⟨t, root, orderly.toSighted⟩
  case pipelines =>
    obtain ⟨c₃, recognized, compiled⟩ := except_bind_eq_ok.1 compiled
    cases compiled
    obtain ⟨t, root, orderly⟩ := Compilation.orderly resolved typed (.inr recognized)
    exact ⟨t, root, orderly.toSighted⟩

/-- A call of a function that reads no parameter or let around it has the outcome it has when nothing was evaluated
before, value or fault, after any evaluations and calls in the program, up to the split of its columns. -/
theorem compile_call_repeats [Arithmetic N] (compiled : compile program options = .ok c) (unsplit : options.lastStage ≠
    .split) (context : List (String × Value N)) {ρ : Bindings N} (past : (Setting.mk c.arena context).Past c.live ρ) {f
    : NodeId} (live : f ∈ c.live) (closed : ∀ y, ¬ c.arena.Free f y) (args : List (Value N)) (depth : Nat) : outcome
    ((Setting.mk c.arena context).callWithin depth f args ρ) = fresh ((Setting.mk c.arena context).callWithin depth f
    args) := by
  obtain ⟨t, root, sighted⟩ := compile_sighted compiled unsplit
  have nodes : c.live = t.ids := by rw [Compilation.live, ← root, sighted.stands.descendants_eq sighted.once]
  rw [nodes] at past live
  exact call_repeats sighted past live closed args

/-- A call that failed has left its parameter bound. -/
theorem forgets_call_repeats :
    ∃ c ρ, compile forgets ⟨.typed, 32, true⟩ = .ok c ∧ c.arena.isAssignmentOf "f" 10 = true ∧
      (Setting.mk (N := Float) c.arena []).Past c.live ρ ∧ ρ.isEmpty = false ∧
      ∀ (args : List (Value Float)) (depth : Nat), outcome ((Setting.mk c.arena []).callWithin depth 10 args ρ) =
        fresh ((Setting.mk c.arena []).callWithin depth 10 args) := by
  let calls (k : Option Kind) : Bool := k.any fun k => k.name == "reference" && k.links.contains 10
  obtain ⟨c, compiled, found⟩ : ∃ c, compile forgets ⟨.typed, 32, true⟩ = .ok c ∧
      (c.arena.isAssignmentOf "f" 10 && c.live.contains 10 && (c.arena.code 10).contains 10 &&
        c.live.any (fun x => calls (c.arena.kind? x)) &&
        !(left ((Setting.mk (N := Float) c.arena []).callWithin 9 10 [.null] ∅)).isEmpty) = true :=
    except_any (by decide +kernel)
  simp only [Bool.and_eq_true, Bool.not_eq_true', List.contains_iff_mem, List.any_eq_true] at found
  obtain ⟨⟨⟨⟨named, live⟩, self⟩, x, inside, called⟩, bound⟩ := found
  refine ⟨c, _, compiled, named, .call .start live [.null] 9, bound, fun args depth => ?_⟩
  refine compile_call_repeats compiled (by decide) [] (.call .start live [.null] 9) live (fun y free => ?_) args depth
  obtain ⟨t, root, sighted⟩ := compile_sighted compiled (by decide)
  have nodes : c.live = t.ids := by rw [Compilation.live, ← root, sighted.stands.descendants_eq sighted.once]
  cases there : c.arena.kind? x with
  | none =>
    rw [there] at called
    cases called
  | some k =>
    rw [there] at called
    cases k with
    | reference target name =>
      obtain rfl : target = 10 := by simpa [calls, Kind.name, Kind.links, eq_comm] using called
      exact sighted.closed (nodes ▸ inside) there self free
    | _ => simp [calls, Kind.name] at called

end DerivedTables
