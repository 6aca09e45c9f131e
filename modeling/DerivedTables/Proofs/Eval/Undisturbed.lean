import DerivedTables.Proofs.Eval.Scoped

/-!
One set of bindings for all activations is enough where nothing is read after it may have been bound
again.
-/

namespace DerivedTables

attribute [local simp] Kind.entered Kind.isInert Kind.children

variable {N : Type}

theorem Faults.eq_near (x : NodeId) : (Faults.like Eq).Near x x := fun e => ⟨e.locate x, rfl, rfl⟩

abbrev Tracks {α : Type} (pre : Bindings N → Bindings N → Prop) (post : α → Bindings N → Bindings N → Prop)
    (first second : Evaluation N α) : Prop :=
  Couples (.like Eq) pre (fun x y ρ σ => x = y ∧ post x ρ σ) first second

namespace Tracks

variable {α β : Type} {pre : Bindings N → Bindings N → Prop} {post : α → Bindings N → Bindings N → Prop}

theorem pure {x : α} (held : ∀ ρ σ, pre ρ σ → post x ρ σ) : Tracks pre post (pure x) (pure x) :=
  fun ρ σ agree => .inl ⟨x, x, ρ, σ, rfl, rfl, rfl, held ρ σ agree⟩

theorem throw (fault : Fault) : Tracks pre post (throw fault) (throw fault) := Couples.throw ⟨fault, rfl, rfl⟩

theorem bind {later : β → Bindings N → Bindings N → Prop} {first second : Evaluation N α}
    {f g : α → Evaluation N β} (head : Tracks pre post first second)
    (tail : ∀ x, Tracks (post x) later (f x) (g x)) : Tracks pre later (first >>= f) (second >>= g) := by
  apply head.seq
  rintro x y ρ σ ⟨rfl, held⟩
  exact tail x ρ σ held

theorem mono {stronger : Bindings N → Bindings N → Prop} {weaker : α → Bindings N → Bindings N → Prop}
    {first second : Evaluation N α} (tracks : Tracks pre post first second)
    (before : ∀ ρ σ, stronger ρ σ → pre ρ σ) (after : ∀ x ρ σ, post x ρ σ → weaker x ρ σ) :
    Tracks stronger weaker first second :=
  Couples.mono tracks before fun x _ ρ σ held => ⟨held.1, after x ρ σ held.2⟩

theorem kind {s : Setting N} {x : NodeId} {f g : Kind → Evaluation N α}
    (tail : ∀ k, s.arena.kind? x = some k → Tracks pre post (f k) (g k)) :
    Tracks pre post (s.kind x >>= f) (s.kind x >>= g) := by
  cases held : s.arena.kind? x with
  | none =>
    rw [Setting.kind_of_none held]
    exact throw _
  | some k =>
    rw [Setting.kind_of_kind? held]
    exact tail k held

end Tracks

def Arena.Plain (a : Arena) (ρ : Bindings N) : Prop :=
  ∀ y k, a.kind? y = some k → k.isGlobal = true → ρ[y]? = none

theorem Arena.Plain.insert {a : Arena} {ρ : Bindings N} (plain : a.Plain ρ) {x : NodeId} (v : Value N)
    (within : ∀ k, a.kind? x = some k → k.isGlobal = false) : a.Plain (ρ.insert x v) := by
  intro y k held global
  rw [Std.TreeMap.getElem?_insert, if_neg, plain y k held global]
  intro same
  obtain rfl : x = y := by simpa using same
  rw [within k held] at global
  cases global

theorem Arena.Plain.empty {a : Arena} : a.Plain (∅ : Bindings N) :=
  fun _ _ _ _ => Std.TreeMap.getElem?_emptyc

def Arena.Stable (a : Arena) (x : NodeId) (keeps : Bindings N → Prop) : Prop :=
  ∀ y, a.Rebinds x y → ∀ ρ v, keeps ρ → keeps (ρ.insert y v)

structure Sees (a : Arena) (reads : NodeId → Prop) (keeps : Bindings N → Prop) (ρ σ : Bindings N) :
    Prop where
  agree : ∀ y, reads y → ρ[y]? = σ[y]?
  plain : a.Plain ρ
  plain' : a.Plain σ
  kept : keeps ρ

namespace Sees

variable {a : Arena} {reads fewer : NodeId → Prop} {keeps : Bindings N → Prop} {ρ σ : Bindings N}

theorem mono (sees : Sees a reads keeps ρ σ) (subset : ∀ y, fewer y → reads y) :
    Sees a fewer keeps ρ σ :=
  ⟨fun y read => sees.agree y (subset y read), sees.plain, sees.plain', sees.kept⟩

theorem insert {x : NodeId} (sees : Sees a (fun y => reads y ∧ y ∉ [x]) keeps ρ σ) (v : Value N)
    (within : ∀ k, a.kind? x = some k → k.isGlobal = false)
    (stable : keeps ρ → keeps (ρ.insert x v)) : Sees a reads keeps (ρ.insert x v) (σ.insert x v) := by
  refine ⟨fun y read => ?_, sees.plain.insert v within, sees.plain'.insert v within, stable sees.kept⟩
  by_cases same : x = y
  · subst same
    simp
  · rw [Std.TreeMap.getElem?_insert, Std.TreeMap.getElem?_insert, if_neg (by simpa using same),
      if_neg (by simpa using same)]
    exact sees.agree y ⟨read, by simpa using Ne.symm same⟩

theorem bound {params : List NodeId} {args : List (Value N)} (count : params.length = args.length)
    (within : ∀ p ∈ params, ∀ k, a.kind? p = some k → k.isGlobal = false)
    (stable : ∀ p ∈ params, ∀ ρ v, keeps ρ → keeps (ρ.insert p v))
    (sees : Sees a (fun y => reads y ∧ y ∉ params) keeps ρ σ) :
    Sees a reads keeps (Setting.bound params args ρ) (Setting.bound params args σ) := by
  induction params generalizing args ρ σ with
  | nil => exact sees.mono fun _ read => ⟨read, by simp⟩
  | cons p rest ih =>
    cases args with
    | nil => cases count
    | cons v others =>
      rw [Setting.bound, Setting.bound]
      refine ih (Nat.succ.inj count) (fun q listed => within q (.tail _ listed))
        (fun q listed => stable q (.tail _ listed)) ?_
      refine Sees.insert (sees.mono ?_) v (within p List.mem_cons_self) (stable p List.mem_cons_self ρ v)
      rintro y ⟨⟨read, other⟩, first⟩
      exact ⟨read, by simp_all⟩

theorem target {x y : NodeId} {name : String} (sees : Sees a (a.Free x) keeps ρ σ)
    (held : a.kind? x = some (.reference y name)) : ρ[y]? = σ[y]? := by
  cases there : a.kind? y with
  | none => exact sees.agree y (.read held (by simp [there]))
  | some k =>
    cases global : k.isGlobal with
    | true => rw [sees.plain y k there global, sees.plain' y k there global]
    | false => exact sees.agree y (.read held (by simpa [there] using global))

end Sees

structure Arena.Sound (a : Arena) (inside : NodeId → Prop) : Prop where
  leads : ∀ {x y}, inside x → a.Leads x y → inside y
  outside : ∀ {x t : NodeId} {name : String}, inside x → a.kind? x = some (.reference t name) →
    t ∈ a.code t → ∀ y, ¬ a.Free t y
  binds : ∀ {x y : NodeId} {k : Kind}, inside x → a.kind? x = some k → y ∈ k.binds x →
    ∀ l, a.kind? y = some l → l.isGlobal = false
  steady : ∀ {x : NodeId} {k : Kind}, inside x → a.kind? x = some k → ∀ run ∈ k.runs x, a.Steady run
  solid : ∀ {x : NodeId} {name : String} {declared : Option Ty}, inside x →
    a.kind? x ≠ some (.param name declared)

namespace Arena

variable {a : Arena} {x y z : NodeId} {k : Kind}

theorem Sound.reaches {inside : NodeId → Prop} (sound : a.Sound inside) (within : inside x)
    (reaches : a.Reaches x y) : inside y := by
  induction reaches with
  | refl => exact within
  | tail _ leads ih => exact sound.leads ih leads

theorem Leads.of_part (held : a.kind? x = some k) (part : y ∈ k.entered) : a.Leads x y :=
  ⟨k, held, .inl part⟩

theorem Leads.of_name {target : NodeId} {name : String} (held : a.kind? x = some (.reference target name))
    (code : y ∈ a.code target) : a.Leads x y :=
  ⟨_, held, .inr ⟨target, name, rfl, code⟩⟩

theorem Rebinds.of_leads (leads : a.Leads x y) (rebinds : a.Rebinds y z) : a.Rebinds x z := by
  obtain ⟨w, k, reaches, held, bound⟩ := rebinds
  exact ⟨w, k, .head leads reaches, held, bound⟩

theorem Rebinds.of_binds (held : a.kind? x = some k) (bound : y ∈ k.binds x) : a.Rebinds x y :=
  ⟨x, k, .refl, held, bound⟩

theorem Stable.of_leads {keeps : Bindings N → Prop} (stable : a.Stable x keeps) (leads : a.Leads x y) :
    a.Stable y keeps :=
  fun z rebinds => stable z (rebinds.of_leads leads)

theorem Stable.of_reaches {keeps : Bindings N → Prop} (stable : a.Stable x keeps)
    (reaches : a.Reaches x y) : a.Stable y keeps := by
  rintro z ⟨w, k, further, held, bound⟩
  exact stable z ⟨w, k, reaches.trans further, held, bound⟩

theorem mem_entered_of_runs {run : List (NodeId × List NodeId)} {step : NodeId × List NodeId}
    (listed : run ∈ k.runs x) (part : step ∈ run) : step.1 ∈ k.entered := by
  cases k <;> simp only [Kind.runs, List.mem_cons, List.not_mem_nil, or_false] at listed
  case invoke callee args =>
    subst listed
    simp only [List.mem_append, List.mem_map, List.mem_singleton] at part
    obtain ⟨arg, held, rfl⟩ | rfl := part
    · exact .tail _ held
    · exact .head _
  case split read writes =>
    subst listed
    simp only [List.mem_append, List.mem_map, List.mem_singleton] at part
    obtain ⟨write, held, rfl⟩ | rfl := part
    · exact List.mem_append_left _ (List.mem_map_of_mem held)
    · exact List.mem_append_right _ (List.mem_singleton.2 rfl)
  case conditional =>
    obtain rfl | rfl := listed <;> simp only [List.mem_cons, List.not_mem_nil, or_false] at part <;>
      obtain rfl | rfl := part <;> simp [Kind.entered, Kind.isInert, Kind.children]
  all_goals
    subst listed
    simp only [List.mem_cons, List.not_mem_nil, or_false] at part
    obtain rfl | rfl := part <;> simp [Kind.entered, Kind.isInert, Kind.children]

/-- What a name stands for: a let's value, nothing that could be entered, or the target itself. -/
theorem code_cases (a : Arena) (target : NodeId) :
    (∃ name v next, a.kind? target = some (.binding name v next) ∧ a.code target = [v]) ∨
      a.isBinding target = false ∧ (a.code target = [] ∨ a.code target = [target]) := by
  cases held : a.kind? target with
  | none => simp [code, isBinding, held]
  | some k => cases k <;> simp [code, isBinding, held]

theorem free_of_run {run : List (NodeId × List NodeId)} (held : a.kind? x = some k)
    (listed : run ∈ k.runs x) (free : a.FreeIn run y) : a.Free x y := by
  obtain ⟨before, c, bound, after, rfl, inside, unbound⟩ := free
  exact .part held listed inside unbound

theorem FreeIn.here {c : NodeId} {bound : List NodeId} {rest : List (NodeId × List NodeId)}
    (free : a.Free c y) : a.FreeIn ((c, bound) :: rest) y :=
  ⟨[], c, bound, rest, rfl, free, by simp⟩

theorem FreeIn.later {step : NodeId × List NodeId} {rest : List (NodeId × List NodeId)}
    (free : a.FreeIn rest y) (unbound : y ∉ step.2) : a.FreeIn (step :: rest) y := by
  obtain ⟨before, c, bound, after, rfl, inside, others⟩ := free
  exact ⟨step :: before, c, bound, after, rfl, inside, List.forall_mem_cons.2 ⟨unbound, others⟩⟩

theorem Free.of_entered (held : a.kind? x = some k) (nothing : k.binds x = []) {c : NodeId} (part : c ∈ k.entered) (free : a.Free c y) :
    a.Free x y := by
  have flat {run : List (NodeId × List NodeId)} (listed : run ∈ k.runs x) (within : (c, []) ∈ run)
      (plain : ∀ step ∈ run, step.2 = []) : a.Free x y := by
    obtain ⟨before, after, rfl⟩ := List.append_of_mem within
    refine .part held listed free fun step earlier => ?_
    rw [plain step (List.mem_append_left _ earlier)]
    exact List.not_mem_nil
  cases k with
  | function name params body =>
    obtain rfl := List.mem_singleton.1 part
    exact .body held free (by rw [show params = [] from nothing]; simp)
  | binding => cases nothing
  | split read writes =>
    obtain rfl : writes = [] := List.map_eq_nil_iff.1 nothing
    exact flat List.mem_cons_self (by simpa using part) (by simp)
  | conditional =>
    obtain rfl | rfl | rfl : c = _ ∨ c = _ ∨ c = _ := by simpa using part
    · exact flat List.mem_cons_self (by simp) (by simp)
    · exact flat List.mem_cons_self (by simp) (by simp)
    · exact flat (.tail _ List.mem_cons_self) (by simp) (by simp)
  | invoke callee args =>
    refine flat List.mem_cons_self ?_ (List.forall_mem_append.2 ⟨List.forall_mem_map.2 fun _ _ => rfl, by simp⟩)
    simpa [or_comm] using part
  | binary | effect | access | assignment | derived => exact flat List.mem_cons_self (by simpa using part) (by simp)
  | _ => cases part
end Arena

namespace Setting

variable (s : Setting N)

/-- The scoped evaluation ends with the bindings it starts from, and the other one reads what those have. -/
abbrev Passes {α : Type} (reads later : NodeId → Prop) (keeps : Bindings N → Prop) (σ₀ : Bindings N)
    (first second : Evaluation N α) : Prop :=
  Tracks (fun ρ σ => σ = σ₀ ∧ Sees s.arena reads keeps ρ σ) (fun _ ρ σ => σ = σ₀ ∧ Sees s.arena later keeps ρ σ)
    first second

abbrev Arrives (reads : NodeId → Prop) (x : NodeId) (keeps : Bindings N → Prop) (first second : Evaluation N NodeId) :
    Prop :=
  Tracks (Sees s.arena reads keeps) (fun g ρ σ => s.arena.Reaches x g ∧ Sees s.arena (s.arena.Free g) keeps ρ σ)
    first second

variable {s} {x c : NodeId} {keeps : Bindings N → Prop} {k : Kind} {reads more later : NodeId → Prop} {σ₀ : Bindings N}

theorem Passes.mono {α : Type} {first second : Evaluation N α} (passes : s.Passes reads later keeps σ₀ first second)
    (subset : ∀ y, reads y → more y) : s.Passes more later keeps σ₀ first second :=
  Tracks.mono passes (fun _ _ sees => ⟨sees.1, sees.2.mono subset⟩) fun _ _ _ sees => sees

theorem Arrives.mono {first second : Evaluation N NodeId} (arrives : s.Arrives reads c keeps first second)
    (subset : ∀ y, reads y → more y) (leads : s.arena.Leads x c) : s.Arrives more x keeps first second :=
  Tracks.mono arrives (fun _ _ sees => sees.mono subset) fun _ _ _ sees => ⟨.head leads sees.1, sees.2⟩

theorem Passes.restoring {α : Type} {first second : Evaluation N α}
    (inner : Tracks (fun ρ σ => σ = σ₀ ∧ Sees s.arena reads keeps ρ σ) (fun _ => Sees s.arena (fun _ => False) keeps)
      first second) :
    s.Passes reads (fun _ => False) keeps σ₀ first (restoring second) := by
  rintro ρ σ ⟨rfl, before⟩
  obtain ⟨x, _, ρ₁, σ₁, ran, ran', rfl, sees⟩ | ⟨e, _, ρ₁, σ₁, ran, ran', rfl⟩ := inner.ends ⟨rfl, before⟩
  · refine .inl ⟨x, x, ρ₁, σ, ran, ?_, rfl, rfl, fun _ => False.elim, sees.plain, before.plain', sees.kept⟩
    exact (bind_of_ok (m := MonadState.get) rfl).trans ((bind_of_ok ran').trans (bind_of_ok rfl))
  · have failed : restoring second σ = .error e σ₁ :=
      (bind_of_ok (m := MonadState.get) rfl).trans (bind_of_error ran')
    exact .inr ⟨e, ρ₁, ran, Faults.of_error failed rfl⟩

theorem Passes.within {α : Type} {first second : Evaluation N α}
    (passes : ∀ σ₀, s.Passes reads later keeps σ₀ first second) :
    Tracks (Sees s.arena reads keeps) (fun _ => Sees s.arena later keeps) first second :=
  fun ρ σ sees => Tracks.mono (passes σ) (fun _ _ sees => sees) (fun _ _ _ sees => sees.2) ρ σ ⟨rfl, sees⟩

variable [Arithmetic N] {depth : Nat}

variable (s) (inside : NodeId → Prop) in
structure Agrees (depth : Nat) : Prop where
  eval : ∀ {x : NodeId} {keeps : Bindings N → Prop}, inside x → s.arena.Stable x keeps → ∀ σ₀,
    s.Passes (s.arena.Free x) (fun _ => False) keeps σ₀ (s.evalWithin depth x) (s.scopedWithin depth x)
  call : ∀ {x : NodeId} {keeps : Bindings N → Prop}, inside x → s.arena.Stable x keeps → ∀ args σ₀,
    s.Passes (s.arena.Free x) (fun _ => False) keeps σ₀ (s.callWithin depth x args) (s.scopedCallWithin depth x args)
  callee : ∀ {x : NodeId} {keeps : Bindings N → Prop}, inside x → s.arena.Stable x keeps → ∀ i,
    s.Arrives (s.arena.Free x) x keeps (s.calleeWithin depth i x) (s.scopedCalleeWithin depth i x)
  -- A let is entered by name, past its own node.
  named : ∀ {b v next : NodeId} {name : String} {keeps : Bindings N → Prop},
    s.arena.kind? b = some (.binding name v next) → inside v → s.arena.Stable v keeps → ∀ i,
    s.Arrives (s.arena.Free v) v keeps (s.calleeWithin depth i b) (s.scopedCalleeWithin depth i b)

variable {inside : NodeId → Prop}

theorem Agrees.before (agrees : s.Agrees inside depth) (within : inside c) (stable : s.arena.Stable c keeps)
    (steady : ∀ y, later y → ¬ s.arena.Rebinds c y) (σ₀ : Bindings N) :
    s.Passes (fun y => s.arena.Free c y ∨ later y) later keeps σ₀ (s.evalWithin depth c) (s.scopedWithin depth c) := by
  have kept : s.arena.Stable c fun ρ : Bindings N => keeps ρ ∧ ∀ y, later y → ρ[y]? = σ₀[y]? := by
    rintro z rebinds ρ v ⟨held, agree⟩
    refine ⟨stable z rebinds ρ v held, fun y read => ?_⟩
    rw [Std.TreeMap.getElem?_insert, if_neg, agree y read]
    intro same
    obtain rfl : z = y := by simpa using same
    exact steady z read rebinds
  refine Tracks.mono (agrees.eval within kept σ₀) ?_ ?_
  · rintro ρ σ ⟨rfl, sees⟩
    exact ⟨rfl, fun y free => sees.agree y (.inl free), sees.plain, sees.plain', sees.kept,
      fun y read => sees.agree y (.inr read)⟩
  · rintro _ ρ σ ⟨rfl, sees⟩
    exact ⟨rfl, sees.kept.2, sees.plain, sees.plain', sees.kept.1⟩

theorem Agrees.part (agrees : s.Agrees inside depth) {bound : List NodeId} {rest : List (NodeId × List NodeId)}
    (within : inside c) (stable : s.arena.Stable c keeps) (steady : s.arena.Steady ((c, bound) :: rest)) (σ₀ : Bindings N) :
    s.Passes (s.arena.FreeIn ((c, bound) :: rest)) (fun y => s.arena.FreeIn rest y ∧ y ∉ bound) keeps σ₀
      (s.evalWithin depth c) (s.scopedWithin depth c) :=
  Passes.mono (agrees.before within stable (fun y later => steady.1 y later.1 later.2) σ₀) fun _ read =>
    read.elim .here fun later => .later later.1 later.2

theorem callee_stuck {target : NodeId} (none_ : s.arena.code target = []) (i : NodeId) (ρ σ : Bindings N) :
    ∃ fault, s.calleeWithin depth i target ρ = .error fault ρ ∧
      s.scopedCalleeWithin depth i target σ = .error fault σ := by
  cases depth with
  | zero =>
    simp only [calleeWithin, scopedCalleeWithin]
    exact ⟨_, rfl, rfl⟩
  | succ depth =>
    cases there : s.arena.kind? target with
    | none =>
      simp only [calleeWithin, scopedCalleeWithin, kind_of_none there]
      exact ⟨_, rfl, rfl⟩
    | some k =>
      simp only [calleeWithin, scopedCalleeWithin, kind_of_kind? there, pure_bind]
      cases k with
      | param | column | definition => exact ⟨_, rfl, rfl⟩
      | _ => simp [Arena.code, there] at none_

theorem scopedCallee_named (target i : NodeId) (σ : Bindings N) :
    (do
      unless s.arena.isBinding target do set (∅ : Bindings N)
      s.scopedCalleeWithin depth i target : Evaluation N NodeId) σ =
      s.scopedCalleeWithin depth i target (if s.arena.isBinding target then σ else ∅) := by
  cases s.arena.isBinding target <;> exact bind_of_ok rfl

section Node

variable (agrees : s.Agrees inside depth) (sound : s.arena.Sound inside) (within : inside x)
  (stable : s.arena.Stable x keeps)

include agrees sound within stable

theorem Agrees.writes {read : NodeId} {writes : List (String × NodeId)}
    (held : s.arena.kind? x = some (.split read writes)) :
    Tracks (Sees s.arena (s.arena.Free x) keeps) (fun _ => Sees s.arena (s.arena.Free read) keeps)
      (writes.forM fun (_, write) => do Setting.bind write (← s.evalWithin depth write))
      (writes.forM fun (_, write) => do Setting.bind write (← s.scopedWithin depth write)) := by
  have along (rest : List (String × NodeId)) (subset : rest ⊆ writes)
      (steady : s.arena.Steady (rest.map (fun write => (write.2, [write.2])) ++ [(read, [])])) :
      Tracks (Sees s.arena (s.arena.FreeIn (rest.map (fun write => (write.2, [write.2])) ++ [(read, [])])) keeps)
        (fun _ => Sees s.arena (s.arena.Free read) keeps)
        (rest.forM fun (_, write) => do Setting.bind write (← s.evalWithin depth write))
        (rest.forM fun (_, write) => do Setting.bind write (← s.scopedWithin depth write)) := by
    induction rest with
    | nil => exact .pure fun _ _ sees => sees.mono fun _ free => .here free
    | cons write others ih =>
      have listed := subset List.mem_cons_self
      have leads := Arena.Leads.of_part held (List.mem_append_left _ (List.mem_map_of_mem listed))
      have bound : write.2 ∈ (Kind.split read writes).binds x := List.mem_map_of_mem listed
      have further := ih (fun w there => subset (.tail _ there)) steady.2
      refine Tracks.bind ?_ fun _ => further
      refine Tracks.bind (Passes.within (agrees.part (sound.leads within leads) (stable.of_leads leads) steady)) fun v ρ σ sees => ?_
      exact .inl ⟨(), (), _, _, rfl, rfl, rfl,
        sees.insert v (sound.binds within held bound) (stable _ (.of_binds held bound) ρ v)⟩
  have run := sound.steady within held _ (List.mem_singleton.2 rfl)
  exact Tracks.mono (along writes (fun _ listed => listed) run)
    (fun _ _ sees => sees.mono fun _ => Arena.free_of_run held (List.mem_singleton.2 rfl)) fun _ _ _ sees => sees

theorem Agrees.args {callee : NodeId} {args : List NodeId} (held : s.arena.kind? x = some (.invoke callee args))
    (σ₀ : Bindings N) :
    s.Passes (s.arena.Free x) (s.arena.Free callee) keeps σ₀ (args.mapM (s.evalWithin depth)) (args.mapM (s.scopedWithin depth)) := by
  have along (rest : List NodeId) (subset : rest ⊆ args)
      (steady : s.arena.Steady (rest.map (·, []) ++ [(callee, [])])) :
      s.Passes (s.arena.FreeIn (rest.map (·, []) ++ [(callee, [])])) (s.arena.Free callee) keeps σ₀
        (rest.mapM (s.evalWithin depth)) (rest.mapM (s.scopedWithin depth)) := by
    induction rest with
    | nil => exact .pure fun _ _ sees => ⟨sees.1, sees.2.mono fun _ free => .here free⟩
    | cons arg others ih =>
      have leads := Arena.Leads.of_part held (.tail _ (subset List.mem_cons_self))
      have further := ih (fun w there => subset (.tail _ there)) steady.2
      rw [List.mapM_cons, List.mapM_cons]
      refine Tracks.bind (agrees.part (sound.leads within leads) (stable.of_leads leads) steady σ₀) fun v => ?_
      exact Couples.wrap (v :: ·) (further.mono fun y free => ⟨free, by simp⟩)
  have run := sound.steady within held _ (List.mem_singleton.2 rfl)
  exact (along args (fun _ listed => listed) run).mono fun _ => Arena.free_of_run held (List.mem_singleton.2 rfl)

theorem Agrees.item {target v : NodeId} {name : String} (held : s.arena.kind? x = some (.reference target name))
    (there : s.arena.kind? target = some k) (self : target ∈ s.arena.code target) (listed : [(v, [])] ∈ k.runs target)
    (σ₀ : Bindings N) :
    s.Passes (s.arena.Free x) (fun _ => False) keeps σ₀
      (s.evalWithin depth v) (restoring do
        set (∅ : Bindings N)
        s.scopedWithin depth v) := by
  have named := Arena.Leads.of_name held self
  have leads := Arena.Leads.of_part there (Arena.mem_entered_of_runs listed (List.mem_singleton.2 rfl))
  have closed (y : NodeId) (free : s.arena.Free v y) : False :=
    sound.outside within held self y (Arena.free_of_run there listed (.here free))
  have inner := agrees.eval (sound.leads (sound.leads within named) leads) ((stable.of_leads named).of_leads leads) ∅
  refine Passes.restoring fun ρ σ sees => ?_
  have started : Sees s.arena (s.arena.Free v) keeps ρ ∅ :=
    ⟨fun y free => (closed y free).elim, sees.2.plain, .empty, sees.2.kept⟩
  exact Tracks.mono inner (fun _ _ sees => sees) (fun _ _ _ sees => sees.2) ρ ∅ ⟨rfl, started⟩

theorem Agrees.first (held : s.arena.kind? x = some k) {bound : List NodeId} {rest : List (NodeId × List NodeId)}
    (listed : (c, bound) :: rest ∈ k.runs x) (σ₀ : Bindings N) :
    s.Passes (s.arena.Free x) (fun y => s.arena.FreeIn rest y ∧ y ∉ bound) keeps σ₀
      (s.evalWithin depth c) (s.scopedWithin depth c) :=
  have leads := Arena.Leads.of_part held (Arena.mem_entered_of_runs listed List.mem_cons_self)
  (agrees.part (sound.leads within leads) (stable.of_leads leads) (sound.steady within held _ listed) σ₀).mono
    fun _ => Arena.free_of_run held listed

theorem Agrees.final (held : s.arena.kind? x = some k) (part : c ∈ k.entered)
    (read : ∀ y, s.arena.Free c y → reads y) (σ₀ : Bindings N) :
    s.Passes reads (fun _ => False) keeps σ₀ (s.evalWithin depth c) (s.scopedWithin depth c) :=
  have leads := Arena.Leads.of_part held part
  (agrees.eval (sound.leads within leads) (stable.of_leads leads) σ₀).mono read

theorem Agrees.only (held : s.arena.kind? x = some k) (listed : [(c, [])] ∈ k.runs x) (σ₀ : Bindings N) :
    s.Passes (s.arena.Free x) (fun _ => False) keeps σ₀ (s.evalWithin depth c) (s.scopedWithin depth c) :=
  agrees.final sound within stable held (Arena.mem_entered_of_runs listed (List.mem_singleton.2 rfl))
    (fun _ free => Arena.free_of_run held listed (.here free)) σ₀

theorem Agrees.condition {t e : NodeId} (held : s.arena.kind? x = some (.conditional c t e)) (σ₀ : Bindings N) :
    s.Passes (s.arena.Free x) (fun y => s.arena.Free t y ∨ s.arena.Free e y) keeps σ₀
      (s.evalWithin depth c) (s.scopedWithin depth c) := by
  have toThen : [(c, []), (t, [])] ∈ (Kind.conditional c t e).runs x := by simp [Kind.runs]
  have toElse : [(c, []), (e, [])] ∈ (Kind.conditional c t e).runs x := by simp [Kind.runs]
  have leads : s.arena.Leads x c := .of_part held (by simp)
  have steady (y : NodeId) (later : s.arena.Free t y ∨ s.arena.Free e y) : ¬ s.arena.Rebinds c y := by
    obtain later | later := later
    · exact (sound.steady within held _ toThen).1 y (.here later) (by simp)
    · exact (sound.steady within held _ toElse).1 y (.here later) (by simp)
  refine Passes.mono (agrees.before (sound.leads within leads) (stable.of_leads leads) steady σ₀) ?_
  rintro y (read | read | read)
  · exact Arena.free_of_run held toThen (.here read)
  · exact Arena.free_of_run held toThen (.later (.here read) (by simp))
  · exact Arena.free_of_run held toElse (.later (.here read) (by simp))

theorem Agrees.binding {name : String} {v next : NodeId} (held : s.arena.kind? x = some (.binding name v next))
    (u : Value N) (σ₀ : Bindings N) :
    s.Passes (fun y => s.arena.FreeIn [(next, [])] y ∧ y ∉ [x]) (fun _ => False) keeps σ₀
      (do
        Setting.bind x u
        s.evalWithin depth next)
      (restoring do
        Setting.bind x u
        s.scopedWithin depth next) := by
  have bound : x ∈ (Kind.binding name v next).binds x := List.mem_singleton.2 rfl
  apply Passes.restoring
  rintro ρ σ ⟨-, sees⟩
  exact Passes.within (agrees.final sound within stable held (by simp) fun _ free => Arena.FreeIn.here free) _ _
    (sees.insert u (sound.binds within held bound) (stable _ (.of_binds held bound) ρ u))

theorem Agrees.eval_succ (σ₀ : Bindings N) :
    s.Passes (s.arena.Free x) (fun _ => False) keeps σ₀ (s.evalWithin (depth + 1) x) (s.scopedWithin (depth + 1) x) := by
  have kept (ρ σ : Bindings N) (sees : σ = σ₀ ∧ Sees s.arena (s.arena.Free x) keeps ρ σ) :
      σ = σ₀ ∧ Sees s.arena (fun _ => False) keeps ρ σ := ⟨sees.1, sees.2.mono fun _ => False.elim⟩
  simp only [evalWithin, scopedWithin]
  refine .kind fun k held => ?_
  have first {c : NodeId} {bound : List NodeId} {rest : List (NodeId × List NodeId)}
      (listed : (c, bound) :: rest ∈ k.runs x) := agrees.first sound within stable held listed σ₀
  have next {c : NodeId} (part : c ∈ k.entered) := agrees.final sound within stable held part
    (show ∀ y, s.arena.Free c y → s.arena.FreeIn [(c, [])] y ∧ y ∉ [] from fun _ free => ⟨.here free, by simp⟩) σ₀
  cases k with
  | string | number | boolean | null => exact .pure kept
  | binary op l r =>
    exact .binary op (Faults.eq_near l) (Faults.eq_near r) (first (List.mem_singleton.2 rfl)) (next (by simp))
      fun _ _ sees => ⟨sees.1, sees.2.mono fun _ => False.elim⟩
  | conditional c t e =>
    exact .conditional (Faults.eq_near c) (agrees.condition sound within stable held σ₀)
      (agrees.final sound within stable held (by simp) (fun _ => .inl) σ₀)
      (agrees.final sound within stable held (by simp) (fun _ => .inr) σ₀)
  | binding name v next =>
    exact Tracks.bind (first (List.mem_singleton.2 rfl)) fun u => agrees.binding sound within stable held u σ₀
  | effect e next' =>
    exact Tracks.bind (Couples.wrap (fun _ => ()) (first (List.mem_singleton.2 rfl))) fun _ => next (by simp)
  | access source property =>
    refine Tracks.kind fun l _ => ?_
    cases l with
    | identifier field =>
      exact Tracks.bind (agrees.only sound within stable held (List.mem_singleton.2 rfl) σ₀) fun v =>
        .fieldOf (Faults.eq_near x) field v
    | _ => exact .throw _
  | context name => exact Tracks.mono (.found (Faults.eq_near x (.unbound x _)) _) kept fun _ _ _ sees => sees
  | reference target name =>
    apply Couples.get
    rintro ρ σ ⟨-, sees⟩
    rw [sees.target held]
    cases σ[target]? with
    | some v => exact Tracks.pure kept
    | none =>
      refine Tracks.kind fun l there => ?_
      cases l with
      | column column declared =>
        exact Tracks.mono (.columnValue rfl (Faults.eq_near x) ⟨_, rfl, rfl⟩ column) kept fun _ _ _ sees => sees
      | derived | assignment =>
        exact agrees.item sound within stable held there (by simp [Arena.code, there]) (List.mem_singleton.2 rfl) σ₀
      | _ => exact Tracks.throw _
  | invoke callee args =>
    refine Tracks.bind (agrees.args sound within stable held σ₀) fun vs => ?_
    have leads : s.arena.Leads x callee := .of_part held (by simp)
    exact agrees.call (sound.leads within leads) (stable.of_leads leads) vs σ₀
  | assignment name v | derived name v => exact agrees.only sound within stable held (List.mem_singleton.2 rfl) σ₀
  | split read writes =>
    exact Passes.restoring <| Tracks.bind (Tracks.mono (agrees.writes sound within stable held) (fun _ _ sees => sees.2)
      fun _ _ _ sees => sees) fun _ => Passes.within (agrees.final sound within stable held (by simp) fun _ free => free)
  | param => exact absurd held (sound.solid within)
  | _ => exact .throw _

theorem Agrees.callee_part (held : s.arena.kind? x = some k) (part : c ∈ k.entered)
    (read : ∀ y, s.arena.Free c y → reads y) (i : NodeId) :
    s.Arrives reads x keeps (s.calleeWithin depth i c) (s.scopedCalleeWithin depth i c) :=
  have leads := Arena.Leads.of_part held part
  (agrees.callee (sound.leads within leads) (stable.of_leads leads) i).mono read leads

theorem Agrees.callee_named {target : NodeId} {name : String}
    (held : s.arena.kind? x = some (.reference target name)) (i : NodeId) :
    s.Arrives (s.arena.Free x) x keeps (s.calleeWithin depth i target)
      (do
        unless s.arena.isBinding target do set (∅ : Bindings N)
        s.scopedCalleeWithin depth i target) := by
  intro ρ σ sees
  rw [scopedCallee_named]
  obtain ⟨shown, v, next, there, code⟩ | ⟨other, code | code⟩ := s.arena.code_cases target
  · have leads : s.arena.Leads x v := .of_name held (code ▸ List.mem_singleton.2 rfl)
    have let_ : s.arena.isBinding target = true := by simp [Arena.isBinding, there]
    rw [let_]
    exact (agrees.named there (sound.leads within leads) (stable.of_leads leads) i).mono
      (fun _ free => .named held there free) leads ρ σ sees
  · obtain ⟨fault, failed, failed'⟩ := callee_stuck code i ρ (if s.arena.isBinding target then σ else ∅)
    exact .inr ⟨fault, _, failed, Faults.of_error failed' rfl⟩
  · -- The target is entered as it stands, and reads nothing from around it.
    have self : target ∈ s.arena.code target := code ▸ List.mem_singleton.2 rfl
    have leads : s.arena.Leads x target := .of_name held self
    have sees : Sees s.arena (s.arena.Free target) keeps ρ ∅ :=
      ⟨fun y free => (sound.outside within held self y free).elim, sees.plain, .empty, sees.kept⟩
    rw [other]
    exact (agrees.callee (sound.leads within leads) (stable.of_leads leads) i).mono (fun _ free => free) leads ρ ∅ sees

theorem Agrees.callee_succ (i : NodeId) :
    s.Arrives (s.arena.Free x) x keeps (s.calleeWithin (depth + 1) i x) (s.scopedCalleeWithin (depth + 1) i x) := by
  simp only [calleeWithin, scopedCalleeWithin]
  refine .kind fun k held => ?_
  cases k with
  | function => exact .pure fun _ _ sees => ⟨.refl, sees⟩
  | reference target name => exact agrees.callee_named sound within stable held i
  | derived name v | assignment name v | binding name v next =>
    exact agrees.callee_part sound within stable held (by simp)
      (fun _ free => Arena.free_of_run held (List.mem_singleton.2 rfl) (.here free)) i
  | split read writes =>
    exact Tracks.bind (agrees.writes sound within stable held) fun _ =>
      agrees.callee_part sound within stable held (by simp) (fun _ free => free) i
  | _ => exact .throw _

theorem Agrees.call_succ (args : List (Value N)) (σ₀ : Bindings N) :
    s.Passes (s.arena.Free x) (fun _ => False) keeps σ₀
      (s.callWithin (depth + 1) x args) (s.scopedCallWithin (depth + 1) x args) := by
  simp only [callWithin, scopedCallWithin]
  refine Passes.restoring <| Tracks.bind (Tracks.mono (agrees.callee within stable x) (fun _ _ sees => sees.2)
    fun _ _ _ sees => sees) fun g => Tracks.kind fun k held => ?_
  cases k with
  | function name params body =>
    dsimp only
    by_cases count : params.length = args.length
    · rw [if_neg (not_not.2 count), if_neg (not_not.2 count)]
      rintro ρ σ ⟨reaches, sees⟩
      have within := sound.reaches within reaches
      have stable := stable.of_reaches reaches
      have sees := Sees.bound count (fun p listed => sound.binds within held listed)
        (fun p listed => stable p (.of_binds held listed))
        (sees.mono fun _ read => .body held read.1 read.2)
      rw [bind_of_ok (bindAll params args ρ), bind_of_ok (bindAll params args σ)]
      exact Passes.within (agrees.final sound within stable held (List.mem_singleton.2 rfl) fun _ free => free) _ _ sees
    · rw [if_pos count, if_pos count]
      exact .throw _
  | _ => exact .throw _

end Node

theorem agrees (sound : s.arena.Sound inside) : s.Agrees inside depth := by
  induction depth with
  | zero =>
    constructor <;> intros <;>
      simp only [evalWithin, callWithin, calleeWithin, scopedWithin, scopedCallWithin,
        scopedCalleeWithin] <;> exact .throw _
  | succ depth ih =>
    refine ⟨fun within stable => ih.eval_succ sound within stable,
      fun within stable => ih.call_succ sound within stable,
      fun within stable => ih.callee_succ sound within stable, fun there within stable i => ?_⟩
    simp only [calleeWithin, scopedCalleeWithin, kind_of_kind? there, pure_bind]
    exact ih.callee within stable i

omit [Arithmetic N] in
theorem Passes.fresh_eq {α : Type} {first second : Evaluation N α}
    (passes : s.Passes reads later (fun _ => True) ∅ first second) : fresh first = fresh second := by
  unfold fresh
  obtain ⟨v, _, ρ, σ, ran, ran', rfl, -⟩ | ⟨e, _, ρ, σ, ran, ran', rfl⟩ :=
    passes.ends ⟨rfl, fun _ _ => rfl, .empty, .empty, trivial⟩
  all_goals simp only [EStateM.run, ran, ran']

theorem fresh_call_eq (sound : s.arena.Sound inside) (within : inside x) (args : List (Value N)) :
    fresh (s.callWithin depth x args) = fresh (s.scopedCallWithin depth x args) :=
  ((agrees sound).call within (fun _ _ _ _ _ => trivial) args ∅).fresh_eq

omit [Arithmetic N] in
theorem fresh_eq_ok {α : Type} {evaluation : Evaluation N α} {v : α} :
    fresh evaluation = .ok v ↔ ∃ ρ, evaluation ∅ = .ok v ρ := by
  unfold fresh EStateM.run
  cases evaluation ∅ <;> simp

theorem evaluates_iff (sound : s.arena.Sound inside) (within : inside x) {v : Value N} :
    s.Evaluates ∅ x v ↔ ∃ n ρ, s.scopedWithin n x ∅ = .ok v ρ :=
  exists_congr fun n => by
    rw [← fresh_eq_ok, ((agrees sound).eval within (fun _ _ _ _ _ => trivial) ∅).fresh_eq, fresh_eq_ok]

theorem calls_iff (sound : s.arena.Sound inside) (within : inside x) {args : List (Value N)} {v : Value N} :
    s.Calls x args v ↔ ∃ n ρ, s.scopedCallWithin n x args ∅ = .ok v ρ :=
  exists_congr fun n => by rw [← fresh_eq_ok, fresh_call_eq sound within, fresh_eq_ok]

end Setting

end DerivedTables
