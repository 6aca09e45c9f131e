import DerivedTables.Proofs.Eval.Settled
import DerivedTables.Proofs.Tree.Grounded
import DerivedTables.Proofs.Tree.Slots

/-!
Functions have no value. What names a function through references, items and lets can be called, but
an evaluation that succeeds never comes to it.
-/

namespace DerivedTables

attribute [local simp] Kind.children

variable {N : Type}

def Kind.named : Kind → Option NodeId
  | reference target _ => some target
  | derived _ value | assignment _ value | binding _ value _ => some value
  | split read _ => some read
  | _ => none

/-- The node is a function or a name for one. -/
inductive Arena.Callable (a : Arena) : NodeId → Prop
  | function {x body : NodeId} {name : Option String} {params : List NodeId}
    (held : a.kind? x = some (.function name params body)) : Callable a x
  | through {x y : NodeId} {k : Kind} (held : a.kind? x = some k) (next : k.named = some y) (names : Callable a y) :
    Callable a x

theorem Arena.Callable.next {a : Arena} {x : NodeId} {k : Kind} (names : a.Callable x) (held : a.kind? x = some k) :
    k.isFunction = true ∨ ∃ y, k.named = some y ∧ a.Callable y := by
  cases names with
  | function held' =>
    cases held.symm.trans held'
    exact .inl rfl
  | through held' next names =>
    cases held.symm.trans held'
    exact .inr ⟨_, next, names⟩

theorem Arena.not_callable {a : Arena} {x : NodeId} {k : Kind} (held : a.kind? x = some k) (other : k.isFunction = false)
    (next : ∀ y, k.named = some y → ¬ a.Callable y) : ¬ a.Callable x := by
  intro names
  obtain function | ⟨y, leads, names⟩ := names.next held
  · cases function.symm.trans other
  · exact next y leads names

namespace Setting

/-- Whenever the evaluation succeeds, it keeps what holds of the bindings and gives what is said. -/
structure Holds {α : Type} (keeps : Bindings N → Prop) (m : Evaluation N α) (post : α → Prop) : Prop where
  run : ∀ {ρ x ρ'}, keeps ρ → m ρ = .ok x ρ' → keeps ρ' ∧ post x

namespace Holds

variable {α β : Type} {keeps : Bindings N → Prop} {m : Evaluation N α} {f : α → Evaluation N β} {mid : α → Prop}
  {post post' : β → Prop}

theorem pure {y : β} (here : post y) : Holds keeps (pure y : Evaluation N β) post := by
  refine ⟨fun kept done => ?_⟩
  cases done
  exact ⟨kept, here⟩

theorem throw (fault : Fault) : Holds keeps (throw fault : Evaluation N β) post :=
  ⟨fun _ done => by cases done⟩

theorem bind (first : Holds keeps m mid) (second : ∀ x, mid x → Holds keeps (f x) post) : Holds keeps (m >>= f) post := by
  refine ⟨fun kept done => ?_⟩
  obtain ⟨x, ρ₁, ran, done⟩ := bind_eq_ok.1 done
  obtain ⟨kept, here⟩ := first.run kept ran
  exact (second x here).run kept done

theorem mono {n : Evaluation N β} (holds : Holds keeps n post) (weaker : ∀ y, post y → post' y) : Holds keeps n post' :=
  ⟨fun kept done => (holds.run kept done).imp_right (weaker _)⟩

theorem get {f : Bindings N → Evaluation N β} (second : ∀ ρ, keeps ρ → Holds keeps (f ρ) post) :
    Holds keeps (MonadState.get >>= f) post :=
  ⟨fun kept done => (second _ kept).run kept done⟩

theorem kind {s : Setting N} {x : NodeId} {f : Kind → Evaluation N β}
    (second : ∀ k, s.arena.kind? x = some k → Holds keeps (f k) post) : Holds keeps (s.kind x >>= f) post := by
  unfold Setting.kind
  cases held : s.arena.kind? x with
  | none => exact .bind (.throw _) fun _ (impossible : False) => impossible.elim
  | some k => exact second k held

theorem forM {xs : List α} {step : α → Evaluation N PUnit} {each : α → Prop}
    (holds : ∀ x ∈ xs, Holds keeps (step x) fun _ => each x) : Holds keeps (xs.forM step) fun _ => ∀ x ∈ xs, each x := by
  induction xs with
  | nil => exact .pure (by simp)
  | cons x xs ih =>
    rw [List.forall_mem_cons] at holds
    refine holds.1.bind fun _ here => (ih holds.2).mono fun _ rest => ?_
    exact List.forall_mem_cons.2 ⟨here, rest⟩

theorem mapM {xs : List α} (holds : ∀ x ∈ xs, Holds keeps (f x) fun _ => True) : Holds keeps (xs.mapM f) fun _ => True := by
  induction xs with
  | nil => exact .pure trivial
  | cons x xs ih =>
    rw [List.forall_mem_cons] at holds
    rw [List.mapM_cons]
    exact holds.1.bind fun _ _ => (ih holds.2).bind fun _ _ => .pure trivial

theorem iff_follows {n : Evaluation N β} :
    Holds keeps n (fun _ => True) ↔ Follows (fun ρ σ => ρ = σ ∧ keeps ρ) Eq n n := by
  constructor
  · refine fun holds => Follows.of_run ?_
    rintro ρ _ ⟨rfl, kept⟩ y ρ' done
    exact ⟨y, ρ', done, rfl, rfl, (holds.run kept done).1⟩
  · refine fun follows => ⟨fun kept done => ?_⟩
    obtain ⟨_, _, _, -, -, kept⟩ := follows.run ⟨rfl, kept⟩ done
    exact ⟨kept, trivial⟩

end Holds

variable [Arithmetic N]

def Plain (s : Setting N) (ρ : Bindings N) : Prop := ∀ x v, ρ[x]? = some v → ¬ s.arena.Callable x

variable {s : Setting N} {t : Tree}

omit [Arithmetic N] in
theorem plain_empty (s : Setting N) : s.Plain ∅ := by
  intro x v found
  simp at found

omit [Arithmetic N] in
theorem bind_plain {x : NodeId} (v : Value N) (other : ¬ s.arena.Callable x) :
    Holds s.Plain (bind x v) fun _ => ¬ s.arena.Callable x := by
  refine ⟨fun {ρ _ ρ'} plain done => ?_⟩
  cases done
  refine ⟨fun y u found => ?_, other⟩
  rw [Std.TreeMap.getElem?_insert] at found
  split at found
  · rename_i same
    rwa [← show x = y by simpa using same]
  · exact plain y u found

section

variable (linked : t.Linked s.arena)
  (params : ∀ {x name ps body}, x ∈ t.ids → s.arena.kind? x = some (.function name ps body) → ∀ p ∈ ps,
    ¬ s.arena.Callable p)

include linked

theorem writes_plain {depth : Nat}
    (evals : ∀ x ∈ t.ids, Holds s.Plain (s.evalWithin depth x) fun _ => ¬ s.arena.Callable x) {x read : NodeId}
    {ws : List (String × NodeId)} (live : x ∈ t.ids) (held : s.arena.kind? x = some (.split read ws)) : Holds s.Plain
    (ws.forM fun write => do bind write.2 (← s.evalWithin depth write.2)) fun _ => ∀ write ∈ ws, ¬ s.arena.Callable
    write.2 := by
  refine .forM fun write listed => ?_
  have inside : write.2 ∈ t.ids := linked.stands.mem_of_child live held
    (List.mem_append_left _ (List.mem_map_of_mem listed))
  exact (evals write.2 inside).bind fun v other => bind_plain v other

include params

theorem plain_within (depth : Nat) : (∀ x ∈ t.ids, Holds s.Plain (s.evalWithin depth x) fun _ => ¬ s.arena.Callable x) ∧
    (∀ x ∈ t.ids, ∀ args, Holds s.Plain (s.callWithin depth x args) fun _ => True) ∧
    ∀ callee, ∀ x ∈ t.ids, Holds s.Plain (s.calleeWithin depth callee x) fun f => f ∈ t.ids ∧ s.arena.Callable x := by
  induction depth with
  | zero =>
    refine ⟨fun x _ => ?_, fun x _ args => ?_, fun callee x _ => ?_⟩
    · rw [evalWithin]
      exact .throw _
    · rw [callWithin]
      exact .throw _
    · rw [calleeWithin]
      exact .throw _
  | succ depth ih =>
    obtain ⟨evals, calls, callees⟩ := ih
    refine ⟨fun x live => ?_, fun x live args => ?_, fun callee x live => ?_⟩
    · rw [evalWithin]
      refine .kind fun k held => ?_
      have part {y : NodeId} (child : y ∈ k.children) : Holds s.Plain (s.evalWithin depth y) fun _ => ¬ s.arena.Callable y :=
        evals y (linked.stands.mem_of_child live held child)
      have idle {y : NodeId} (child : y ∈ k.children) : Holds s.Plain (s.evalWithin depth y) fun _ => True :=
        (part child).mono fun _ _ => trivial
      by_cases flat : k.isFlat = true ∧ k.named = none
      · have here := Arena.not_callable held (by cases k <;> first | rfl | cases flat.1) (by simp [flat.2])
        have whole := (evalWithin_flat held flat.1 depth).symm
        rw [evalWithin, kind_of_kind? held, pure_bind] at whole
        rw [← whole]
        refine (Holds.iff_follows.2 ?_).mono fun _ _ => here
        have same : k.Alike Eq Eq (fun _ => False) x x k := Kind.alike_self (fun _ _ => rfl) fun _ _ => rfl
        refine .flatly same flat.1 rfl (Faults.any_near x x) (fun _ => Faults.any_near _ _) ?_ ?_ fun _ => .inl fun _ _ => trivial
        · rintro c _ entered - rfl
          exact Holds.iff_follows.1 (idle (Kind.mem_children_of_entered entered))
        · rintro v p v' _ - - rfl
          exact Follows.member fun _ there => there
      cases k with
      | binding name value next =>
        refine (part (by simp)).bind fun v other => ?_
        have here := Arena.not_callable held rfl fun y leads => by cases leads; exact other
        exact (bind_plain v here).bind fun _ _ => (idle (by simp)).mono fun _ _ => here
      | reference target name =>
        refine .get fun ρ bound => ?_
        cases found : ρ[target]? with
        | some v => exact .pure (Arena.not_callable held rfl fun y leads => by cases leads; exact bound target v found)
        | none =>
          have inside : target ∈ t.ids := linked.links live held _ (by simp [Kind.links])
          have through (other : ¬ s.arena.Callable target) : ¬ s.arena.Callable x :=
            Arena.not_callable held rfl fun y leads => by cases leads; exact other
          refine .kind fun l there => ?_
          cases l with
          | column column declared =>
            have here := through (Arena.not_callable there rfl (by simp [Kind.named]))
            dsimp only
            unfold columnValue
            split
            · split
              · exact .pure here
              · exact .throw _
            · exact .throw _
          | derived shown value | assignment shown value =>
            refine (evals value (linked.stands.mem_of_child inside there (by simp))).mono fun _ other => ?_
            exact through (Arena.not_callable there rfl fun y leads => by cases leads; exact other)
          | _ => exact .throw _
      | invoke callee args =>
        have here := Arena.not_callable held rfl (by simp [Kind.named])
        refine (Holds.mapM fun arg listed => idle (by simp [Kind.children, listed])).bind fun values _ => ?_
        exact (calls callee (linked.stands.mem_of_child live held (by simp)) values).mono fun _ _ => here
      | assignment name value | derived name value =>
        exact (part (by simp)).mono fun _ other => Arena.not_callable held rfl fun y leads => by cases leads; exact other
      | split read ws =>
        refine (writes_plain linked evals live held).bind fun _ _ => (part (by simp)).mono fun _ other => ?_
        exact Arena.not_callable held rfl fun y leads => by cases leads; exact other
      | param name declared =>
        refine .get fun ρ _ => ?_
        cases ρ[x]? with
        | some v => exact .pure (Arena.not_callable held rfl (by simp [Kind.named]))
        | none => exact .throw _
      | function => exact .throw _
      | _ => exact absurd ⟨rfl, rfl⟩ flat
    · rw [callWithin]
      refine (callees x x live).bind fun f found => .kind fun k held => ?_
      cases k with
      | function name ps body =>
        dsimp only
        split
        · exact .bind (.throw _) fun _ (impossible : False) => impossible.elim
        · refine (Holds.forM fun pair listed => (bind_plain pair.2 ?_).mono fun _ _ => trivial).bind fun _ _ => ?_
          · exact params found.1 held _ (List.of_mem_zip listed).1
          exact (evals body (linked.stands.mem_of_child found.1 held (by simp))).mono fun _ _ => trivial
      | _ => exact .throw _
    · rw [calleeWithin]
      refine .kind fun k held => ?_
      have goes {y : NodeId} (next : k.named = some y) (inside : y ∈ t.ids) :
          Holds s.Plain (s.calleeWithin depth callee y) fun f => f ∈ t.ids ∧ s.arena.Callable x :=
        (callees callee y inside).mono fun _ found => ⟨found.1, .through held next found.2⟩
      cases k with
      | function => exact .pure ⟨live, .function held⟩
      | reference target shown => exact goes rfl (linked.links live held _ (by simp [Kind.links]))
      | derived | assignment | binding => exact goes rfl (linked.stands.mem_of_child live held (by simp))
      | split read ws =>
        exact (writes_plain linked evals live held).bind fun _ _ => goes rfl (linked.stands.mem_of_child live held (by simp))
      | _ => exact .throw _

variable {p halves read : NodeId} {name : String} {ws : List (String × NodeId)} {v : Value N}
  (live : p ∈ t.ids) (column : s.arena.kind? p = some (.derived name halves))
  (split : s.arena.kind? halves = some (.split read ws))

include live column split

theorem Evaluates.writes_plain (given : s.Evaluates ∅ p v) : ∀ write ∈ ws, ¬ s.arena.Callable write.2 := by
  obtain ⟨_ | _ | depth, ρ', done⟩ := given
  · simp only [evalWithin] at done
    cases done
  · simp only [evalWithin, kind_of_kind? column, pure_bind] at done
    cases done
  · simp only [evalWithin, kind_of_kind? column, kind_of_kind? split, pure_bind] at done
    obtain ⟨_, ρ₁, written, -⟩ := bind_eq_ok.1 done
    have inside := linked.stands.mem_of_child live column (List.mem_singleton_self halves)
    exact ((Setting.writes_plain linked (plain_within linked params depth).1 inside split).run (plain_empty s) written).2

theorem Calls.writes_plain {args : List (Value N)} (given : s.Calls p args v) :
    (∀ write ∈ ws, ¬ s.arena.Callable write.2) ∧ s.arena.Callable read := by
  obtain ⟨_ | depth, ρ', done⟩ := given <;> rw [callWithin] at done
  · cases done
  obtain ⟨f, ρ₁, found, -⟩ := bind_eq_ok.1 done
  obtain _ | _ | depth := depth
  · simp only [calleeWithin] at found
    cases found
  · simp only [calleeWithin, kind_of_kind? column, pure_bind] at found
    cases found
  · simp only [calleeWithin, kind_of_kind? column, kind_of_kind? split, pure_bind] at found
    obtain ⟨_, ρ₂, written, found⟩ := bind_eq_ok.1 found
    have inside := linked.stands.mem_of_child live column (List.mem_singleton_self halves)
    obtain ⟨plain, others⟩ :=
      (Setting.writes_plain linked (plain_within linked params depth).1 inside split).run (plain_empty s) written
    have read := linked.stands.mem_of_child inside split (List.mem_append_right _ (List.mem_singleton_self read))
    exact ⟨others, (((plain_within linked params depth).2.2 p _ read).run plain found).2.2⟩

end

end Setting

end DerivedTables
