import DerivedTables.Proofs.Scope.Clearing
import Mathlib.Order.Filter.AtTopBot.Basic
import Mathlib.Order.Filter.Finite

/-!
What is left of a program without the lets that only rename gives the values that the program gave.
-/

namespace DerivedTables

attribute [local simp] Kind.children

open Tree Alias

theorem eventually_of_succ {p : Nat → Prop} (later : ∀ᶠ m in Filter.atTop, p (m + 1)) : ∀ᶠ m in Filter.atTop, p m := by
  obtain ⟨n, after⟩ := Filter.eventually_atTop.1 later
  refine Filter.eventually_atTop.2 ⟨n + 1, fun m enough => ?_⟩
  obtain ⟨m, rfl⟩ := Nat.exists_eq_add_of_le' (show 1 ≤ m by omega)
  exact after m (by omega)

namespace Setting

variable {N : Type} {s : Setting N} {ρ ρ' σ τ : Bindings N} {x y r : NodeId} {v : Value N} {shown : String} {n : Nat}

theorem restoring_eq_ok {α : Type} {m : Evaluation N α} {u : α} :
    restoring m ρ = .ok u ρ' ↔ ρ' = ρ ∧ ∃ τ, m ρ = .ok u τ := by
  constructor
  · intro done
    obtain ⟨_, _, saved, done⟩ := bind_eq_ok.1 done
    cases saved
    obtain ⟨_, τ, ran, done⟩ := bind_eq_ok.1 done
    obtain ⟨_, _, put, last⟩ := bind_eq_ok.1 done
    cases put
    cases last
    exact ⟨rfl, τ, ran⟩
  · rintro ⟨rfl, τ, ran⟩
    exact (bind_of_ok (m := MonadState.get) rfl).trans ((bind_of_ok ran).trans (bind_of_ok rfl))

theorem columnValue_eq_ok {name column : String} (done : s.columnValue x name column ρ = .ok v ρ') :
    ρ' = ρ ∧ ∃ fields, s.context.lookup "row" = some (.object fields) ∧ fields.lookup column = some v := by
  rw [columnValue] at done
  cases row : s.context.lookup "row" with
  | none =>
    rw [row] at done
    cases done
  | some value =>
    rw [row] at done
    cases value with
    | object fields =>
      simp only at done
      cases given : fields.lookup column with
      | none =>
        rw [given] at done
        cases done
      | some value =>
        rw [given] at done
        cases done
        exact ⟨rfl, fields, rfl, given⟩
    | _ => cases done

def IsItemOf (k : Kind) (value : NodeId) : Prop := ∃ name, k = .derived name value ∨ k = .assignment name value

variable [Arithmetic N]

inductive Reads (s : Setting N) (σ : Bindings N) (r : NodeId) (v : Value N) : Prop
  | bound (found : σ[r]? = some v)
  | column {name : String} {declared : Ty} {fields : List (String × Value N)} (missing : σ[r]? = none)
    (held : s.arena.kind? r = some (.column name declared)) (row : s.context.lookup "row" = some (.object fields))
    (given : fields.lookup name = some v)
  | item {k : Kind} {value : NodeId} (missing : σ[r]? = none) (held : s.arena.kind? r = some k) (item : IsItemOf k value)
    (gives : ∀ᶠ m in Filter.atTop, s.scopedWithin m value ∅ = .ok v ∅)

theorem Reads.congr (reads : s.Reads σ r v) (same : τ[r]? = σ[r]?) : s.Reads τ r v := by
  cases reads with
  | bound found => exact .bound (same.trans found)
  | column missing held row given => exact .column (same.trans missing) held row given
  | item missing held item gives => exact .item (same.trans missing) held item gives

theorem Reads.eval (reads : s.Reads σ r v) (held : s.arena.kind? x = some (.reference r shown)) :
    ∀ᶠ m in Filter.atTop, s.scopedWithin m x σ = .ok v σ := by
  apply eventually_of_succ
  simp only [scopedWithin, kind_of_kind? held, pure_bind]
  cases reads with
  | bound found =>
    filter_upwards with m
    refine (bind_of_ok (m := MonadState.get) rfl).trans ?_
    rw [found]
    rfl
  | column missing there row given =>
    filter_upwards with m
    refine (bind_of_ok (m := MonadState.get) rfl).trans ?_
    rw [missing]
    simp only [kind_of_kind? there, pure_bind, columnValue, row, given]
    rfl
  | item missing there item gives =>
    filter_upwards [gives] with m done
    refine (bind_of_ok (m := MonadState.get) rfl).trans ?_
    rw [missing]
    have again : restoring (do set (∅ : Bindings N); s.scopedWithin m _) σ = .ok v σ :=
      restoring_eq_ok.2 ⟨rfl, ∅, done⟩
    obtain ⟨name, rfl | rfl⟩ := item <;> simpa only [kind_of_kind? there, pure_bind] using again

theorem reference_eq_ok (held : s.arena.kind? x = some (.reference y shown))
    (done : s.scopedWithin (n + 1) x ρ = .ok v ρ') :
    ρ' = ρ ∧ (ρ[y]? = some v ∨
      (∃ name declared fields, s.arena.kind? y = some (.column name declared) ∧
        s.context.lookup "row" = some (.object fields) ∧ fields.lookup name = some v) ∨
      ∃ k value τ, s.arena.kind? y = some k ∧ IsItemOf k value ∧ s.scopedWithin n value ∅ = .ok v τ) := by
  simp only [scopedWithin, kind_of_kind? held, pure_bind] at done
  obtain ⟨_, _, first, done⟩ := bind_eq_ok.1 done
  cases first
  cases found : ρ[y]? with
  | some value =>
    rw [found] at done
    cases done
    exact ⟨rfl, .inl rfl⟩
  | none =>
    rw [found] at done
    obtain ⟨k, _, ran, done⟩ := bind_eq_ok.1 done
    cases there : s.arena.kind? y with
    | none => simp [kind_of_none there] at ran; cases ran
    | some k' =>
      rw [kind_of_kind? there] at ran
      cases ran
      cases k with
      | column name declared =>
        obtain ⟨rfl, fields, row, given⟩ := columnValue_eq_ok done
        exact ⟨rfl, .inr (.inl ⟨name, declared, fields, rfl, row, given⟩)⟩
      | derived name value =>
        obtain ⟨rfl, τ, ran⟩ := restoring_eq_ok.1 done
        exact ⟨rfl, .inr (.inr ⟨_, value, τ, rfl, ⟨name, .inl rfl⟩, ran⟩)⟩
      | assignment name value =>
        obtain ⟨rfl, τ, ran⟩ := restoring_eq_ok.1 done
        exact ⟨rfl, .inr (.inr ⟨_, value, τ, rfl, ⟨name, .inr rfl⟩, ran⟩)⟩
      | _ => cases done

end Setting

namespace Arena

/-- A call of the node leads to a function. -/
inductive NamesFunction (a : Arena) : NodeId → Prop
  | function {x body : NodeId} {name : Option String} {params : List NodeId}
    (held : a.kind? x = some (.function name params body)) : NamesFunction a x
  | reference {x target : NodeId} {shown : String} (held : a.kind? x = some (.reference target shown))
    (there : NamesFunction a target) : NamesFunction a x
  | derived {x value : NodeId} {name : String} (held : a.kind? x = some (.derived name value))
    (there : NamesFunction a value) : NamesFunction a x
  | assignment {x value : NodeId} {name : String} (held : a.kind? x = some (.assignment name value))
    (there : NamesFunction a value) : NamesFunction a x
  | binding {x value next : NodeId} {name : String} (held : a.kind? x = some (.binding name value next))
    (there : NamesFunction a value) : NamesFunction a x

def mayName (a : Arena) : Nat → NodeId → Bool
  | 0, _ => true
  | n + 1, x =>
    match a.kind? x with
    | some (.function ..) => true
    | some (.reference target _) => a.mayName n target
    | some (.derived _ value) | some (.assignment _ value) | some (.binding _ value _) => a.mayName n value
    | _ => false

theorem NamesFunction.mayName {a : Arena} {x : NodeId} (names : a.NamesFunction x) (n : Nat) : a.mayName n x = true := by
  induction names generalizing n with
  | function held =>
    cases n with
    | zero => rfl
    | succ n => simp [Arena.mayName, held]
  | reference held _ ih | derived held _ ih | assignment held _ ih | binding held _ ih =>
    cases n with
    | zero => rfl
    | succ n => simp [Arena.mayName, held, ih n]

theorem Covers.child {a : Arena} {x y z c : NodeId} {k : Kind} (covers : a.Covers z y x) (held : a.kind? x = some k)
    (child : c ∈ k.children) : a.Covers z y c := by
  obtain ⟨l, s, there, bound, shown, stands, inside⟩ := covers
  refine ⟨l, s, there, bound, shown, stands, ?_⟩
  rw [ids_eq]
  exact .tail _ (stands.child_mem inside held child)

end Arena

namespace Setting

variable {N : Type} [Arithmetic N] {s : Setting N}

theorem namesFunction_of_callee {t : Tree} (sighted : t.Sighted s.arena) {n : Nat} {i x f : NodeId} {ρ ρ' : Bindings N}
    (live : x ∈ t.ids) (done : s.scopedCalleeWithin n i x ρ = .ok f ρ') : s.arena.NamesFunction x := by
  induction n generalizing i x ρ with
  | zero =>
    rw [scopedCalleeWithin] at done
    cases done
  | succ n ih =>
    cases held : s.arena.kind? x with
    | none =>
      rw [scopedCalleeWithin, kind_of_none held] at done
      cases done
    | some k =>
      simp only [scopedCalleeWithin, kind_of_kind? held, pure_bind] at done
      have part {c : NodeId} := sighted.child_mem (c := c) live held
      cases k with
      | function => exact .function held
      | reference target =>
        exact .reference held (ih (sighted.links live held target (by simp [Kind.links]))
          ((scopedCallee_named target i ρ).symm.trans done))
      | derived => exact .derived held (ih (part (by simp)) done)
      | assignment => exact .assignment held (ih (part (by simp)) done)
      | binding => exact .binding held (ih (part (by simp)) done)
      | split => exact absurd rfl (sighted.layered.unsplit live held)
      | _ => cases done

end Setting

section

variable {N : Type} {a b : Arena} {t t' : Tree} {context : List (String × Value N)}
  {x y c : NodeId} {k : Kind} {ρ σ : Bindings N} {n : Nat}

structure Matches [Arithmetic N] (a b : Arena) (t : Tree) (context : List (String × Value N)) (x : NodeId) (ρ σ : Bindings N) : Prop where
  around : ∀ {y}, σ[y]? ≠ none → ∃ z ∈ t.ids, a.Covers z y x
  reads : ∀ {y v r}, ρ[y]? = some v → a.StandsFor y r → (Setting.mk b context).Reads σ r v

variable [Arithmetic N]

theorem Matches.empty : Matches a b t context x ∅ ∅ where
  around bound := absurd Std.TreeMap.getElem?_emptyc bound
  reads found := by
    rw [Std.TreeMap.getElem?_emptyc] at found
    cases found

theorem Matches.child (same : Matches a b t context x ρ σ) (held : a.kind? x = some k) (child : c ∈ k.children) :
    Matches a b t context c ρ σ where
  around bound := by
    obtain ⟨z, live, covers⟩ := same.around bound
    exact ⟨z, live, covers.child held child⟩
  reads := same.reads

omit [Arithmetic N] in
theorem eventually_follows {α : Type} {first : Evaluation N α} {second : Nat → Evaluation N α}
    (given : ∀ v ρ', first ρ = .ok v ρ' → ρ' = ρ ∧ ∀ᶠ m in Filter.atTop, second m σ = .ok v σ) :
    ∀ᶠ m in Filter.atTop, Follows (At ρ σ) Eq first (second m) := by
  cases done : first ρ with
  | error fault ρ' =>
    filter_upwards with m
    refine .at_intro fun v ρ'' done' => ?_
    cases done.symm.trans done'
  | ok v ρ' =>
    obtain ⟨rfl, later⟩ := given v ρ' done
    filter_upwards [later] with m done'
    refine .at_intro fun v' ρ'' again => ?_
    cases done.symm.trans again
    exact ⟨rfl, done'⟩

theorem eventually_forall₂ {α β : Type} {p : Nat → α → β → Prop} {xs : List α} {ys : List β} (each : List.Forall₂ (fun x
    y => ∀ᶠ m in Filter.atTop, p m x y) xs ys) : ∀ᶠ m in Filter.atTop, List.Forall₂ (p m) xs ys := by
  induction each with
  | nil => exact .of_forall fun m => .nil
  | cons here _ ih =>
    filter_upwards [here, ih] with m first rest
    exact .cons first rest

namespace Clearing

variable (clearing : Clearing a b t t')
include clearing

theorem not_around {z : NodeId} (inside : x ∈ t.ids) (held : a.kind? x = some k) (bound : y ∈ k.binds x) (live : z ∈ t.ids) :
    ¬ a.Covers z y x := by
  rintro ⟨l, s, there, bound', shown, stands, within⟩
  obtain rfl := clearing.sighted.binder_unique inside live held there bound bound'
  cases held.symm.trans there
  have once : s.ids.Nodup := (clearing.entire.stands.sublist_within stands
    (clearing.sighted.child_mem inside held (Kind.mem_children_of_scope shown))).nodup clearing.entire.once
  exact stands.not_above once within held (Kind.mem_children_of_scope shown)

theorem enter {ρ' σ' : Bindings N} (same : Matches a b t context x ρ σ) (inside : x ∈ t.ids) (held : a.kind? x = some k)
    (scope : k.scope = some c)
    (binders : ∀ y ∈ k.binds x, a.alias? y = none ∧ ∀ l, b.kind? y = some l → l.isGlobal = false)
    (off : ∀ y ∉ k.binds x, ρ'[y]? = ρ[y]? ∧ σ'[y]? = σ[y]?) (on : ∀ y ∈ k.binds x, ρ'[y]? = σ'[y]?) :
    Matches a b t context c ρ' σ' where
  around {y} bound := by
    have child := Kind.mem_children_of_scope scope
    by_cases here : y ∈ k.binds x
    · obtain ⟨s, rfl, standing, -⟩ := clearing.entire.stands.tree_at (clearing.sighted.child_mem inside held child)
      exact ⟨x, inside, k, s, held, here, scope, standing, s.id_mem_ids⟩
    · obtain ⟨z, live, covers⟩ := same.around ((off y here).2 ▸ bound)
      exact ⟨z, live, covers.child held child⟩
  reads {y v r} found stands := by
    by_cases here : y ∈ k.binds x
    · obtain rfl := stands.eq_self (binders y here).1
      exact .bound (on r here ▸ found)
    · have reads := same.reads ((off y here).1 ▸ found) stands
      refine reads.congr (off r fun bound => ?_).2
      -- What can be read around the node is none of what the node binds.
      cases reads with
      | bound found' =>
        obtain ⟨z, live, covers⟩ := same.around (y := r) (by simp [found'])
        exact clearing.not_around inside held bound live covers
      | column _ there => cases (binders r bound).2 _ there
      | item _ there item =>
        obtain ⟨name, rfl | rfl⟩ := item <;> cases (binders r bound).2 _ there

omit [Arithmetic N] in
theorem global_unbound (around : ∀ {y}, σ[y]? ≠ none → ∃ z ∈ t.ids, a.Covers z y x) (held : a.kind? y = some k)
    (global : k.isGlobal = true) : σ[y]? = none := by
  by_contra bound
  obtain ⟨z, live, l, s, there, binds, -⟩ := around bound
  cases global.symm.trans (clearing.sighted.bound_local live there binds k held)

end Clearing

abbrev GoesAlong (a b : Arena) (context : List (String × Value N)) (n : Nat) (ρ σ : Bindings N) (x x' : NodeId) : Prop :=
  ∀ᶠ m in Filter.atTop,
    Follows (At ρ σ) Eq ((Setting.mk a context).scopedWithin n x) ((Setting.mk b context).scopedWithin m x')

structure Clearing.Keeps [Arithmetic N] (a b : Arena) (t t' : Tree) (context : List (String × Value N)) (n : Nat) : Prop where
  eval : ∀ {x x' : NodeId} {ρ σ : Bindings N}, x ∈ t.ids → a.Remains x x' → x' ∈ t'.ids → Matches a b t context x ρ σ →
    GoesAlong a b context n ρ σ x x'
  -- A reference that goes with its let is not evaluated any more, but read where the let was named.
  reads : ∀ {x y : NodeId} {shown : String} {ρ ρ' σ : Bindings N} {v : Value N}, x ∈ t.ids →
    a.kind? x = some (.reference y shown) → Matches a b t context x ρ σ →
    (Setting.mk a context).scopedWithin n x ρ = .ok v ρ' →
    ρ' = ρ ∧ ∀ {r}, a.StandsFor y r → (Setting.mk b context).Reads σ r v
  call : ∀ {x x' : NodeId} {ρ σ : Bindings N} (args : List (Value N)), x ∈ t.ids → a.Remains x x' → x' ∈ t'.ids →
    Matches a b t context x ρ σ → ∀ᶠ m in Filter.atTop,
      Follows (At ρ σ) Eq ((Setting.mk a context).scopedCallWithin n x args) ((Setting.mk b context).scopedCallWithin m x' args)
  callee : ∀ {x x' f i j : NodeId} {ρ ρ' σ : Bindings N}, x ∈ t.ids → a.Remains x x' → x' ∈ t'.ids →
    Matches a b t context x ρ σ → (Setting.mk a context).scopedCalleeWithin n i x ρ = .ok f ρ' →
    ∃ σ', (∀ᶠ m in Filter.atTop, (Setting.mk b context).scopedCalleeWithin m j x' σ = .ok f σ') ∧
      f ∈ t.ids ∧ f ∈ t'.ids ∧ Matches a b t context f ρ' σ'

namespace Clearing

variable (clearing : Clearing a b t t') (keeps : Keeps a b t t' context n)
include clearing keeps

theorem reads_succ {shown : String} {ρ' : Bindings N} {v : Value N} (inside : x ∈ t.ids)
    (held : a.kind? x = some (.reference y shown)) (same : Matches a b t context x ρ σ)
    (done : (Setting.mk a context).scopedWithin (n + 1) x ρ = .ok v ρ') :
    ρ' = ρ ∧ ∀ {r}, a.StandsFor y r → (Setting.mk b context).Reads σ r v := by
  obtain ⟨rfl, given⟩ := Setting.reference_eq_ok (s := ⟨a, context⟩) held done
  refine ⟨rfl, fun {r} stands => ?_⟩
  have live := clearing.sighted.links inside held y (by simp [Kind.links])
  obtain found | ⟨name, declared, fields, there, row, given⟩ | ⟨k, value, τ, there, item, ran⟩ := given
  · exact same.reads found stands
  · have other := Arena.alias?_of_other there (by simp)
    obtain rfl := stands.eq_self other
    have left := clearing.cleared.mem_ids clearing.entire.stands live there (by simp) other
    obtain ⟨l, there', filled, parts, rfl⟩ := clearing.refilled left there (by simp)
    obtain ⟨⟩ := parts
    exact .column (clearing.global_unbound same.around there rfl) there' row given
  · have item' : (∀ target shown, k ≠ .reference target shown) ∧ (∀ name value next, k ≠ .binding name value next) ∧
        k.isGlobal = true ∧ k.children = [value] := by
      obtain ⟨name, rfl | rfl⟩ := item <;> simp [Kind.isGlobal, Kind.children]
    obtain ⟨noReference, noLet, global, only⟩ := item'
    have other := Arena.alias?_of_other there noLet
    obtain rfl := stands.eq_self other
    have left := clearing.cleared.mem_ids clearing.entire.stands live there noReference other
    obtain ⟨l, there', filled, parts, rfl⟩ := clearing.refilled left there noReference
    rw [only] at parts
    obtain _ | ⟨remains, ⟨⟩⟩ := parts
    rename_i value'
    have item' : Setting.IsItemOf (k.withChildren [value']) value' := by
      obtain ⟨name, rfl | rfl⟩ := item
      · exact ⟨name, .inl rfl⟩
      · exact ⟨name, .inr rfl⟩
    have child' : value' ∈ (k.withChildren [value']).children := by
      rw [Kind.children_withChildren _ _ (only ▸ rfl)]
      simp
    refine .item (clearing.global_unbound same.around there global) there' item' ?_
    have along := keeps.eval (clearing.sighted.child_mem live there (only ▸ .head _)) remains
      (clearing.sighted'.child_mem left there' child') .empty
    filter_upwards [along] with m follows
    exact (follows.at_elim ran).2

theorem eval_skipped {x' target next : NodeId} (inside : x ∈ t.ids) (renames : a.alias? x = some (target, next))
    (remains : a.Remains next x') (left : x' ∈ t'.ids) (same : Matches a b t context x ρ σ) :
    GoesAlong a b context (n + 1) ρ σ x x' := by
  obtain ⟨name, value, shown, held, named⟩ := Arena.alias?_eq_some renames
  refine eventually_follows fun v ρ' done => ?_
  simp only [Setting.scopedWithin, Setting.kind_of_kind? (s := ⟨a, context⟩) held, pure_bind] at done
  obtain ⟨u, _, ran, rest⟩ := bind_eq_ok.1 done
  obtain ⟨rfl, τ, last⟩ := Setting.restoring_eq_ok.1 rest
  have within {c : NodeId} (child : c ∈ (Kind.binding name value next).children) : c ∈ t.ids :=
    clearing.sighted.child_mem inside held child
  obtain ⟨rfl, reads⟩ := keeps.reads (within (by simp)) named (same.child held (by simp)) ran
  have same' : Matches a b t context next (ρ'.insert x u) σ := by
    refine ⟨(same.child held (by simp)).around, fun {y w r} found stands => ?_⟩
    rw [Std.TreeMap.getElem?_insert] at found
    split at found
    · rename_i here
      obtain rfl := Std.LawfulEqCmp.compare_eq_iff_eq.1 here
      cases found
      cases stands with
      | self other => cases other.symm.trans renames
      | through renames' further =>
        cases renames.symm.trans renames'
        exact reads further
    · exact same.reads found stands
  have last : (Setting.mk a context).scopedWithin n next (ρ'.insert x u) = .ok v τ := last
  refine ⟨rfl, ?_⟩
  filter_upwards [keeps.eval (within (by simp)) remains left same'] with m follows
  exact (follows.at_elim last).2

theorem eval_kept (inside : x ∈ t.ids) (left : x ∈ t'.ids) (held : a.kind? x = some k) (plain : ∀ target shown, k ≠
    .reference target shown) (same : Matches a b t context x ρ σ) : GoesAlong a b context (n + 1) ρ σ x x := by
  obtain ⟨l, held', refilled⟩ := clearing.refilled left held plain
  have alike := clearing.resembles inside held plain refilled
  have part {c c' : NodeId} (child : c ∈ k.children) (child' : c' ∈ l.children) (remains : a.Remains c c') :
      GoesAlong a b context n ρ σ c c' :=
    keeps.eval (clearing.sighted.child_mem inside held child) remains (clearing.sighted'.child_mem left held' child')
      (same.child held child)
  apply eventually_of_succ
  by_cases flat : k.isFlat = true ∧ l.isFlat = true
  · have parts : ∀ᶠ m in Filter.atTop, ∀ c ∈ k.children, ∀ c' ∈ l.children, a.Remains c c' →
        Follows (At ρ σ) Eq ((Setting.mk a context).scopedWithin n c) ((Setting.mk b context).scopedWithin m c') := by
      simp only [← List.mem_toFinset, Filter.eventually_all_finset, Filter.eventually_imp_distrib_left]
      exact fun c child c' child' => part (List.mem_toFinset.1 child) (List.mem_toFinset.1 child')
    filter_upwards [parts] with m parts
    rw [Setting.scopedWithin_flat (s := ⟨a, context⟩) held flat.1, Setting.scopedWithin_flat (s := ⟨b, context⟩) held' flat.2]
    refine .flatly alike flat.1 rfl (Faults.any_near x x) (fun _ => Faults.any_near _ _) (fun entered entered' => ?_) ?_
      fun _ => .inl fun _ _ => trivial
    · exact parts _ (Kind.mem_children_of_entered entered) _ (Kind.mem_children_of_entered entered')
    · rintro v p v' p' rfl rfl property
      refine Follows.member fun field there => ?_
      obtain rfl := (Arena.Remains.kept (Arena.alias?_of_other there (by simp))).unique property
      have left' := clearing.sighted'.child_mem left held' (c := p) (by simp)
      obtain ⟨_, there', _, parts, rfl⟩ := clearing.refilled left' there (by simp)
      obtain ⟨⟩ := parts
      exact there'
  simp only [Setting.scopedWithin, Setting.kind_of_kind? (s := ⟨a, context⟩) held,
    Setting.kind_of_kind? (s := ⟨b, context⟩) held', pure_bind]
  cases alike with
  | function => exact .of_forall fun m => Follows.throw
  | inert _ inert => exact .of_forall fun m => by cases k <;> first | exact Follows.throw | cases inert
  | handed _ _ idle => exact idle.elim
  | split => exact absurd rfl (clearing.sighted.layered.unsplit inside held)
  | reference => exact absurd rfl (plain _ _)
  | param name =>
    refine .of_forall fun m => Follows.at_intro fun v ρ' done => ?_
    obtain ⟨_, _, first, done⟩ := bind_eq_ok.1 done
    cases first
    cases found : ρ[x]? with
    | none =>
      rw [found] at done
      cases done
    | some value =>
      rw [found] at done
      cases done
      have reads := same.reads found (.self (Arena.alias?_of_other held (by simp)))
      cases reads with
      | bound found' => exact ⟨rfl, (bind_of_ok (m := MonadState.get) rfl).trans (by rw [found']; rfl)⟩
      | column _ there => cases held'.symm.trans there
      | item _ there item => obtain ⟨_, rfl | rfl⟩ := item <;> cases held'.symm.trans there
  | @binding _ _ v v' next next' _ value rest =>
    have first := part (by simp) (by simp) value
    refine eventually_follows fun w ρ' done => ?_
    obtain ⟨u, _, ran, done⟩ := bind_eq_ok.1 done
    obtain ⟨rfl, τ, last⟩ := Setting.restoring_eq_ok.1 done
    obtain ⟨_, follows⟩ := first.exists
    obtain ⟨rfl, -⟩ := follows.at_elim ran
    have same' : Matches a b t context next (ρ'.insert x u) (σ.insert x u) := by
      refine clearing.enter same inside held rfl ?_ (fun y apart => ?_) fun y here => ?_
      · intro y here
        obtain rfl := List.mem_singleton.1 here
        refine ⟨clearing.cleared.not_alias clearing.entire.stands left, fun l there => ?_⟩
        cases held'.symm.trans there
        rfl
      · have other : ¬ compare x y = .eq := fun same =>
          apart (List.mem_singleton.2 (Std.LawfulEqCmp.compare_eq_iff_eq.1 same).symm)
        simp [Std.TreeMap.getElem?_insert, other]
      · obtain rfl := List.mem_singleton.1 here
        simp
    have second := keeps.eval (clearing.sighted.child_mem inside held (by simp)) rest
      (clearing.sighted'.child_mem left held' (by simp)) same'
    refine ⟨rfl, ?_⟩
    filter_upwards [first, second] with m before after
    have last : (Setting.mk a context).scopedWithin n next (ρ'.insert x u) = .ok w τ := last
    exact (bind_of_ok (before.at_elim ran).2).trans (Setting.restoring_eq_ok.2 ⟨rfl, _, (after.at_elim last).2⟩)
  | @invoke f f' args args' callee given =>
    have first := eventually_forall₂ (List.forall₂_iff_zip.2 ⟨given.length_eq, fun {c c'} pair =>
      part (.tail _ (List.of_mem_zip pair).1) (.tail _ (List.of_mem_zip pair).2)
        ((List.forall₂_iff_zip.1 given).2 pair)⟩)
    refine eventually_follows fun w ρ' done => ?_
    obtain ⟨vs, _, ran, last⟩ := bind_eq_ok.1 done
    obtain ⟨_, each⟩ := first.exists
    obtain ⟨rfl, -⟩ := Follows.at_elim (.mapM each) ran
    have second := keeps.call vs (clearing.sighted.child_mem inside held (by simp)) callee
      (clearing.sighted'.child_mem left held' (by simp)) (same.child held (by simp))
    obtain ⟨_, follows⟩ := second.exists
    refine ⟨(follows.at_elim last).1, ?_⟩
    filter_upwards [first, second] with m before after
    exact (bind_of_ok (Follows.at_elim (.mapM before) ran).2).trans (after.at_elim last).2
  | _ => exact absurd ⟨rfl, rfl⟩ flat

theorem eval_succ {x' : NodeId} (inside : x ∈ t.ids) (remains : a.Remains x x') (left : x' ∈ t'.ids)
    (same : Matches a b t context x ρ σ) : GoesAlong a b context (n + 1) ρ σ x x' := by
  cases remains with
  | skip renames follows => exact clearing.eval_skipped keeps inside renames follows left same
  | kept =>
    obtain ⟨k, held⟩ := Arena.exists_kind?_of_lt (clearing.entire.stands.lt_size x inside)
    by_cases named : ∃ target shown, k = .reference target shown
    · obtain ⟨target, shown, rfl⟩ := named
      obtain ⟨r, shown', held', stands⟩ := clearing.reference left held
      refine eventually_follows fun v ρ' done => ?_
      obtain ⟨rfl, reads⟩ := clearing.reads_succ keeps inside held same done
      exact ⟨rfl, (reads stands).eval (s := ⟨b, context⟩) held'⟩
    · exact clearing.eval_kept keeps inside left held (fun target shown same => named ⟨target, shown, same⟩) same

theorem call_succ {x' : NodeId} (args : List (Value N)) (inside : x ∈ t.ids) (remains : a.Remains x x')
    (left : x' ∈ t'.ids) (same : Matches a b t context x ρ σ) : ∀ᶠ m in Filter.atTop, Follows (At ρ σ) Eq
    ((Setting.mk a context).scopedCallWithin (n + 1) x args) ((Setting.mk b context).scopedCallWithin m x' args) := by
  refine eventually_follows fun v ρ' done => ?_
  rw [Setting.scopedCallWithin] at done
  obtain ⟨rfl, τ, done⟩ := Setting.restoring_eq_ok.1 done
  obtain ⟨f, ρ₁, ran, done⟩ := bind_eq_ok.1 done
  obtain ⟨σ₁, ran', live, left', same'⟩ := keeps.callee (j := x') inside remains left same ran
  obtain ⟨k, held⟩ := Arena.exists_kind?_of_lt (clearing.entire.stands.lt_size f live)
  rw [Setting.kind_of_kind? (s := ⟨a, context⟩) held, pure_bind] at done
  cases k with
  | function name params body =>
    obtain ⟨l, held', refilled⟩ := clearing.refilled left' held (by simp)
    have alike := clearing.resembles live held (by simp) refilled
    cases alike with
    | @function _ _ _ _ _ body' fixed inner =>
      obtain rfl : params = _ := List.forall₂_eq_eq_eq ▸ fixed
      by_cases count : params.length = args.length
      · simp only [count, ne_eq, not_true_eq_false, if_false] at done
        rw [bind_of_ok (Setting.bindAll params args ρ₁)] at done
        have entered : Matches a b t context body (Setting.bound params args ρ₁) (Setting.bound params args σ₁) := by
          refine clearing.enter same' live held rfl (fun p param => ?_) (fun y apart => ?_) fun p param => ?_
          · obtain ⟨_, _, there⟩ := clearing.sighted.params live held p param
            obtain ⟨_, _, there'⟩ := clearing.sighted'.params left' held' p param
            refine ⟨Arena.alias?_of_other there (by simp), fun l again => ?_⟩
            cases there'.symm.trans again
            rfl
          · exact ⟨Setting.bound_of_not_mem apart, Setting.bound_of_not_mem apart⟩
          · exact bound_agree count fun apart => absurd param apart
        have second := keeps.eval (clearing.sighted.child_mem live held (by simp)) inner
          (clearing.sighted'.child_mem left' held' (by simp)) entered
        refine ⟨rfl, eventually_of_succ ?_⟩
        filter_upwards [ran', second] with m called follows
        rw [Setting.scopedCallWithin]
        refine Setting.restoring_eq_ok.2 ⟨rfl, Setting.bound params args σ₁, (bind_of_ok called).trans ?_⟩
        rw [Setting.kind_of_kind? (s := ⟨b, context⟩) held', pure_bind]
        simp only [count, ne_eq, not_true_eq_false, if_false]
        rw [bind_of_ok (Setting.bindAll params args σ₁)]
        exact (follows.at_elim done).2
      · simp only [count, ne_eq, not_false_eq_true, if_true] at done
        cases done
    | inert _ inert => cases inert
  | _ => cases done

/-- A callee never leads through a let, so it is still there and leads to the function that it led to. -/
theorem callee_succ (unnamed : ∀ x ∈ t.ids, ∀ name value next, a.kind? x = some (.binding name value next) →
      ¬ a.NamesFunction value) {x' f i j : NodeId} {ρ' : Bindings N} (inside : x ∈ t.ids) (remains : a.Remains x x')
    (left : x' ∈ t'.ids) (same : Matches a b t context x ρ σ)
    (done : (Setting.mk a context).scopedCalleeWithin (n + 1) i x ρ = .ok f ρ') :
    ∃ σ', (∀ᶠ m in Filter.atTop, (Setting.mk b context).scopedCalleeWithin m j x' σ = .ok f σ') ∧
      f ∈ t.ids ∧ f ∈ t'.ids ∧ Matches a b t context f ρ' σ' := by
  have solid {y : NodeId} (live : y ∈ t.ids) (names : a.NamesFunction y) : a.isBinding y = false ∧ a.alias? y = none := by
    obtain ⟨k, held⟩ := Arena.exists_kind?_of_lt (clearing.entire.stands.lt_size y live)
    have other (name : String) (value next : NodeId) : k ≠ .binding name value next := by
      rintro rfl
      cases names with
      | binding again there =>
        cases held.symm.trans again
        exact unnamed y live _ _ _ held there
      | function again | reference again | derived again | assignment again => cases held.symm.trans again
    refine ⟨?_, Arena.alias?_of_other held other⟩
    rw [Arena.isBinding_eq held]
    cases k <;> first | rfl | exact absurd rfl (other _ _ _)
  have names := Setting.namesFunction_of_callee (s := ⟨a, context⟩) clearing.sighted inside done
  obtain rfl := (Arena.Remains.kept (solid inside names).2).unique remains
  have part {value : NodeId} {k : Kind} (held : a.kind? x = some k) (only : k.children = [value])
      (noReference : ∀ target shown, k ≠ .reference target shown)
      (rest : (Setting.mk a context).scopedCalleeWithin n i value ρ = .ok f ρ') :
      ∃ value' σ', b.kind? x = some (k.withChildren [value']) ∧
        (∀ᶠ m in Filter.atTop, (Setting.mk b context).scopedCalleeWithin m j value' σ = .ok f σ') ∧
        f ∈ t.ids ∧ f ∈ t'.ids ∧ Matches a b t context f ρ' σ' := by
    obtain ⟨l, held', filled, parts, rfl⟩ := clearing.refilled left held noReference
    rw [only] at parts
    obtain _ | ⟨remains, ⟨⟩⟩ := parts
    rename_i value'
    have child' : value' ∈ (k.withChildren [value']).children := by
      rw [Kind.children_withChildren _ _ (only ▸ rfl)]
      simp
    obtain ⟨σ', rest'⟩ := keeps.callee (j := j) (clearing.sighted.child_mem inside held (only ▸ .head _)) remains
      (clearing.sighted'.child_mem left held' child') (same.child held (only ▸ .head _)) rest
    exact ⟨value', σ', held', rest'⟩
  cases names with
  | function held =>
    simp only [Setting.scopedCalleeWithin, Setting.kind_of_kind? (s := ⟨a, context⟩) held, pure_bind] at done
    cases done
    obtain ⟨l, held', filled, parts, rfl⟩ := clearing.refilled left held (by simp)
    refine ⟨σ, eventually_of_succ (.of_forall fun m => ?_), inside, left, same⟩
    simp only [Setting.scopedCalleeWithin, Setting.kind_of_kind? (s := ⟨b, context⟩) held', pure_bind, Kind.withChildren]
    rfl
  | @reference _ target _ held there =>
    simp only [Setting.scopedCalleeWithin, Setting.kind_of_kind? (s := ⟨a, context⟩) held, pure_bind] at done
    have done := (Setting.scopedCallee_named (s := ⟨a, context⟩) target i ρ).symm.trans done
    have live := clearing.sighted.links inside held target (by simp [Kind.links])
    obtain ⟨noLet, other⟩ := solid live there
    obtain ⟨r, shown', held', stands⟩ := clearing.reference left held
    obtain rfl := stands.eq_self other
    have left' := clearing.sighted'.links left held' r (by simp [Kind.links])
    have noLet' : b.isBinding r = false := by
      obtain ⟨k, l, -, before, after, became⟩ := clearing.became left'
      rw [Arena.isBinding_eq before] at noLet
      rw [Arena.isBinding_eq after]
      cases became with
      | reference => rfl
      | node => rwa [Kind.isLet_withChildren]
    rw [noLet] at done
    obtain ⟨σ', ran, rest⟩ := keeps.callee (j := j) live (.kept other) left' .empty done
    refine ⟨σ', eventually_of_succ ?_, rest⟩
    filter_upwards [ran] with m called
    simp only [Setting.scopedCalleeWithin, Setting.kind_of_kind? (s := ⟨b, context⟩) held', pure_bind]
    refine (Setting.scopedCallee_named (s := ⟨b, context⟩) r j σ).trans ?_
    rwa [noLet']
  | derived held | assignment held =>
    simp only [Setting.scopedCalleeWithin, Setting.kind_of_kind? (s := ⟨a, context⟩) held, pure_bind] at done
    obtain ⟨value', σ', held', ran, rest⟩ := part held rfl (by simp) done
    refine ⟨σ', eventually_of_succ ?_, rest⟩
    filter_upwards [ran] with m called
    simp only [Setting.scopedCalleeWithin, Setting.kind_of_kind? (s := ⟨b, context⟩) held', pure_bind, Kind.withChildren]
    exact called
  | binding held there => exact absurd there (unnamed x inside _ _ _ held)

omit keeps in
theorem goes_along (unnamed : ∀ x ∈ t.ids, ∀ name value next, a.kind? x = some (.binding name value next) → ¬
    a.NamesFunction value) : Keeps a b t t' context n := by
  induction n with
  | zero =>
    refine ⟨fun _ _ _ _ => .of_forall fun m => ?_, fun _ _ _ done => ?_, fun _ _ _ _ _ => .of_forall fun m => ?_,
      fun _ _ _ _ done => ?_⟩
    · rw [Setting.scopedWithin]
      exact .throw
    · rw [Setting.scopedWithin] at done
      cases done
    · rw [Setting.scopedCallWithin]
      exact .throw
    · rw [Setting.scopedCalleeWithin] at done
      cases done
  | succ n ih =>
    exact ⟨clearing.eval_succ ih, clearing.reads_succ ih, clearing.call_succ ih, clearing.callee_succ ih unnamed⟩

section Items

variable (unnamed : ∀ x ∈ t.ids, ∀ name value next, a.kind? x = some (.binding name value next) → ¬ a.NamesFunction value)
  (plain : ∀ z ∈ t.ids, ∀ k, a.kind? z = some k → k.isEntry = true → ¬ a.Recurs z) (inside : x ∈ t.ids) (left : x ∈ t'.ids)
  (other : a.alias? x = none) (role : a.role? x = some .item ∨ a.role? x = some .property)
  (role' : b.role? x = some .item ∨ b.role? x = some .property) {v : Value N}
include unnamed plain inside left other role role'

omit keeps in
theorem evaluates (value : (Setting.mk a context).Evaluates ∅ x v) : (Setting.mk b context).Evaluates ∅ x v := by
  have before := clearing.entire.sound clearing.sighted plain inside role
  have after := clearing.entire'.sound clearing.sighted' (clearing.plain_after plain) left role'
  obtain ⟨depth, ρ, done⟩ := (Setting.evaluates_iff (s := ⟨a, context⟩) before .refl).1 value
  have along : Keeps a b t t' context depth := clearing.goes_along unnamed
  obtain ⟨m, follows⟩ := (along.eval inside (.kept other) left .empty).exists
  exact (Setting.evaluates_iff (s := ⟨b, context⟩) after .refl).2 ⟨m, ∅, (follows.at_elim done).2⟩

omit keeps in
theorem calls {args : List (Value N)} (value : (Setting.mk a context).Calls x args v) :
    (Setting.mk b context).Calls x args v := by
  have before := clearing.entire.sound clearing.sighted plain inside role
  have after := clearing.entire'.sound clearing.sighted' (clearing.plain_after plain) left role'
  obtain ⟨depth, ρ, done⟩ := (Setting.calls_iff (s := ⟨a, context⟩) before .refl).1 value
  have along : Keeps a b t t' context depth := clearing.goes_along unnamed
  obtain ⟨m, follows⟩ := (along.call args inside (.kept other) left .empty).exists
  exact (Setting.calls_iff (s := ⟨b, context⟩) after .refl).2 ⟨m, ∅, (follows.at_elim done).2⟩

end Items

end Clearing

end

/-- In a program without recursion in which no let stands for a function, every assignment and every derived
column that had a value, evaluated or called, has it when the lets that only rename are gone. -/
theorem removeAll_keeps_values {program : Program} {c : Compilation} {root : NodeId} {named : Workspace
    Resolution.Notes} (lowered : Compilation.lower program = .ok c) (resolved : Resolution.resolveNames c.root ⟨c.arena,
    ⟨.initial, ∅⟩⟩ = .ok root named) (plain : ∀ z ∈ named.arena.descendants root, ∀ k, named.arena.kind? z = some k →
    k.isEntry = true → ¬ named.arena.Recurs z) (unnamed : ∀ x ∈ named.arena.descendants root, ∀ name value next,
    named.arena.kind? x = some (.binding name value next) → ¬ named.arena.NamesFunction value) : ∃ w, removeAll root
    ⟨named.arena, ∅⟩ = .ok root w ∧ ∀ x ∈ named.arena.descendants root, ∀ k value, named.arena.kind? x = some k →
    Setting.IsItemOf k value → x ∈ w.arena.descendants root ∧ ∀ (N : Type) [Arithmetic N] (context : List (String ×
    Value N)) (v : Value N), ((Setting.mk named.arena context).Evaluates ∅ x v → (Setting.mk w.arena context).Evaluates
    ∅ x v) ∧ ∀ args, (Setting.mk named.arena context).Calls x args v → (Setting.mk w.arena context).Calls x args v := by
  obtain ⟨t₀, lowers, held⟩ := Compilation.lower_holds lowered
  obtain ⟨t, -, -, entire, rfl⟩ := held.resolved lowers.isProgram (held.root ▸ resolved)
  obtain ⟨b, notes, t', ran, entire', same', cleared⟩ := entire.removeAll_cleared
  have clearing : Clearing named.arena b t t' := ⟨entire, entire', cleared, entire.sighted, entire'.sighted⟩
  rw [entire.stands.descendants_eq entire.once] at plain unnamed ⊢
  refine ⟨⟨b, notes⟩, ran, fun x inside k value held item => ?_⟩
  have live' := same' ▸ entire'.stands.descendants_eq entire'.once
  have other : named.arena.alias? x = none := by
    obtain ⟨name, rfl | rfl⟩ := item <;> exact Arena.alias?_of_other held (by simp)
  have noReference (target : NodeId) (shown : String) : k ≠ .reference target shown := by
    obtain ⟨name, rfl | rfl⟩ := item <;> simp
  have left := cleared.mem_ids entire.stands inside held noReference other
  obtain ⟨l, held', filled, -, rfl⟩ := clearing.refilled left held noReference
  have role : k.role = .item ∨ k.role = .property := by
    obtain ⟨name, rfl | rfl⟩ := item <;> simp [Kind.role]
  have plays : named.arena.role? x = some .item ∨ named.arena.role? x = some .property := by
    simpa [Arena.role?_of_kind? held] using role
  have plays' : b.role? x = some .item ∨ b.role? x = some .property := by
    simpa [Arena.role?_of_kind? held'] using role
  rw [live']
  exact ⟨left, fun N _ context v => ⟨clearing.evaluates unnamed plain inside left other plays plays',
    fun args => clearing.calls unnamed plain inside left other plays plays'⟩⟩

/-- `T { open: boolean, late: boolean, due = open && late, calls(forced: boolean) =
{ let d = due; let e = d; if forced { open } else { return late }; return e } }` -/
def forwarded : Program :=
  ⟨[.definition "T" [.property "open" (.named "boolean" false) none, .property "late" (.named "boolean" false) none,
    .derived "due" (.binary none .and (.identifier none "open") (.identifier none "late")) none,
    .method "calls" [⟨"forced", some (.named "boolean" false), none⟩]
      (.block none [.binding none "d" (.identifier none "due"), .binding none "e" (.identifier none "d"),
        .ifElse none (.identifier none "forced") (.block none [.identifier none "open"])
          (.block none [.ret none (.identifier none "late")]),
        .ret none (.identifier none "e")]) none] none]⟩

/-- The rest after the branch only renames `e`, as `e` does `d` and `d` does `due`; when all three are gone,
`due` is evaluated where the branch ends. -/
theorem forwarded_keeps_values :
    let row : List (String × Value Float) := [("row", .object [("open", .boolean false), ("late", .boolean true)])]
    ∃ c root named w, Compilation.lower forwarded = .ok c ∧
      Resolution.resolveNames c.root ⟨c.arena, ⟨.initial, ∅⟩⟩ = .ok root named ∧
      removeAll root ⟨named.arena, ∅⟩ = .ok root w ∧
      ((named.arena.descendants root).filter fun x => (named.arena.alias? x).isSome) = [19, 17, 8] ∧
      (Setting.mk named.arena row).Calls 21 [.boolean true] (.boolean false) ∧
      (Setting.mk w.arena row).Calls 21 [.boolean true] (.boolean false) := by
  intro row
  obtain ⟨c, lowered, found⟩ : ∃ c, Compilation.lower forwarded = .ok c ∧
      ((Resolution.resolveNames c.root).placed c.arena ⟨.initial, ∅⟩ Compilation.scopeError).toOption.any (fun named =>
        named.2.arena.isRanked (fun x => [0, 0, 0, 0, 1, 2, 0, 5, 9, 0, 0, 0, 7, 0, 8, 6, 4, 10, 3, 11, 12, 13].getD x 0) &&
        ((named.2.arena.descendants named.1).all fun x => (named.2.arena.kind? x).all fun k =>
          !k.isLet || !(k.children.any (named.2.arena.mayName 9))) &&
        (named.2.arena.descendants named.1).contains 21 && named.2.arena.layer? 21 == some .property &&
        ((named.2.arena.descendants named.1).filter fun x => (named.2.arena.alias? x).isSome) == [19, 17, 8] &&
        decide (Setting.scalar? ((Setting.mk named.2.arena row).callWithin 12 21 [.boolean true] ∅) = some (.inr false))) = true :=
    except_any (by decide +kernel)
  obtain ⟨⟨root, named⟩, resolved, found⟩ := except_any found
  simp only [Bool.and_eq_true, beq_iff_eq, decide_eq_true_eq, List.contains_eq_mem] at found
  obtain ⟨⟨⟨⟨⟨ranked, solid⟩, live⟩, column⟩, lets⟩, called⟩ := found
  have resolved := Pass.placed_eq_ok.1 resolved
  obtain ⟨k, held, layer⟩ := Option.map_eq_some_iff.1 column
  obtain ⟨name, derivation, rfl⟩ := Kind.derived_of_layer layer
  have unnamed : ∀ x ∈ named.arena.descendants root, ∀ name value next,
      named.arena.kind? x = some (.binding name value next) → ¬ named.arena.NamesFunction value := by
    intro x inside name value next binding names
    have here := List.all_eq_true.1 solid x inside
    rw [binding] at here
    simp [Kind.isLet, Kind.children, names.mayName 9] at here
  obtain ⟨w, ran, keeps⟩ := removeAll_keeps_values lowered resolved
    (fun z _ _ _ _ => Arena.not_recurs_of_isRanked ranked z) unnamed
  have before : (Setting.mk named.arena row).Calls 21 [.boolean true] (.boolean false) := .of_scalar? 12 (.inr false) called
  exact ⟨c, root, named, w, lowered, resolved, ran, lets, before,
    ((keeps 21 live _ _ held ⟨name, .inl rfl⟩).2 Float row _).2 _ before⟩

end DerivedTables
