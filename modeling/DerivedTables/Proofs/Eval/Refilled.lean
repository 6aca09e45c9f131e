import DerivedTables.Proofs.Scope.Grounded

/-!
Evaluation of a node whose slots have been filled anew, beside evaluation of the node as it was.
-/

namespace DerivedTables

namespace Kind

variable {R : NodeId → NodeId → Prop} {k l : Kind} {x y : NodeId}

def Refilled (R : NodeId → NodeId → Prop) (k l : Kind) : Prop :=
  ∃ filled, List.Forall₂ R k.children filled ∧ l = k.withChildren filled

abbrev Resembles (R : NodeId → NodeId → Prop) (x : NodeId) : Kind → Kind → Prop := Alike R Eq (fun _ => False) x x

@[simp] theorem isInert_withChildren (k : Kind) (filled : List NodeId) : (k.withChildren filled).isInert = k.isInert := by
  unfold withChildren
  split <;> rfl

@[simp] theorem isGlobal_withChildren (k : Kind) (filled : List NodeId) : (k.withChildren filled).isGlobal = k.isGlobal := by
  unfold withChildren
  split <;> rfl

theorem Refilled.of_same (every : ∀ y ∈ k.children, R y y) : Refilled R k k :=
  ⟨k.children, List.forall₂_same.2 every, k.withChildren_children.symm⟩

theorem Refilled.resembles (refilled : Refilled R k l) (same : ∀ target name, k = .reference target name → R target target)
    (whole : k.layer ≠ .split)
    (fixed : ∀ {name params body}, k = .function name params body → ∀ p ∈ params, ∀ q, R p q → p = q) :
    Resembles R x k l := by
  obtain ⟨filled, related, rfl⟩ := refilled
  cases k with
  | function name params body =>
    obtain ⟨params', rest, rfl, first, last⟩ := forall₂_append_left related
    obtain ⟨body', _, inner, nothing, rfl⟩ := List.forall₂_cons_left_iff.1 last
    obtain rfl := List.forall₂_nil_left_iff.1 nothing
    have taken : (Kind.function name params body).withChildren (params' ++ [body']) = .function name params' body' := by
      simp [withChildren, first.length_eq]
    rw [taken]
    have same := (List.forall₂_and_left ..).2 ⟨fun _ listed => listed, first⟩
    exact .function _ _ (same.imp fun p q param => fixed rfl p param.1 q param.2) inner
  | invoke callee args =>
    obtain ⟨callee', args', first, rest, rfl⟩ := List.forall₂_cons_left_iff.1 related
    exact .invoke first rest
  | split => exact absurd rfl whole
  | reference target name => exact .reference _ _ (same target name rfl)
  | _ =>
    simp only [children, List.forall₂_cons_left_iff, List.forall₂_nil_left_iff] at related
    first
    | exact .inert _ rfl
    | (obtain rfl := related; constructor)
    | (obtain ⟨_, _, _, rfl, rfl⟩ := related; constructor; assumption)
    | (obtain ⟨_, _, _, ⟨_, _, _, rfl, rfl⟩, rfl⟩ := related; constructor <;> first | assumption | rfl)
    | (obtain ⟨_, _, _, ⟨_, _, _, ⟨_, _, _, rfl, rfl⟩, rfl⟩, rfl⟩ := related; constructor <;> assumption)

namespace Resembles

theorem entered (alike : Resembles R x k l) (live : k.isInert = false) (part : y ∈ l.entered) :
    ∃ c ∈ k.entered, R c y := by
  cases alike with
  | invoke callee args =>
    obtain rfl | given := List.mem_cons.1 part
    · exact ⟨_, List.mem_cons_self, callee⟩
    · obtain ⟨arg, listed, related⟩ := Tree.exists_of_mem_forall₂ args y given
      exact ⟨arg, List.mem_cons_of_mem _ listed, related⟩
  | split read writes =>
    obtain written | rest := List.mem_append.1 part
    · obtain ⟨write, listed, rfl⟩ := List.mem_map.1 written
      obtain ⟨write', listed', related, -⟩ := Tree.exists_of_mem_forall₂ writes write listed
      exact ⟨_, List.mem_append_left _ (List.mem_map_of_mem listed'), related⟩
    · obtain rfl := List.mem_singleton.1 rest
      exact ⟨_, List.mem_append_right _ (List.mem_singleton.2 rfl), read⟩
  | inert l inert => cases live.symm.trans inert
  | handed l given idle => exact idle.elim
  | _ => simp_all [Kind.entered, Kind.isInert, Kind.children] <;> grind

theorem runs {run : List (NodeId × List NodeId)} (alike : Resembles R x k l) (live : k.isInert = false)
    (listed : run ∈ l.runs x) :
    ∃ run' ∈ k.runs x, List.Forall₂ (fun step step' => R step.1 step'.1 ∧ step.2 = step'.2) run' run := by
  cases alike with
  | invoke callee args =>
    obtain rfl := List.mem_singleton.1 listed
    refine ⟨_, List.mem_singleton.2 rfl, List.rel_append ?_ (.cons ⟨callee, rfl⟩ .nil)⟩
    rw [List.forall₂_map_left_iff, List.forall₂_map_right_iff]
    exact args.imp fun _ _ related => ⟨related, rfl⟩
  | split read writes =>
    obtain rfl := List.mem_singleton.1 listed
    refine ⟨_, List.mem_singleton.2 rfl, List.rel_append ?_ (.cons ⟨read, rfl⟩ .nil)⟩
    rw [List.forall₂_map_left_iff, List.forall₂_map_right_iff]
    exact writes.imp fun _ _ related => ⟨related.1, by rw [related.2]⟩
  | inert l inert => cases live.symm.trans inert
  | handed l given idle => exact idle.elim
  | conditional condition thenBranch elseBranch =>
    obtain rfl | listed := List.mem_cons.1 listed
    · exact ⟨_, List.mem_cons_self, .cons ⟨condition, rfl⟩ (.cons ⟨thenBranch, rfl⟩ .nil)⟩
    · obtain rfl := List.mem_singleton.1 listed
      exact ⟨_, List.mem_cons_of_mem _ List.mem_cons_self, .cons ⟨condition, rfl⟩ (.cons ⟨elseBranch, rfl⟩ .nil)⟩
  | _ => simp_all [Kind.runs]

theorem binds (alike : Resembles R x k l) (live : k.isInert = false) : l.binds x = k.binds x := by
  cases alike with
  | function _ _ params =>
    obtain rfl : _ = _ := List.forall₂_eq_eq_eq ▸ params
    rfl
  | split read writes =>
    rw [Kind.binds, Kind.binds]
    refine (?_ : _ = _)
    induction writes with
    | nil => rfl
    | cons here _ ih => simp [here.2, ih (by rfl)]
  | inert l inert => cases live.symm.trans inert
  | handed l given idle => exact idle.elim
  | _ => rfl

end Resembles

theorem Refilled.isGlobal {l : Kind} (refilled : Refilled R k l) : l.isGlobal = k.isGlobal := by
  obtain ⟨filled, -, rfl⟩ := refilled
  exact k.isGlobal_withChildren filled

theorem Refilled.isInert {l : Kind} (refilled : Refilled R k l) : l.isInert = k.isInert := by
  obtain ⟨filled, -, rfl⟩ := refilled
  exact k.isInert_withChildren filled

theorem entered_of_isInert (inert : k.isInert = true) : k.entered = [] := by
  cases k <;> first | rfl | cases inert

theorem binds_of_isInert (inert : k.isInert = true) (x : NodeId) : k.binds x = [] := by
  cases k <;> first | rfl | cases inert

def isLet : Kind → Bool
  | binding .. => true
  | _ => false

def isBlank : Kind → Bool
  | param .. | column .. | definition .. => true
  | _ => false

@[simp] theorem isLet_withChildren (k : Kind) (filled : List NodeId) : (k.withChildren filled).isLet = k.isLet := by
  unfold withChildren
  split <;> rfl

@[simp] theorem isBlank_withChildren (k : Kind) (filled : List NodeId) :
    (k.withChildren filled).isBlank = k.isBlank := by
  unfold withChildren
  split <;> rfl

end Kind

namespace Arena

variable {a : Arena} {x : NodeId} {k : Kind}

theorem isBinding_eq (held : a.kind? x = some k) : a.isBinding x = k.isLet := by
  rw [isBinding, held]
  cases k <;> rfl

theorem code_eq (held : a.kind? x = some k) (other : k.isLet = false) : a.code x = if k.isBlank then [] else [x] := by
  rw [code, held]
  cases k <;> first | rfl | cases other

end Arena

variable {N : Type}

def At (σ σ' ρ ρ' : Bindings N) : Prop := ρ = σ ∧ ρ' = σ'

theorem bound_agree {params : List NodeId} {args : List (Value N)} {σ σ' : Bindings N} {z : NodeId}
    (count : params.length = args.length) (same : z ∉ params → σ[z]? = σ'[z]?) :
    (Setting.bound params args σ)[z]? = (Setting.bound params args σ')[z]? := by
  induction params generalizing args σ σ' with
  | nil => exact same List.not_mem_nil
  | cons p params ih =>
    cases args with
    | nil => cases count
    | cons v args =>
      refine ih (Nat.succ.inj count) fun unbound => ?_
      rw [Std.TreeMap.getElem?_insert, Std.TreeMap.getElem?_insert]
      split
      · rfl
      · rename_i other
        exact same fun listed => (List.mem_cons.1 listed).elim (fun here => other (by simp [here])) unbound

theorem Arena.Plain.bound {a : Arena} {params : List NodeId} {args : List (Value N)} {σ : Bindings N} (plain : a.Plain σ)
    (within : ∀ p ∈ params, ∀ k, a.kind? p = some k → k.isGlobal = false) : a.Plain (Setting.bound params args σ) := by
  induction params generalizing args σ with
  | nil => exact plain
  | cons p params ih =>
    rw [List.forall_mem_cons] at within
    cases args with
    | nil => exact plain
    | cons v args => exact ih (plain.insert v within.1) within.2

namespace Follows

variable {α β : Type} {σ σ' : Bindings N}

theorem at_intro {first : Evaluation N α} {second : Evaluation N α}
    (given : ∀ v ρ, first σ = .ok v ρ → ρ = σ ∧ second σ' = .ok v σ') : Follows (At σ σ') Eq first second := by
  refine of_run ?_
  rintro _ _ ⟨rfl, rfl⟩ v ρ done
  obtain ⟨rfl, done'⟩ := given v ρ done
  exact ⟨v, _, done', rfl, rfl, rfl⟩

theorem at_elim {first : Evaluation N α} {second : Evaluation N α} (follows : Follows (At σ σ') Eq first second)
    {v : α} {ρ : Bindings N} (done : first σ = .ok v ρ) : ρ = σ ∧ second σ' = .ok v σ' := by
  obtain ⟨_, _, done', rfl, rfl, rfl⟩ := follows.run ⟨rfl, rfl⟩ done
  exact ⟨rfl, done'⟩

theorem restoring {first second : Evaluation N α} (inner : ∀ v ρ, first σ = .ok v ρ → ∃ ρ', second σ' = .ok v ρ') :
    Follows (At σ σ') Eq (Setting.restoring first) (Setting.restoring second) := by
  refine at_intro fun v ρ done => ?_
  obtain ⟨_, _, first, done⟩ := bind_eq_ok.1 done
  cases first
  obtain ⟨v₁, ρ₁, ran, done⟩ := bind_eq_ok.1 done
  obtain ⟨_, _, set, last⟩ := bind_eq_ok.1 done
  cases set
  cases last
  obtain ⟨ρ', ran'⟩ := inner _ ρ₁ ran
  exact ⟨rfl, (bind_of_ok (m := MonadState.get) rfl).trans ((bind_of_ok ran').trans (bind_of_ok rfl))⟩

end Follows

end DerivedTables
