import Mathlib.Data.List.Forall2

/-!
What a run that succeeded did on the way.
-/

namespace DerivedTables

variable {α β ε σ : Type}

theorem bind_eq_ok {m : EStateM ε σ α} {f : α → EStateM ε σ β} {w w'' : σ} {y : β} :
    (m >>= f) w = .ok y w'' ↔ ∃ x w', m w = .ok x w' ∧ f x w' = .ok y w'' := by
  change EStateM.bind m f w = _ ↔ _
  unfold EStateM.bind
  cases m w <;> simp

theorem bind_of_ok {m : EStateM ε σ α} {f : α → EStateM ε σ β} {w w' : σ} {x : α}
    (ran : m w = .ok x w') : (m >>= f) w = f x w' := by
  change EStateM.bind m f w = _
  simp [EStateM.bind, ran]

theorem bind_of_error {m : EStateM ε σ α} {f : α → EStateM ε σ β} {w w' : σ}
    {e : ε} (ran : m w = .error e w') : (m >>= f) w = .error e w' := by
  change EStateM.bind m f w = _
  simp [EStateM.bind, ran]

theorem bind_eq_error {m : EStateM ε σ α} {f : α → EStateM ε σ β} {w w'' : σ} {e : ε}
    (failed : (m >>= f) w = .error e w'') : m w = .error e w'' ∨ ∃ x w', m w = .ok x w' ∧ f x w' = .error e w'' := by
  cases ran : m w with
  | ok x w' =>
    rw [bind_of_ok ran] at failed
    exact .inr ⟨x, w', rfl, failed⟩
  | error e' w' =>
    cases (bind_of_error ran).symm.trans failed
    exact .inl rfl

theorem discard_of_ok {m : EStateM ε σ α} {w w' : σ} {x : α}
    (ran : m w = .ok x w') : (discard m : EStateM ε σ PUnit) w = .ok () w' :=
  bind_of_ok ran

theorem discard_of_error {m : EStateM ε σ α} {w w' : σ} {e : ε}
    (ran : m w = .error e w') : (discard m : EStateM ε σ PUnit) w = .error e w' :=
  bind_of_error ran

theorem except_bind_eq_ok {m : Except ε α} {f : α → Except ε β} {y : β} :
    (m >>= f) = .ok y ↔ ∃ x, m = .ok x ∧ f x = .ok y := by
  cases m <;> simp [bind, Except.bind]

theorem except_forM_eq_ok {f : α → Except ε Unit} {xs : List α} : xs.forM f = .ok () ↔ ∀ x ∈ xs, f x = .ok () := by
  induction xs with
  | nil => exact ⟨by simp, fun _ => rfl⟩
  | cons x xs ih =>
    rw [List.forall_mem_cons, ← ih]
    exact except_bind_eq_ok.trans ⟨fun ⟨_, here, rest⟩ => ⟨here, rest⟩, fun ⟨here, rest⟩ =>
      ⟨(), here, rest⟩⟩

theorem except_bind_eq_error {m : Except ε α} {f : α → Except ε β} {e : ε}
    (failed : (m >>= f) = .error e) : m = .error e ∨ ∃ x, m = .ok x ∧ f x = .error e := by
  cases m with
  | error _ =>
    cases failed
    exact .inl rfl
  | ok x => exact .inr ⟨x, rfl, failed⟩

theorem except_mapM_error {f : α → Except ε β} {xs : List α} {e : ε}
    (failed : xs.mapM f = .error e) : ∃ x ∈ xs, f x = .error e := by
  induction xs with
  | nil => cases failed
  | cons x xs ih =>
    rw [List.mapM_cons] at failed
    obtain failed | ⟨_, -, failed⟩ := except_bind_eq_error failed
    · exact ⟨x, by simp, failed⟩
    obtain failed | ⟨_, -, failed⟩ := except_bind_eq_error failed
    · obtain ⟨y, listed, failed⟩ := ih failed
      exact ⟨y, List.mem_cons_of_mem _ listed, failed⟩
    · cases failed

theorem except_forM_error {f : α → Except ε Unit} {xs : List α} {e : ε}
    (failed : xs.forM f = .error e) : ∃ x ∈ xs, f x = .error e := by
  induction xs with
  | nil => cases failed
  | cons x xs ih =>
    obtain failed | ⟨_, -, failed⟩ := except_bind_eq_error failed
    · exact ⟨x, by simp, failed⟩
    · obtain ⟨y, listed, failed⟩ := ih failed
      exact ⟨y, List.mem_cons_of_mem _ listed, failed⟩

theorem except_any {m : Except ε α} {p : α → Bool} (holds : m.toOption.any p = true) : ∃ x, m = .ok x ∧ p x = true := by
  cases m with
  | error e => cases holds
  | ok x => exact ⟨x, rfl, holds⟩

end DerivedTables
