import DerivedTables.Compilation.Compile
import DerivedTables.Proofs.Eval.Exact
import DerivedTables.Proofs.Eval.Functions
import DerivedTables.Proofs.Eval.Scoped

/-!
Which function a call runs. Names, items and lets are followed to their values, so a block leads to
what its first let is bound to and never to what it ends in.
-/

namespace DerivedTables

/-- The function that the one node names is looked for at the other; a split is not passed. -/
def Arena.Passes (a : Arena) (x y : NodeId) : Prop :=
  ∃ k, a.kind? x = some k ∧ k.isSplit = false ∧ k.named = some y

/-- A chain of names, items and lets. -/
def Arena.Names (a : Arena) : NodeId → NodeId → Prop := Relation.ReflTransGen a.Passes

namespace Setting

variable {N : Type} [Arithmetic N] {s : Setting N} {ρ ρ' : Bindings N} {x y f : NodeId} {args : List (Value N)}
  {u : Value N}

/-- A call of the node, with these bindings, comes to run the function `f`. -/
def Finds (s : Setting N) (ρ : Bindings N) (x f : NodeId) (ρ' : Bindings N) : Prop :=
  ∃ depth, s.calleeWithin depth x x ρ = .ok f ρ'

/-- What a call gives and leaves bound. -/
def Returns (s : Setting N) (ρ : Bindings N) (x : NodeId) (args : List (Value N)) (u : Value N) (ρ' : Bindings N) : Prop :=
  ∃ depth, s.callWithin depth x args ρ = .ok u ρ'

theorem calleeWithin_mono {depth depth' : Nat} (within : depth ≤ depth') {i : NodeId} (j : NodeId)
    (found : s.calleeWithin depth i x ρ = .ok f ρ') : s.calleeWithin depth' j x ρ = .ok f ρ' := by
  obtain ⟨_, _, done, rfl, rfl⟩ := ((Correspondence.refl s).carries within).callee i j rfl |>.run rfl found
  exact done

theorem calleeWithin_function {depth : Nat} {i : NodeId} (found : s.calleeWithin depth i x ρ = .ok f ρ') :
    ∃ name params body, s.arena.kind? f = some (.function name params body) := by
  induction depth generalizing x ρ with
  | zero =>
    rw [calleeWithin] at found
    cases found
  | succ depth ih =>
    cases held : s.arena.kind? x with
    | none =>
      simp only [calleeWithin, kind_of_none held] at found
      cases found
    | some k =>
      simp only [calleeWithin, kind_of_kind? held, pure_bind] at found
      cases k with
      | function name params body =>
        cases found
        exact ⟨name, params, body, held⟩
      | reference | derived | assignment | binding => exact ih found
      | split =>
        obtain ⟨_, _, -, found⟩ := bind_eq_ok.1 found
        exact ih found
      | _ => cases found

theorem finds_of_passes (passes : s.arena.Passes x y) : s.Finds ρ x f ρ' ↔ s.Finds ρ y f ρ' := by
  obtain ⟨k, held, whole, next⟩ := passes
  have step (depth : Nat) (i : NodeId) : s.calleeWithin (depth + 1) i x = s.calleeWithin depth i y := by
    simp only [calleeWithin, kind_of_kind? held, pure_bind]
    cases k <;> cases next <;> first | rfl | cases whole
  constructor
  · rintro ⟨_ | depth, found⟩
    · rw [calleeWithin] at found
      cases found
    · rw [step] at found
      exact ⟨depth, calleeWithin_mono le_rfl y found⟩
  · rintro ⟨depth, found⟩
    exact ⟨depth + 1, by rw [step]; exact calleeWithin_mono le_rfl x found⟩

theorem finds_of_names (names : s.arena.Names x y) : s.Finds ρ x f ρ' ↔ s.Finds ρ y f ρ' := by
  induction names with
  | refl => rfl
  | tail _ passes ih => exact ih.trans (finds_of_passes passes)

theorem finds_self {name : Option String} {params : List NodeId} {body : NodeId}
    (held : s.arena.kind? f = some (.function name params body)) : s.calleeWithin 1 f f ρ = .ok f ρ := by
  simp only [calleeWithin, kind_of_kind? held, pure_bind]
  rfl

theorem returns_iff_finds : s.Returns ρ x args u ρ' ↔ ∃ f ρ₁, s.Finds ρ x f ρ₁ ∧ s.Returns ρ₁ f args u ρ' := by
  have same {depth : Nat} {f : NodeId} {ρ₁ : Bindings N} (found : s.calleeWithin depth x x ρ = .ok f ρ₁) (more : 1 ≤ depth) :
      s.callWithin (depth + 1) x args ρ = s.callWithin (depth + 1) f args ρ₁ := by
    obtain ⟨_, _, _, held⟩ := calleeWithin_function found
    rw [callWithin, callWithin, bind_of_ok found, bind_of_ok (calleeWithin_mono more f (finds_self held))]
  constructor
  · rintro ⟨_ | depth, done⟩
    · rw [callWithin] at done
      cases done
    · have first := done
      rw [callWithin] at first
      obtain ⟨f, ρ₁, found, -⟩ := bind_eq_ok.1 first
      have more : 1 ≤ depth := by
        cases depth with
        | zero =>
          rw [calleeWithin] at found
          cases found
        | succ => simp
      exact ⟨f, ρ₁, ⟨depth, found⟩, depth + 1, (same found more).symm.trans done⟩
  · rintro ⟨f, ρ₁, ⟨depth, found⟩, depth', done⟩
    have found := calleeWithin_mono (Nat.le_add_right depth (depth' + 1)) x found
    exact ⟨_, (same found (by omega)).trans (callWithin_mono (by omega) done)⟩

/-- Whatever a block ends in, a call of it, by whatever name, runs what the value of its first let names, and
cannot be made at all if the block starts with a side effect. -/
theorem call_of_block {block : NodeId} (names : s.arena.Names x block) :
    (∀ name v next, s.arena.kind? block = some (.binding name v next) → ∀ ρ f ρ',
      (s.Finds ρ x f ρ' ↔ s.Finds ρ v f ρ') ∧ (s.arena.Names v f → s.arena.isFunction f = true → s.Finds ρ x f ρ)) ∧
    (∀ expr next, s.arena.kind? block = some (.effect expr next) → ∀ ρ f ρ', ¬ s.Finds ρ x f ρ') ∧
    ∀ ρ args u ρ', s.Returns ρ x args u ρ' ↔ ∃ f ρ₁, s.Finds ρ x f ρ₁ ∧ s.Returns ρ₁ f args u ρ' := by
  refine ⟨fun name v next held ρ f ρ' => ⟨?_, fun further function => ?_⟩, fun expr next held ρ f ρ' found => ?_,
    fun ρ args u ρ' => returns_iff_finds⟩
  · exact (finds_of_names names).trans (finds_of_passes ⟨_, held, rfl, rfl⟩)
  · obtain ⟨_, _, _, here⟩ := Arena.isFunction_iff.1 function
    exact (finds_of_names (names.trans (.head ⟨_, held, rfl, rfl⟩ further))).2 ⟨1, finds_self here⟩
  · obtain ⟨_ | depth, found⟩ := (finds_of_names names).1 found
    · rw [calleeWithin] at found
      cases found
    · simp only [calleeWithin, kind_of_kind? held, pure_bind] at found
      cases found

/-- `h = { let f = (x: number) => 1; return (x: number) => true }` -/
def twoFunctions : Program :=
  ⟨[.assignment "h" (.block none [
    .binding none "f" (.lambda none [⟨"x", some (.named "number" false), none⟩] (.number none 1)),
    .ret none (.lambda none [⟨"x", some (.named "number" false), none⟩] (.boolean none true))]) none]⟩

/-- A call of `h` finds the function of the let. -/
theorem twoFunctions_finds_first : ∃ c, compile twoFunctions ⟨.typed, 32, true⟩ = .ok c ∧ c.arena.Names 7 6 ∧
    (Setting.mk c.arena ([] : List (String × Value ℚ))).Finds ∅ 7 5 ∅ := by
  obtain ⟨c, compiled, found⟩ : ∃ c, compile twoFunctions ⟨.typed, 32, true⟩ = .ok c ∧
      ((c.arena.kind? 7).any (fun k => !k.isSplit && k.named == some 6) && c.arena.isBinding 6 &&
        (c.arena.kind? 6).any (·.named == some 5) && c.arena.isFunction 5) = true :=
    except_any (by decide +kernel)
  simp only [Bool.and_eq_true] at found
  obtain ⟨⟨⟨item, isLet⟩, value⟩, function⟩ := found
  obtain ⟨k, held, next⟩ := (Option.any_eq_true _ _).1 item
  have names : c.arena.Names 7 6 := .single ⟨k, held, by simpa using next⟩
  obtain ⟨l, there, leads⟩ := (Option.any_eq_true _ _).1 value
  cases l <;> simp [Arena.isBinding, there] at isLet
  obtain rfl := Option.some.inj (beq_iff_eq.1 leads)
  exact ⟨c, compiled, names, ((call_of_block names).1 _ _ _ there ∅ 5 ∅).2 .refl function⟩

/-- The type of `h` is that of the function it ends in, which gives a boolean; a call gives a number. -/
theorem twoFunctions_gives_number :
    ∃ c, compile twoFunctions ⟨.typed, 32, true⟩ = .ok c ∧
      c.arena.ty? 7 = some (.function (.cons "x" .number .nil) .boolean) ∧
      (Setting.mk c.arena ([] : List (String × Value ℚ))).Calls 7 [.number 0] (.number 1) := by
  obtain ⟨c, compiled, found⟩ : ∃ c, compile twoFunctions ⟨.typed, 32, true⟩ = .ok c ∧
      (decide (c.arena.ty? 7 = some (.function (.cons "x" .number .nil) .boolean)) &&
        decide (scalar? ((Setting.mk c.arena ([] : List (String × Value ℚ))).callWithin 5 7 [.number 0] ∅) =
          some (.inl 1))) = true :=
    except_any (by decide +kernel)
  simp only [Bool.and_eq_true, decide_eq_true_eq] at found
  exact ⟨c, compiled, found.1, .of_scalar? 5 (.inl 1) found.2⟩

end Setting

end DerivedTables
