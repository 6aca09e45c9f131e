import DerivedTables.Proofs.Typing.Accepted

/-!
Calls in a typed program. The evaluator keeps one binding for each parameter and let, not one for
each activation, so a function that calls itself and then reads its parameter gets what the inner
call bound.
-/

namespace DerivedTables

namespace Compilation

variable {program : Program} {c c' : Compilation} {limit : Nat}

theorem typed_holds (resolved : (lower program >>= resolve) = .ok c) (typed : c.assignTypes limit = .ok c') :
    ∃ t : Tree, c'.Holds t := by
  obtain ⟨t, held⟩ := resolved_holds resolved
  exact ⟨t, assignTypes_holds held typed⟩

end Compilation

namespace Setting

variable {N : Type} [Arithmetic N] {s : Setting N}

theorem fresh_call_param {x : NodeId} {name : String} {declared : Option Ty}
    (held : s.arena.kind? x = some (.param name declared)) (depth : Nat) (args : List (Value N)) :
    fresh (s.callWithin depth x args) = fresh (s.scopedCallWithin depth x args) := by
  cases depth with
  | zero => rw [callWithin, scopedCallWithin]
  | succ depth =>
    have none_ : s.arena.code x = [] := by simp [Arena.code, held]
    obtain ⟨fault, stuck, stuck'⟩ : ∃ fault, s.calleeWithin depth x x ∅ = .error fault ∅ ∧
        s.scopedCalleeWithin depth x x ∅ = .error fault ∅ := callee_stuck none_ x ∅ ∅
    have ended : s.callWithin (depth + 1) x args ∅ = .error fault ∅ := by
      rw [callWithin]
      exact bind_of_error stuck
    have ended' : s.scopedCallWithin (depth + 1) x args ∅ = .error fault ∅ := by
      rw [scopedCallWithin]
      exact (bind_of_ok rfl).trans (bind_of_error (bind_of_error stuck'))
    simp only [fresh, EStateM.run, ended, ended']

end Setting

namespace Arena

variable {a : Arena} {x y : NodeId}

def isIdle (a : Arena) (x : NodeId) : Bool :=
  match a.kind? x with
  | some (.reference target _) => (a.code target).isEmpty
  | some k => k.entered.isEmpty && (k.binds x).isEmpty
  | none => true

def isLiteral (a : Arena) (x : NodeId) : Bool :=
  match a.kind? x with
  | some k => k.isLiteral
  | none => false

def isCalm (a : Arena) : List (NodeId × List NodeId) → Bool
  | [] => true
  | step :: rest => (a.isIdle step.1 || rest.all fun later => a.isLiteral later.1) && isCalm a rest

theorem not_rebinds_of_isIdle (idle : a.isIdle x = true) : ¬ a.Rebinds x y := by
  rintro ⟨z, k, reaches, held, bound⟩
  obtain rfl | ⟨w, ⟨l, held', leads⟩, -⟩ := Relation.ReflTransGen.cases_head reaches
  · cases k <;> simp_all [isIdle, Kind.binds]
  · obtain part | ⟨target, name, rfl, code⟩ := leads
    · cases l <;> simp_all [isIdle, Kind.entered, Kind.isInert, Kind.children]
    · simp_all [isIdle]

theorem not_free_of_isLiteral (literal : a.isLiteral x = true) : ¬ a.Free x y := by
  rintro (⟨held, -⟩ | ⟨held, -⟩ | ⟨held, run⟩ | ⟨held, -⟩)
  · simp [isLiteral, held, Kind.isLiteral] at literal
  · simp [isLiteral, held, Kind.isLiteral] at literal
  · rename_i k _ _ _ _ _
    cases k <;> simp_all [isLiteral, Kind.isLiteral, Kind.runs]
  · simp [isLiteral, held, Kind.isLiteral] at literal

theorem steady_of_isCalm {run : List (NodeId × List NodeId)} (calm : a.isCalm run = true) : a.Steady run := by
  induction run with
  | nil => trivial
  | cons step rest ih =>
    obtain ⟨here, further⟩ := Bool.and_eq_true_iff.1 calm
    refine ⟨fun y free _ => ?_, ih further⟩
    obtain idle | literals := Bool.or_eq_true_iff.1 here
    · exact not_rebinds_of_isIdle idle
    · obtain ⟨before, c, bound, after, rfl, reads, -⟩ := free
      exact absurd reads (not_free_of_isLiteral (List.all_eq_true.1 literals (c, bound) (by simp)))

theorem undisturbed_of_isCalm (calm : ((List.range a.size).all fun y =>
    (a.kind? y).all fun k => (k.runs y).all a.isCalm) = true) : a.Undisturbed x := by
  intro y k _ held run listed
  have here := List.all_eq_true.1 calm y (List.mem_range.2 (lt_size_of_kind? held))
  rw [held] at here
  exact steady_of_isCalm (List.all_eq_true.1 here run listed)

end Arena

open Setting

/-- `f = (b: boolean) => if b then { f(false); b } else b` -/
def forgets : Program :=
  ⟨[.assignment "f" (.lambda none [⟨"b", some (.named "boolean" false), none⟩]
    (.ifElse none (.identifier none "b")
      (.block none [.call none (.identifier none "f") [.boolean none false], .ret none (.identifier none "b")])
      (.identifier none "b"))) none]⟩

/-- After the inner call the parameter has the value that the inner call was given. -/
theorem forgets_what_it_was_given :
    ∃ c, compile forgets ⟨.typed, 32, true⟩ = .ok c ∧ c.arena.isAssignmentOf "f" 10 = true ∧
      (∃ ρ, (Setting.mk (N := Float) c.arena []).callWithin 9 10 [.boolean true] ∅ = .ok (.boolean false) ρ) ∧
      ∃ ρ, (Setting.mk (N := Float) c.arena []).scopedCallWithin 9 10 [.boolean true] ∅ = .ok (.boolean true) ρ := by
  let given (result : EStateM.Result Fault (Bindings Float) (Value Float)) (b : Bool) : Bool :=
    (scalar? result).any (Sum.elim (fun _ => false) (· == b))
  have boolean {result : EStateM.Result Fault (Bindings Float) (Value Float)} {b : Bool}
      (gives : given result b = true) : ∃ ρ, result = .ok (.boolean b) ρ := by
    obtain ⟨n | found, scalar, same⟩ := (Option.any_eq_true _ _).1 gives
    · cases same
    · obtain rfl : found = b := by simpa using same
      exact eq_ok_of_scalar? scalar
  obtain ⟨c, compiled, found⟩ : ∃ c, compile forgets ⟨.typed, 32, true⟩ = .ok c ∧
      (c.arena.isAssignmentOf "f" 10 &&
        given ((Setting.mk (N := Float) c.arena []).callWithin 9 10 [.boolean true] ∅) false &&
        given ((Setting.mk (N := Float) c.arena []).scopedCallWithin 9 10 [.boolean true] ∅) true) = true :=
    except_any (by decide +kernel)
  simp only [Bool.and_eq_true] at found
  exact ⟨c, compiled, found.1.1, boolean found.1.2, boolean found.2⟩

/-- A call in a typed program has the outcome, value or fault, that it has when each activation has its
own bindings, unless something it reaches reads a parameter or let after it may have been bound again. -/
theorem typed_call_eq_scoped {N : Type} [Arithmetic N] {program : Program} {limit : Nat} {c c' : Compilation} (resolved
    : (Compilation.lower program >>= Compilation.resolve) = .ok c) (typed : c.assignTypes limit = .ok c') (context :
    List (String × Value N)) (f : NodeId) (above : Lineage) (path : c'.arena.Descends [c'.root] (f :: above))
    (undisturbed : c'.arena.Undisturbed f) (args : List (Value N)) (depth : Nat) : fresh ((Setting.mk c'.arena
    context).callWithin depth f args) = fresh ((Setting.mk c'.arena context).scopedCallWithin depth f args) := by
  obtain ⟨t, held⟩ := Compilation.typed_holds resolved typed
  have sighted := held.sighted
  have live := held.stands.mem_ids (held.root ▸ path)
  by_cases param : c'.arena.role? f = some .param
  · obtain ⟨k, there, role⟩ := Arena.exists_of_role? param
    cases k with
    | param => exact fresh_call_param there depth args
    | _ => cases role
  · exact fresh_call_eq (sighted.sound live (fun _ => held.cast.reaches_role sighted live param) undisturbed) .refl args

/-- `f = (b: boolean) => if b then { f(false); true } else b` -/
def insists : Program :=
  ⟨[.assignment "f" (.lambda none [⟨"b", some (.named "boolean" false), none⟩]
    (.ifElse none (.identifier none "b")
      (.block none [.call none (.identifier none "f") [.boolean none false], .ret none (.boolean none true)])
      (.identifier none "b"))) none]⟩

/-- It calls itself, but reads nothing afterwards. -/
theorem insists_call_eq_scoped :
    ∃ c c', (Compilation.lower insists >>= Compilation.resolve) = .ok c ∧ c.assignTypes 8 = .ok c' ∧
      c'.arena.isAssignmentOf "f" 10 = true ∧ c'.arena.Undisturbed 10 ∧ ∀ (args : List (Value Float)) (depth : Nat),
        fresh ((Setting.mk c'.arena []).callWithin depth 10 args) =
          fresh ((Setting.mk c'.arena []).scopedCallWithin depth 10 args) := by
  obtain ⟨c, resolved, succeeds⟩ : ∃ c, (Compilation.lower insists >>= Compilation.resolve) = .ok c ∧
      (c.assignTypes 8).toOption.any (fun c' => c'.arena.isAssignmentOf "f" 10 &&
        (c'.arena.kind? c'.root).any (fun k => k.children.contains 10) &&
        (List.range c'.arena.size).all fun y => (c'.arena.kind? y).all fun k => (k.runs y).all c'.arena.isCalm) = true :=
    except_any (by decide +kernel)
  obtain ⟨c', typed, found⟩ := except_any succeeds
  simp only [Bool.and_eq_true] at found
  obtain ⟨⟨assigned, child⟩, calm⟩ := found
  have undisturbed : c'.arena.Undisturbed 10 := Arena.undisturbed_of_isCalm calm
  refine ⟨c, c', resolved, typed, assigned, undisturbed, fun args depth => ?_⟩
  obtain ⟨k, held, listed⟩ := (Option.any_eq_true _ _).1 child
  exact typed_call_eq_scoped resolved typed [] 10 [c'.root] (.child .here held (by simpa using listed))
    undisturbed args depth

end DerivedTables
