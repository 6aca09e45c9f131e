import DerivedTables.Proofs.Typing.Comparing

/-!
Types in which nothing is open and no table is named compare as they should down to the depth the
comparison goes to.
-/

namespace DerivedTables

def Comparison.judge (agree all : Prop) [Decidable agree] [Decidable all] : Comparison :=
  if agree then if all then equal else undecided else different

theorem Comparison.judge_and (p q p' q' : Prop) [Decidable p] [Decidable q] [Decidable p'] [Decidable q'] :
    (judge p q).and (judge p' q') = judge (p ∧ p') (q ∧ q') := by
  by_cases p <;> by_cases q <;> by_cases p' <;> by_cases q' <;> simp [judge, Comparison.and, *]

namespace Ty

mutual
/-- The type without the names of parameters, each let as what it goes on with. -/
def bare : Ty → Ty
  | function params returns => function (bareFields (fun _ => "") params) returns.bare
  | object fields => object (bareFields id fields)
  | array element => array element.bare
  | binding _ next => next.bare
  | ty => ty
def bareFields (called : String → String) : Fields → Fields
  | .nil => .nil
  | .cons name ty rest => .cons (called name) ty.bare (bareFields called rest)
end

mutual
/-- How many types stand inside each other at most, lets not counted. -/
def depth : Ty → Nat
  | function params returns => max (fieldsDepth params) returns.depth + 1
  | object fields => fieldsDepth fields + 1
  | array element => element.depth + 1
  | binding _ next => next.depth
  | _ => 1
def fieldsDepth : Fields → Nat
  | .nil => 0
  | .cons _ ty rest => max ty.depth (fieldsDepth rest)
end

/-- The types are the same, up to names of parameters, as far as so many levels show them. -/
def AgreeTo : Nat → Ty → Ty → Prop
  | 0, _, _ => True
  | levels + 1, s, t =>
    s.effective.head = t.effective.head ∧ List.Forall₂ (AgreeTo levels) s.effective.parts t.effective.parts

instance decidableAgreeTo : (levels : Nat) → (s t : Ty) → Decidable (AgreeTo levels s t)
  | 0, _, _ => .isTrue trivial
  | levels + 1, _, _ =>
    have := decidableAgreeTo levels
    inferInstanceAs (Decidable (_ ∧ _))

theorem AgreeTo.symm {levels : Nat} {s t : Ty} (agree : AgreeTo levels s t) : AgreeTo levels t s := by
  induction levels generalizing s t with
  | zero => trivial
  | succ levels ih => exact ⟨agree.1.symm, (agree.2.imp fun _ _ => ih).flip⟩

theorem bare_effective (s : Ty) : s.effective.bare = s.bare := by
  induction s using effective.induct with
  | case1 value next ih => rw [effective, ih, bare]
  | case2 s other => rw [effective]; exact other

theorem depth_effective (s : Ty) : s.effective.depth = s.depth := by
  induction s using effective.induct with
  | case1 value next ih => rw [effective, ih, depth]
  | case2 s other => rw [effective]; exact other

theorem bareFields_eq {called : String → String} {xs ys : Fields} : bareFields called xs = bareFields called ys ↔
    xs.names.map called = ys.names.map called ∧ xs.types.map bare = ys.types.map bare :=
  match xs, ys with
  | .nil, .nil => by simp
  | .nil, .cons .. | .cons .., .nil => by simp [bareFields]
  | .cons _ _ rest, .cons _ _ others => by simp [bareFields, @bareFields_eq called rest others]; tauto

theorem fieldsDepth_le {fields : Fields} {n : Nat} : fieldsDepth fields ≤ n ↔ ∀ x ∈ fields.types, x.depth ≤ n :=
  match fields with
  | .nil => by simp [fieldsDepth]
  | .cons _ _ rest => by simp [fieldsDepth, Nat.max_le, @fieldsDepth_le rest n]

mutual
theorem depth_bare (s : Ty) : s.bare.depth = s.depth := by
  match s with
  | function params returns => rw [bare, depth, depth, fieldsDepth_bareFields, returns.depth_bare]
  | object fields => rw [bare, depth, depth, fieldsDepth_bareFields]
  | array element => rw [bare, depth, depth, element.depth_bare]
  | binding _ next => rw [bare, depth, next.depth_bare]
  | string | number | boolean | named _ | context _ | unknown | void => rfl
theorem fieldsDepth_bareFields (called : String → String) (fields : Fields) :
    fieldsDepth (bareFields called fields) = fieldsDepth fields := by
  match fields with
  | .nil => rfl
  | .cons _ ty rest => rw [bareFields, fieldsDepth, fieldsDepth, ty.depth_bare, fieldsDepth_bareFields called rest]
end

theorem depth_le_succ {s : Ty} {n : Nat} (plain : s.head ≠ .binding) :
    s.depth ≤ n + 1 ↔ ∀ x ∈ s.parts, x.depth ≤ n := by
  cases s with
  | function params returns => simp [depth, parts, Nat.max_le, fieldsDepth_le, and_comm]
  | object fields => simp [depth, parts, fieldsDepth_le]
  | array element => simp [depth, parts]
  | binding => exact (plain rfl).elim
  | _ => simp [depth, parts]

theorem depth_pos (s : Ty) : 0 < s.depth := by
  match s with
  | binding _ next => exact next.depth_pos
  | function .. | object _ | array _ => exact Nat.succ_pos _
  | string | number | boolean | named _ | context _ | unknown | void => exact Nat.one_pos

theorem bare_eq_bare {s t : Ty} (left : s.head ≠ .binding) (right : t.head ≠ .binding) :
    s.bare = t.bare ↔ s.head = t.head ∧ s.parts.map bare = t.parts.map bare := by
  cases s with
  | binding => exact (left rfl).elim
  | _ => cases t with
    | binding => exact (right rfl).elim
    | _ => simp [bare, head, parts, bareFields_eq, List.map_const', and_assoc, and_comm]

theorem agreeTo_iff {levels : Nat} {s t : Ty} (shallow : s.depth ≤ levels) : AgreeTo levels s t ↔ s.bare = t.bare := by
  induction levels generalizing s t with
  | zero => exact absurd shallow (Nat.not_le.2 s.depth_pos)
  | succ levels ih =>
    have plain := s.head_effective_ne_binding
    rw [← depth_effective, depth_le_succ plain] at shallow
    rw [← bare_effective s, ← bare_effective t, bare_eq_bare plain t.head_effective_ne_binding, AgreeTo,
      ← List.forall₂_eq_eq_eq, List.forall₂_map_left_iff, List.forall₂_map_right_iff]
    refine and_congr_right fun _ => ⟨fun agree => ?_, fun same => ?_⟩
    · exact ((List.forall₂_and_left _ _).2 ⟨shallow, agree⟩).imp fun x y both => (ih both.1).1 both.2
    · exact ((List.forall₂_and_left _ _).2 ⟨shallow, same⟩).imp fun x y both => (ih both.1).2 both.2

/-- Nothing is open, and no table is named. -/
structure Definite (s : Ty) : Prop where
  complete : s.isComplete = true
  unnamed : s.namedTables = []

theorem Definite.effective {s : Ty} (definite : s.Definite) : s.effective.Definite := by
  match s with
  | binding value next =>
    obtain ⟨complete, unnamed⟩ := definite
    simp only [isComplete, Bool.and_eq_true, namedTables, List.append_eq_nil_iff] at complete unnamed
    exact Definite.effective (s := next) ⟨complete.2, unnamed.2⟩
  | string | number | boolean | named _ | context _ | unknown | void | function .. | object _ | array _ => exact definite

theorem definite_types {fields : Fields} (complete : allComplete fields = true) (unnamed : fieldTables fields = []) :
    ∀ x ∈ fields.types, x.Definite := by
  match fields with
  | .nil => simp
  | .cons _ _ rest =>
    simp only [allComplete, Bool.and_eq_true, fieldTables, List.append_eq_nil_iff] at complete unnamed
    simpa using ⟨⟨complete.1, unnamed.1⟩, definite_types complete.2 unnamed.2⟩

theorem Definite.head_ne_unknown {s : Ty} (definite : s.Definite) : s.head ≠ .unknown := by
  cases s with
  | unknown => cases definite.complete
  | _ => nofun

theorem length_parts {s t : Ty} (same : s.head = t.head) : s.parts.length = t.parts.length := by
  have types (fields : Fields) : fields.types.length = fields.names.length := by simp [Fields.types, Fields.names]
  cases s <;> cases t <;> simp_all [head, parts]

theorem Definite.parts {s : Ty} (definite : s.Definite) : ∀ x ∈ s.parts, x.Definite := by
  obtain ⟨complete, unnamed⟩ := definite
  cases s with
  | function params returns =>
    simp only [isComplete, Bool.and_eq_true, namedTables, List.append_eq_nil_iff] at complete unnamed
    simpa [Ty.parts] using ⟨⟨complete.2, unnamed.2⟩, definite_types complete.1 unnamed.1⟩
  | object fields => exact definite_types complete unnamed
  | array element => simpa [Ty.parts] using ⟨complete, unnamed⟩
  | _ => simp [Ty.parts]

end Ty

namespace Resolution

open Ty

theorem all_judged {n : Nat} {agree : Ty → Ty → Prop} [∀ x y, Decidable (agree x y)] {f : Ty → Ty → Comparison} {xs ys : List Ty}
    (paired : xs.length = ys.length) (each : ∀ x ∈ xs, ∀ y ∈ ys, f x y = .judge (agree x y) (x.depth ≤ n)) :
    Comparison.all (List.zipWith f xs ys) = .judge (List.Forall₂ agree xs ys) (∀ x ∈ xs, x.depth ≤ n) := by
  induction xs generalizing ys with
  | nil =>
    obtain rfl := List.length_eq_zero_iff.1 paired.symm
    simp [Comparison.all, Comparison.judge]
  | cons x xs ih =>
    obtain _ | ⟨y, ys⟩ := ys
    · cases paired
    · have rest := ih (Nat.succ.inj paired) fun x xIn y yIn => each x (.tail _ xIn) y (.tail _ yIn)
      rw [List.zipWith_cons_cons, Comparison.all, rest, each x (.head _) y (.head _), Comparison.judge_and]
      simp only [List.forall₂_cons, List.forall_mem_cons]

theorem compareWithin_definite (r : Resolution) (a : Arena) (scope : ScopeId) (fuel : Nat) {s t : Ty} (left : s.Definite)
    (right : t.Definite) :
    r.compareWithin a scope fuel s.effective t.effective = .judge (AgreeTo fuel s t) (s.depth ≤ fuel) := by
  induction fuel generalizing s t with
  | zero =>
    have deep : ¬ s.depth ≤ 0 := Nat.not_le.2 s.depth_pos
    simp [Comparison.judge, AgreeTo, deep, compareWithin]
  | succ fuel ih =>
    have left := left.effective
    have right := right.effective
    have plain := s.head_effective_ne_binding
    cases r.meet a scope plain t.head_effective_ne_binding with
    | undecided isOpen => exact (isOpen.elim left.head_ne_unknown right.head_ne_unknown).elim
    | rows table fields sides =>
      obtain ⟨named, -⟩ | ⟨-, named⟩ := sides
      · rw [named] at left
        cases left.unnamed
      · rw [named] at right
        cases right.unnamed
    | heads _ _ _ gives =>
      rw [gives]
      split
      · rename_i same
        rw [all_judged (n := fuel) (length_parts same) fun x xIn y yIn => ih (left.parts x xIn) (right.parts y yIn)]
        simp only [AgreeTo, same, true_and, ← depth_le_succ plain, depth_effective]
      · rename_i apart
        simp [Comparison.judge, AgreeTo, apart]

/-- Types in which nothing is open and no table is named are told apart or found the same, up to names of
parameters and to lets, if one of them ends within the depth of the comparison. Two deeper ones differ if
they differ that far, and are undecided otherwise. -/
theorem compare_definite (r : Resolution) (a : Arena) (scope : ScopeId) {s t : Ty} (left : s.Definite)
    (right : t.Definite) : r.compare a s t scope = if s.depth ≤ compareDepth ∨ t.depth ≤ compareDepth then if s.bare =
    t.bare then .equal else .different else if s.AgreeTo compareDepth t then .undecided else .different := by
  rw [compare, compareWithin_definite r a scope compareDepth left right, Comparison.judge]
  by_cases shallow : s.depth ≤ compareDepth
  · simp [shallow, agreeTo_iff shallow]
  · by_cases shallow' : t.depth ≤ compareDepth
    · have apart : s.bare ≠ t.bare := fun same => shallow (by rwa [← depth_bare, same, depth_bare])
      have apart' : ¬ s.AgreeTo compareDepth t := fun agree => apart ((agreeTo_iff shallow').1 agree.symm).symm
      simp [shallow', apart, apart']
    · simp [shallow, shallow']

def nestedArray : Nat → Ty
  | 0 => .number
  | n + 1 => .array (nestedArray n)

/-- Seventeen levels are looked at, whatever the name of the parameter and behind a let. -/
theorem nestedArray_function_equal :
    Resolution.initial.compare .empty (.function (.ofList [("x", nestedArray 15)]) .number)
      (.binding .string (.function (.ofList [("y", nestedArray 15)]) .number)) Scopes.outermost = .equal := by
  rw [compare_definite _ _ _ ⟨by decide, by decide⟩ ⟨by decide, by decide⟩]
  decide

/-- One level more, and a type is not found the same as itself. -/
theorem nestedArray_undecided : (nestedArray 17).Definite ∧
    Resolution.initial.compare .empty (nestedArray 17) (nestedArray 17) Scopes.outermost = .undecided :=
  ⟨⟨by decide, by decide⟩, by decide⟩

end Resolution

end DerivedTables
