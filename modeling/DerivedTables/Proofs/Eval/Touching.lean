import DerivedTables.Proofs.Eval.Settled

/-!
Evaluation with an account of what it binds.
-/

namespace DerivedTables

variable {N : Type}

def Bindings.AgreeOff (ids : List NodeId) (ρ ρ' : Bindings N) : Prop := ∀ x ∉ ids, ρ'[x]? = ρ[x]?

namespace Bindings.AgreeOff

variable {ids more : List NodeId} {ρ ρ' ρ'' : Bindings N}

theorem refl (ids : List NodeId) (ρ : Bindings N) : AgreeOff ids ρ ρ := fun _ _ => rfl

theorem trans (first : AgreeOff ids ρ ρ') (second : AgreeOff ids ρ' ρ'') : AgreeOff ids ρ ρ'' :=
  fun x outside => (second x outside).trans (first x outside)

theorem mono (agree : AgreeOff ids ρ ρ') (subset : ids ⊆ more) : AgreeOff more ρ ρ' :=
  fun x outside => agree x fun inside => outside (subset inside)

theorem insert {x : NodeId} (ρ : Bindings N) (v : Value N) (inside : x ∈ ids) : AgreeOff ids ρ (ρ.insert x v) := by
  intro y outside
  rw [Std.TreeMap.getElem?_insert, if_neg]
  rintro same
  have same : x = y := by simpa using same
  exact outside (same ▸ inside)

end Bindings.AgreeOff

namespace Setting

open Bindings

variable [Arithmetic N] {s : Setting N} {ρ : Bindings N} {id : NodeId} {v : Value N}
  {ids part : List NodeId}

structure Gives (s : Setting N) (ids : List NodeId) (ρ : Bindings N) (id : NodeId) (v : Value N) :
    Prop where
  run : ∃ depth ρ', AgreeOff ids ρ ρ' ∧ ∀ more, depth ≤ more → s.evalWithin more id ρ = .ok v ρ'

namespace Gives

theorem mono (gives : s.Gives part ρ id v) (subset : part ⊆ ids) : s.Gives ids ρ id v := by
  obtain ⟨depth, ρ', agree, done⟩ := gives.run
  exact ⟨depth, ρ', agree.mono subset, done⟩

theorem of_eval {ρ' : Bindings N} (depth : Nat) (agree : AgreeOff ids ρ ρ')
    (done : s.evalWithin depth id ρ = .ok v ρ') : s.Gives ids ρ id v :=
  ⟨depth, ρ', agree, fun _ enough => evalWithin_mono enough done⟩

theorem leaf (done : s.evalWithin 1 id ρ = .ok v ρ) : s.Gives ids ρ id v := of_eval 1 (.refl _ _) done

end Gives

section Operators

variable {op : Operator} {l r : NodeId} {eval : NodeId → Evaluation N (Value N)} {u w : Value N}
  {ρ₁ ρ₂ : Bindings N}

theorem binary_run (lhs : eval l ρ = .ok u ρ₁) (rhs : eval r ρ₁ = .ok w ρ₂) (combined : op.combine? u w = some v) :
    binary op l r eval ρ = .ok v ρ₁ ∨ binary op l r eval ρ = .ok v ρ₂ := by
  rw [binary_eq, bind_of_ok lhs]
  obtain done | ⟨rest, needs, given⟩ := op.half_of_combine? combined
  · rw [done]
    exact .inl rfl
  · rw [needs]
    exact .inr ((bind_of_ok rhs).trans (by rw [given]; rfl))

end Operators

namespace Gives

variable {lhs rhs next : NodeId} {u w : Value N} {first second : List NodeId}

theorem binary {op : Operator} (held : s.arena.kind? id = some (.binary op lhs rhs))
    (left : s.Gives first ρ lhs u) (right : ∀ ρ₁, AgreeOff first ρ ρ₁ → s.Gives second ρ₁ rhs w)
    (combined : op.combine? u w = some v) : s.Gives (first ++ second) ρ id v := by
  obtain ⟨d, ρ₁, agree, left⟩ := left.run
  obtain ⟨e, ρ₂, agree', right⟩ := (right ρ₁ agree).run
  have run := binary_run (left (max d e) (Nat.le_max_left d e)) (right (max d e) (Nat.le_max_right d e))
    combined
  have whole (ρ : Bindings N) : s.evalWithin (max d e + 1) id ρ =
      Setting.binary op lhs rhs (s.evalWithin (max d e)) ρ := by
    simp only [evalWithin, kind_of_kind? held, pure_bind]
  have agree := agree.mono (List.subset_append_left first second)
  obtain run | run := run
  · exact of_eval _ agree ((whole ρ).trans run)
  · exact of_eval _ (agree.trans (agree'.mono (List.subset_append_right _ _))) ((whole ρ).trans run)

theorem decided {op : Operator} (held : s.arena.kind? id = some (.binary op lhs rhs)) {b : Bool}
    (left : s.Gives ids ρ lhs (.boolean b)) (decides : op = .and ∧ b = false ∨ op = .or ∧ b = true) :
    s.Gives ids ρ id (.boolean b) := by
  obtain ⟨d, ρ₁, agree, left⟩ := left.run
  refine of_eval (d + 1) agree ?_
  simp only [evalWithin, kind_of_kind? held, pure_bind]
  rw [binary_eq, bind_of_ok (left d (Nat.le_refl _))]
  obtain ⟨rfl, rfl⟩ | ⟨rfl, rfl⟩ := decides <;> rfl

theorem conditional {c y n : NodeId} {b : Bool}
    (held : s.arena.kind? id = some (.conditional c y n)) (test : s.Gives first ρ c (.boolean b))
    (branch : ∀ ρ₁, AgreeOff first ρ ρ₁ → s.Gives second ρ₁ (if b then y else n) v) :
    s.Gives (first ++ second) ρ id v := by
  obtain ⟨d, ρ₁, agree, test⟩ := test.run
  obtain ⟨e, ρ₂, agree', branch⟩ := (branch ρ₁ agree).run
  refine of_eval (max d e + 1) ((agree.mono (List.subset_append_left _ _)).trans
    (agree'.mono (List.subset_append_right _ _))) ?_
  simp only [evalWithin, kind_of_kind? held, pure_bind]
  have test := test (max d e) (Nat.le_max_left d e)
  have branch := branch (max d e) (Nat.le_max_right d e)
  refine (bind_of_ok test).trans ?_
  cases b <;> exact branch

theorem access {source property : NodeId} {field : String} {fields : List (String × Value N)}
    (held : s.arena.kind? id = some (.access source property))
    (name : s.arena.kind? property = some (.identifier field))
    (object : s.Gives ids ρ source (.object fields)) (found : fields.lookup field = some v) : s.Gives ids ρ id v := by
  obtain ⟨d, ρ₁, agree, object⟩ := object.run
  refine of_eval (d + 1) agree ?_
  simp only [evalWithin, kind_of_kind? held, kind_of_kind? name, pure_bind]
  refine (bind_of_ok (object d (Nat.le_refl _))).trans ?_
  simp only [found]
  rfl

theorem reference {target : NodeId} {name : String}
    (held : s.arena.kind? id = some (.reference target name)) (bound : ρ[target]? = some v) : s.Gives ids ρ id v := by
  refine leaf ?_
  simp only [evalWithin, kind_of_kind? held, pure_bind]
  have read : (get : Evaluation N (Bindings N)) ρ = .ok ρ ρ := rfl
  rw [bind_of_ok read, bound]
  rfl

theorem effect {expr : NodeId} (held : s.arena.kind? id = some (.effect expr next)) (ignored : s.Gives first ρ expr u)
    (follows : ∀ ρ₁, AgreeOff first ρ ρ₁ → s.Gives second ρ₁ next v) : s.Gives (first ++ second) ρ id v := by
  obtain ⟨d, ρ₁, agree, ignored⟩ := ignored.run
  obtain ⟨e, ρ₂, agree', follows⟩ := (follows ρ₁ agree).run
  refine of_eval (max d e + 1) ((agree.mono (List.subset_append_left _ _)).trans
    (agree'.mono (List.subset_append_right _ _))) ?_
  simp only [evalWithin, kind_of_kind? held, pure_bind]
  exact (bind_of_ok (discard_of_ok (ignored (max d e) (Nat.le_max_left d e)))).trans
    (follows (max d e) (Nat.le_max_right d e))

theorem binding {name : String} {value : NodeId} (held : s.arena.kind? id = some (.binding name value next))
    (bound : s.Gives first ρ value u) (follows : ∀ ρ₁, AgreeOff first ρ ρ₁ → s.Gives second (ρ₁.insert id u) next v) :
    s.Gives (id :: (first ++ second)) ρ id v := by
  obtain ⟨d, ρ₁, agree, bound⟩ := bound.run
  obtain ⟨e, ρ₂, agree', follows⟩ := (follows ρ₁ agree).run
  have here : AgreeOff (id :: (first ++ second)) ρ₁ (ρ₁.insert id u) := .insert ρ₁ u (by simp)
  refine of_eval (max d e + 1) (((agree.mono (by simp)).trans here).trans
    (agree'.mono (by simp))) ?_
  simp only [evalWithin, kind_of_kind? held, pure_bind]
  have set : (bind id u : Evaluation N Unit) ρ₁ = .ok () (ρ₁.insert id u) := rfl
  exact (bind_of_ok (bound (max d e) (Nat.le_max_left d e))).trans
    ((bind_of_ok set).trans (follows (max d e) (Nat.le_max_right d e)))

end Gives

end Setting

end DerivedTables
