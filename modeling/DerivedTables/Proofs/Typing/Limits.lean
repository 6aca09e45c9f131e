import DerivedTables.Proofs.Typing.FixedPoint

/-!
The limit on passes decides whether there is an answer, and never which.
-/

namespace DerivedTables

namespace Typing

open Pass

variable (env : Resolution) (root : NodeId)

theorem settle_limit (remaining more passes : Nat) (w : Workspace Bool) :
    (∀ total w', settle env root remaining passes w = .ok total w' → total ≤ passes + remaining ∧
      settle env root (remaining + more) passes w = .ok total w') ∧
    ∀ e w', settle env root remaining passes w = .error e w' → e = .noFixedPoint (passes + remaining) ∨
      Decisive e ∧ settle env root (remaining + more) passes w = .error e w' := by
  induction remaining generalizing passes w with
  | zero =>
    refine ⟨(fun _ _ done => by cases done), fun e w' failed => ?_⟩
    cases failed
    exact .inl rfl
  | succ remaining ih =>
    rw [Nat.succ_add, settle_succ, settle_succ]
    have pass := pass_leaves env root ⟨w.arena, false⟩
    rw [Leaves] at pass
    cases walked : (Visitor.leaving (retype env)).walk root () ⟨w.arena, false⟩ with
    | error e w₁ =>
      refine ⟨(fun _ _ done => by cases done), fun e w' failed => ?_⟩
      cases failed
      rw [walked] at pass
      exact .inr ⟨pass.1, rfl⟩
    | ok r w₁ =>
      dsimp only
      split
      · have later := ih (passes + 1) w₁
        rwa [Nat.add_assoc, Nat.add_comm 1] at later
      · refine ⟨fun total w' done => ?_, fun _ _ failed => by cases failed⟩
        cases done
        exact ⟨by omega, rfl⟩

/-- A run that ends in types, or in an error other than that of too few passes, ends the same way under every larger
limit. Too few passes are as many as the limit allows, and one if it allows none. -/
theorem assignTypes_limit {limit larger : Nat} (le : limit ≤ larger) (w : Workspace Bool) :
    (∀ passes w', assignTypes env root limit w = .ok passes w' →
      passes ≤ max limit 1 ∧ assignTypes env root larger w = .ok passes w') ∧
    ∀ e w', assignTypes env root limit w = .error e w' → e = .noFixedPoint (max limit 1) ∨
      (∀ passes, e ≠ .noFixedPoint passes) ∧ assignTypes env root larger w = .error e w' := by
  obtain ⟨more, enough⟩ : ∃ more, max larger 1 = max limit 1 + more := ⟨max larger 1 - max limit 1, by omega⟩
  obtain ⟨settled, unsettled⟩ := settle_limit env root (max limit 1) more 0 w
  rw [← enough, Nat.zero_add] at settled unsettled
  refine ⟨fun passes w' done => ?_, fun e w' failed => ?_⟩
  · obtain ⟨total, w₁, first, done⟩ := bind_eq_ok.1 done
    obtain ⟨_, w₂, complete, last⟩ := bind_eq_ok.1 done
    cases last
    obtain ⟨few, same⟩ := settled _ _ first
    refine ⟨few, ?_⟩
    rw [assignTypes, bind_of_ok same, bind_of_ok complete]
    rfl
  · cases first : settle env root (max limit 1) 0 w with
    | error e₁ w₁ =>
      rw [assignTypes, bind_of_error first] at failed
      cases failed
      obtain few | ⟨other, same⟩ := unsettled _ _ first
      · exact .inl few
      · refine .inr ⟨other, ?_⟩
        rw [assignTypes, bind_of_error same]
    | ok total w₁ =>
      rw [assignTypes, bind_of_ok first] at failed
      have completes := complete_leaves root w₁
      rw [Leaves] at completes
      cases complete : (Visitor.leaving requireComplete).walk root () w₁ with
      | ok r w₂ =>
        rw [bind_of_ok (discard_of_ok complete)] at failed
        cases failed
      | error e₂ w₂ =>
        have same := failed
        rw [bind_of_error (discard_of_error complete)] at failed
        cases failed
        rw [complete] at completes
        refine .inr ⟨completes.1, ?_⟩
        rw [assignTypes, bind_of_ok (settled _ _ first).2]
        exact same

/-- One literal: the first pass gives it its type, the second finds nothing to do. -/
theorem literal_limit : (assignTypes .initial 0 1 ⟨⟨#[⟨.boolean true, none, none⟩]⟩, false⟩ =
        .error (.noFixedPoint 1) ⟨⟨#[⟨.boolean true, some .boolean, none⟩]⟩, true⟩) ∧
      assignTypes .initial 0 5 ⟨⟨#[⟨.boolean true, none, none⟩]⟩, false⟩ =
        .ok 2 ⟨⟨#[⟨.boolean true, some .boolean, none⟩]⟩, false⟩ := by
  refine ⟨rfl, ((assignTypes_limit .initial 0 (by decide : 2 ≤ 5) _).1 2 _ ?_).2⟩
  rfl

end Typing

end DerivedTables
