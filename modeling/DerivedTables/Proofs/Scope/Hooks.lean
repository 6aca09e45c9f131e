import DerivedTables.Proofs.Tree.Tour
import DerivedTables.Scope.Alias
import DerivedTables.Scope.Resolution

/-!
What the hooks of name resolution and of alias removal do to the tree.
-/

namespace DerivedTables

namespace Resolution

open Pass

theorem bind_reads (scope : ScopeId) (name : String) (node : NodeId) (leaf : Bool) :
    Reads (bind scope name node leaf) fun _ => True := by
  refine .bind .notes fun n _ => ?_
  split
  · exact .bind (.modifyNotes _) fun _ _ => .pure trivial
  · exact .throw _

theorem nested_reads (scope : ScopeId) : Reads (nested scope) fun _ => True :=
  .bind .notes fun _ _ => .bind (.modifyNotes _) fun _ _ => .pure trivial

theorem declare_reads (scope : ScopeId) (node : NodeId) : Reads (declare scope node) fun _ => True := by
  refine .bind (.kind node) fun k _ => ?_
  split
  · exact .bind (bind_reads ..) fun _ _ => .modifyNotes _
  · exact .pure trivial

theorem bindParams_reads (scope : ScopeId) (params : List NodeId) : Reads (bindParams scope params) fun _ => True := by
  refine .forM (fun param => .bind (.kind param) fun k _ => ?_) params
  split
  · exact .bind (bind_reads ..) fun _ _ => .pure trivial
  · exact .pure trivial

theorem enter_reads (node : NodeId) (lineage : Lineage) (scope : ScopeId) :
    Reads (enter node lineage scope) fun entry => entry.replacement = none := by
  refine .bind (.modifyNotes _) fun _ _ => .bind (.kind node) fun k _ => .bind .notes fun n _ => ?_
  split
  · exact .bind (.forM (declare_reads scope) _) fun _ _ => .pure rfl
  · exact .bind (.forM (declare_reads _) _) fun _ _ => .pure rfl
  · exact .pure rfl
  · exact .bind (bind_reads ..) fun _ _ => .pure rfl
  · exact .bind (bind_reads ..) fun _ _ => .pure rfl
  · exact .bind (bind_reads ..) fun _ _ => .pure rfl
  · exact .bind (nested_reads _) fun _ _ => .bind (bind_reads ..) fun _ _ => .pure rfl
  · exact .bind (bind_reads ..) fun _ _ => .pure rfl
  · split
    · exact .bind (bind_reads ..) fun _ _ => .bind (bindParams_reads ..) fun _ _ => .pure rfl
    · exact .bind (nested_reads _) fun _ _ => .bind (bindParams_reads ..) fun _ _ => .pure rfl
  · exact .pure rfl

variable {node : NodeId} {lineage : Lineage} {scope : ScopeId} {w w' : Workspace Notes}
  {result : Option NodeId}

theorem leave_cases (left : leave node lineage scope w = .ok result w') : result = none ∧ (w' = w ∨ ∃ name symbol,
    w.arena.kind? node = some (.identifier name) ∧ w' = { w with arena := w.arena.setKind node (.reference symbol name)
    }) := by
  obtain ⟨k, w₁, kind_read, rest⟩ := bind_eq_ok.1 left
  obtain ⟨rfl, held⟩ := kind_run kind_read
  split at rest
  · rename_i name
    rw [bind_of_ok (arena_run w₁)] at rest
    split at rest
    · cases rest
      exact ⟨rfl, .inl rfl⟩
    · obtain ⟨n, w₂, notes_read, found⟩ := bind_eq_ok.1 rest
      cases notes_read
      generalize lookup? w₁.arena _ scope name (node :: lineage) = binding at found
      cases binding with
      | none => cases found
      | some symbol =>
        cases found
        exact ⟨rfl, .inr ⟨name, symbol.node, held, rfl⟩⟩
  · cases rest
    exact ⟨rfl, .inl rfl⟩

theorem visitor_quiet : visitor.Quiet where
  before {id lineage state w entry w'} entered := by
    obtain ⟨same, stays⟩ := (enter_reads id lineage state).run entered
    rw [same]
    exact ⟨stays, .refl _⟩
  after left := by
    obtain ⟨rfl, rfl | ⟨name, symbol, held, rfl⟩⟩ := leave_cases left
    · exact ⟨rfl, .refl _⟩
    · refine ⟨rfl, fun x => ?_⟩
      simp only [Arena.kind?_setKind]
      split
      · rename_i same
        subst same
        simp [held, Kind.children]
      · rfl

end Resolution

namespace Alias

open Pass

variable {node : NodeId} {w w' : Workspace Aliases} {entry : Entry Unit}

theorem enter_cases (lineage : Lineage) (entered : enter node lineage () w = .ok entry w') :
    (∃ name value next target shown, w.arena.kind? node = some (.binding name value next) ∧
        w.arena.kind? value = some (.reference target shown) ∧ entry = .replace next ∧
        w' = { w with notes := w.notes.insert node (w.notes[target]?.getD ⟨target, shown⟩) }) ∨
      (∃ target shown stood, w.arena.kind? node = some (.reference target shown) ∧
        w.notes[target]? = some stood ∧ entry = .keep ∧
        w' = { w with arena := w.arena.setKind node (.reference stood.target stood.name) }) ∨
      (entry = .keep ∧ w' = w) := by
  obtain ⟨k, w₁, kind_read, rest⟩ := bind_eq_ok.1 entered
  obtain ⟨rfl, held⟩ := kind_run kind_read
  split at rest
  · rename_i name value next
    obtain ⟨l, w₂, value_read, going⟩ := bind_eq_ok.1 rest
    obtain ⟨rfl, value_held⟩ := kind_run value_read
    split at going
    · rename_i target shown
      cases going
      exact .inl ⟨name, value, next, target, shown, held, value_held, rfl, rfl⟩
    · cases going
      exact .inr (.inr ⟨rfl, rfl⟩)
  · rename_i target shown
    obtain ⟨n, w₂, notes_read, going⟩ := bind_eq_ok.1 rest
    cases notes_read
    cases found : w₁.notes[target]? with
    | none =>
      rw [found] at going
      cases going
      exact .inr (.inr ⟨rfl, rfl⟩)
    | some stood =>
      rw [found] at going
      cases going
      exact .inr (.inl ⟨target, shown, stood, held, found, rfl, rfl⟩)
  · cases rest
    exact .inr (.inr ⟨rfl, rfl⟩)

end Alias

end DerivedTables
