import DerivedTables.Eval.Maintenance
import DerivedTables.Proofs.Eval.Settled

/-!
Maintaining an aggregate, and folding anew.
-/

namespace DerivedTables

variable {N : Type}

def Change.row : Change N → Value N
  | insert row | delete row => row

/-- From the first rows, in order of insertion, the changes lead to the last ones. A deletion takes
one row that may go, given those that came after it and are still there. -/
inductive PresentWhere (may : Value N → List (Value N) → Prop) :
    List (Value N) → List (Change N) → List (Value N) → Prop
  | done (rows : List (Value N)) : PresentWhere may rows [] rows
  | insert {rows last : List (Value N)} {row : Value N} {changes : List (Change N)}
    (rest : PresentWhere may (rows ++ [row]) changes last) :
    PresentWhere may rows (.insert row :: changes) last
  | delete {before after last : List (Value N)} {row : Value N} {changes : List (Change N)}
    (allowed : may row after) (rest : PresentWhere may (before ++ after) changes last) :
    PresentWhere may (before ++ row :: after) (.delete row :: changes) last

/-- Any row that is there may go. -/
abbrev Present : List (Value N) → List (Change N) → List (Value N) → Prop :=
  PresentWhere fun _ _ => True

theorem PresentWhere.subset {may : Value N → List (Value N) → Prop} {rows last : List (Value N)}
    {changes : List (Change N)} (present : PresentWhere may rows changes last) :
    ∀ row ∈ last, row ∈ rows ∨ ∃ change ∈ changes, change.row = row := by
  induction present with
  | done => exact fun row => .inl
  | insert _ ih =>
    intro row held
    obtain held | ⟨change, listed, same⟩ := ih row held
    · obtain held | isNew := List.mem_append.1 held
      · exact .inl held
      · exact .inr ⟨_, List.mem_cons_self, (List.mem_singleton.1 isNew).symm⟩
    · exact .inr ⟨change, List.mem_cons_of_mem _ listed, same⟩
  | delete _ _ ih =>
    intro row held
    obtain held | ⟨change, listed, same⟩ := ih row held
    · refine .inl ?_
      simp only [List.mem_append, List.mem_cons] at held ⊢
      exact held.imp_right .inr
    · exact .inr ⟨change, List.mem_cons_of_mem _ listed, same⟩

variable [Arithmetic N]

/-- Folding the rows into a value, one call after the other. -/
inductive FoldsTo (s : Setting N) (function : NodeId) : Value N → List (Value N) → Value N → Prop
  | done (value : Value N) : FoldsTo s function value [] value
  | row {value next last row : Value N} {rows : List (Value N)}
    (called : s.Calls function [value, row] next) (rest : FoldsTo s function next rows last) :
    FoldsTo s function value (row :: rows) last

namespace Aggregate

/-- Inserted rows go through the forward function, deleted ones through the inverse. -/
inductive Maintains (s : Setting N) (g : Aggregate) : Value N → List (Change N) → Value N → Prop
  | done (acc : Value N) : Maintains s g acc [] acc
  | insert {acc next last row : Value N} {changes : List (Change N)}
    (called : s.Calls g.forward [acc, row] next) (rest : Maintains s g next changes last) :
    Maintains s g acc (.insert row :: changes) last
  | delete {acc next last row : Value N} {changes : List (Change N)}
    (called : s.Calls g.inverse [acc, row] next) (rest : Maintains s g next changes last) :
    Maintains s g acc (.delete row :: changes) last

/-- What is shown after the changes, from the aggregate's own start. -/
def Shows (s : Setting N) (g : Aggregate) (changes : List (Change N)) (shown : Value N) : Prop :=
  ∃ start acc, s.Evaluates ∅ g.initial start ∧ g.Maintains s start changes acc ∧
    s.Calls g.view [acc] shown

end Aggregate

end DerivedTables
