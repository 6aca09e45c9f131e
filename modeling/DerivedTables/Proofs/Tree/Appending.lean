import DerivedTables.Proofs.Tree.Tour
import DerivedTables.Proofs.Tree.WellFormed
import DerivedTables.Tree.Copy

/-!
Runs that put new nodes after those there are and change nothing else.
-/

namespace DerivedTables

namespace Arena

variable {a b c : Arena}

/-- `b` is `a` with more nodes after it. -/
structure Precedes (a b : Arena) : Prop where
  size : a.size ≤ b.size
  node : ∀ {x}, x < a.size → b.node? x = a.node? x

theorem Precedes.refl (a : Arena) : a.Precedes a := ⟨le_rfl, fun _ => rfl⟩

theorem Precedes.trans (first : a.Precedes b) (second : b.Precedes c) : a.Precedes c where
  size := first.size.trans second.size
  node below := (second.node (below.trans_le first.size)).trans (first.node below)

theorem Precedes.kinds (precedes : a.Precedes b) : a.Extends b :=
  ⟨precedes.size, fun below => congrArg (Option.map Node.kind) (precedes.node below)⟩

theorem precedes_push (a : Arena) (node : Node) : a.Precedes (a.push node) where
  size := by simp
  node below := by rw [node?_push, if_neg (Nat.ne_of_lt below)]

theorem Precedes.modify (precedes : a.Precedes b) {x : NodeId} (beyond : a.size ≤ x)
    (change : Node → Node) : a.Precedes (b.modify x change) where
  size := by simpa using precedes.size
  node {y} below := by
    rw [node?_modify, if_neg (below.trans_le beyond).ne', precedes.node below]

theorem TreeWithin.extend {d : Nat} {id : NodeId} (tree : a.TreeWithin d id) (grown : a.Extends b) :
    b.TreeWithin d id := by
  induction d generalizing id with
  | zero => exact tree.elim
  | succ d ih =>
    obtain ⟨k, held, below⟩ := tree
    exact ⟨k, grown.kind_of_some held, fun child isChild => ih (below child isChild)⟩

structure Retains (a b : Arena) : Prop where
  kinds : a.Extends b
  ty : ∀ {x}, x < a.size → b.ty? x = a.ty? x

theorem Retains.refl (a : Arena) : a.Retains a := ⟨.refl a, fun _ => rfl⟩

theorem Retains.trans (first : a.Retains b) (second : b.Retains c) : a.Retains c where
  kinds := first.kinds.trans second.kinds
  ty below := (second.ty (below.trans_le first.kinds.size)).trans (first.ty below)

theorem Precedes.retains (precedes : a.Precedes b) : a.Retains b :=
  ⟨precedes.kinds, fun below => congrArg (Option.bind · Node.ty) (precedes.node below)⟩

theorem retains_push (a : Arena) (node : Node) : a.Retains (a.push node) := (a.precedes_push node).retains

theorem retains_setSpan (a : Arena) (x : NodeId) (span : Option Span) : a.Retains (a.setSpan x span) where
  kinds := a.extends_setSpan x span
  ty {y} _ := by
    simp only [ty?, setSpan, node?_modify]
    split
    · rw [Option.bind_map]
      rfl
    · rfl

theorem ty?_push_size (a : Arena) (node : Node) : (a.push node).ty? a.size = node.ty := by
  simp [ty?, node?_push]

end Arena

namespace Pass

variable {ε ω α β : Type} {w : Workspace ω}

def Adds (m : Pass ε ω α) (w : Workspace ω) : Prop :=
  ∃ x w', m w = .ok x w' ∧ w'.notes = w.notes ∧ w.arena.Precedes w'.arena

namespace Adds

theorem pure (x : α) : Adds (pure x : Pass ε ω α) w := ⟨x, w, rfl, rfl, .refl _⟩

theorem push (node : Node) : Adds (Pass.push node : Pass ε ω NodeId) w :=
  ⟨_, _, push_run node w, rfl, w.arena.precedes_push node⟩

theorem bind {m : Pass ε ω α} {f : α → Pass ε ω β} (first : Adds m w)
    (second : ∀ x w', w.arena.Precedes w'.arena → Adds (f x) w') : Adds (m >>= f) w := by
  obtain ⟨x, w₁, ran, notes, precedes⟩ := first
  obtain ⟨y, w₂, ran', notes', precedes'⟩ := second x w₁ precedes
  exact ⟨y, w₂, (bind_of_ok ran).trans ran', notes'.trans notes, precedes.trans precedes'⟩

theorem arena {f : Arena → Pass ε ω β} (rest : Adds (f w.arena) w) : Adds (Pass.arena >>= f) w := rest

end Adds

def AddsNode (m : Pass ε ω NodeId) (w : Workspace ω) : Prop :=
  ∃ x w', m w = .ok x w' ∧ w'.notes = w.notes ∧ w.arena.Precedes w'.arena ∧ w.arena.size ≤ x

namespace AddsNode

theorem push (node : Node) : AddsNode (Pass.push node : Pass ε ω NodeId) w :=
  ⟨_, _, push_run node w, rfl, w.arena.precedes_push node, le_rfl⟩

theorem bind {m : Pass ε ω α} {f : α → Pass ε ω NodeId} (first : Adds m w)
    (second : ∀ x w', w.arena.Precedes w'.arena → AddsNode (f x) w') : AddsNode (m >>= f) w := by
  obtain ⟨x, w₁, ran, notes, precedes⟩ := first
  obtain ⟨y, w₂, ran', notes', precedes', fresh⟩ := second x w₁ precedes
  exact ⟨y, w₂, (bind_of_ok ran).trans ran', notes'.trans notes, precedes.trans precedes',
    precedes.size.trans fresh⟩

theorem spanned {m : Pass ε ω NodeId} (adds : AddsNode m w) (span : Option Span) : AddsNode (m >>= fun made => do
      Pass.modifyArena (Arena.setSpan · made span) return made) w := by
  obtain ⟨x, w', ran, notes, precedes, fresh⟩ := adds
  exact ⟨x, _, bind_of_ok ran, notes, precedes.modify fresh _, fresh⟩

end AddsNode

end Pass

end DerivedTables
