import DerivedTables.Proofs.Rows.Leaving

/-!
What holds of trees and is handed on to whatever recognition makes of them.
-/

namespace DerivedTables

open Tree

variable {a d : Arena} {t t' : Tree}

def Kind.isMadeOfRows : Kind → Bool
  | number .. | boolean .. | binary .. | conditional .. | reference .. | param .. | function .. | filter .. | pipeline ..
  | reduce .. | dataset .. | intent .. => true
  | _ => false

structure Inherited (P : Tree → Prop) : Prop where
  made : ∀ {id : NodeId} {k : Kind} {parts : List Tree}, k.isMadeOfRows = true → (∀ s ∈ parts, P s) → P (.node id k parts)
  part : ∀ {t s : Tree}, P t → s ∈ t.parts → P s
  renamed : ∀ {a c : Arena} {nodes : List NodeId} {f : NodeId → NodeId} {t : Tree}, Rendered a nodes c f → P t →
    t.StandsIn a → (∀ x ∈ t.ids, x ∈ nodes) → P (t.renamed c f)

namespace Inherited

variable {P : Tree → Prop} (inherited : Inherited P)
include inherited

theorem within {s : Tree} (holds : P t) (stands : t.StandsIn a) (standing : s.StandsIn a) (inside : s.id ∈ t.ids) : P s := by
  induction t with
  | node id kind parts ih =>
    obtain top | below := List.mem_cons.1 inside
    · obtain rfl := standing.unique stands top
      exact holds
    · obtain ⟨u, part, below⟩ := mem_idsOf.1 below
      exact ih u part (inherited.part holds part) (stands.child part) below

theorem copy {redirects : Redirects} (holds : P t) (stands : t.StandsIn a) (copied : t.Copy a d redirects t') : P t' := by
  obtain ⟨f, copies, rfl⟩ := copied
  exact inherited.renamed copies.rendered holds stands fun _ inside => inside

theorem assembled {L : Type} {leaf : L → Ty → Tree → Prop} {φ : Formula L} {ty : Ty} (assembled : Assembled d leaf φ ty t)
    (leaves : ∀ l ty t, leaf l ty t → P t) : P t := by
  induction assembled with
  | leaf here => exact leaves _ _ _ here
  | number => exact inherited.made rfl (by simp)
  | binary _ _ _ _ left right => exact inherited.made rfl (by simpa using ⟨left, right⟩)
  | conditional _ _ _ _ asked first second => exact inherited.made rfl (by simpa using ⟨asked, first, second⟩)

theorem use {slot : Slot} (use : slot.Use d t) : P t := by
  obtain ⟨id, rfl, -⟩ := use
  exact inherited.made rfl (by simp)

theorem function {slots : List Slot} {body : Tree} (wraps : Slot.FunctionOver d slots body t) (inside : P body) : P t := by
  obtain ⟨name, shape⟩ := wraps.shape
  rw [shape]
  refine inherited.made rfl (List.forall_mem_append.2 ⟨fun s part => ?_, by simpa using inside⟩)
  obtain ⟨slot, -, rfl⟩ := List.mem_map.1 part
  exact inherited.made rfl (by simp)

section

variable {fold : Fold} {p q s forward inverse view : Tree} {ty : Ty} (planted : fold.Planted a p q s) (body : P s)
include planted body

theorem reworked {operands : Ty} {φ : Formula Fold.Leaf} (reworked : fold.Reworked a d operands φ t) : P t := by
  obtain ⟨acc, row, _, -, -, wraps, assembled⟩ := reworked
  refine inherited.function wraps (inherited.assembled assembled ?_)
  rintro _ _ _ (used | ⟨listed, o, same, stands, copied⟩)
  · exact inherited.use used
  · obtain ⟨o', same', -, inside, -⟩ := planted.operand listed
    refine inherited.copy (inherited.within body planted.body_stands stands ?_) stands copied
    rw [same, ← same']
    exact inside.subset o'.id_mem_ids

theorem repeated (repeated : fold.Repeated a d t) : P t := by
  obtain ⟨acc, row, s', _, -, -, wraps, same, stands, copied⟩ := repeated
  obtain rfl := planted.body_stands.unique stands (planted.body.trans same.symm)
  exact inherited.function wraps (inherited.copy body stands copied)

theorem functions (functions : fold.Functions a d forward inverse view ty) : P forward ∧ P inverse ∧ P view := by
  have shown {φ : Formula Unit} (shown : Fold.Shown d φ ty view) : P view := by
    obtain ⟨acc, _, -, wraps, assembled⟩ := shown
    exact inherited.function wraps (inherited.assembled assembled fun _ _ _ here => inherited.use here.2)
  cases functions with
  | numeric _ first second third =>
    exact ⟨inherited.repeated planted body first, inherited.reworked planted body second, shown third⟩
  | boolean _ first second third =>
    exact ⟨inherited.reworked planted body first, inherited.reworked planted body second, shown third⟩

end

variable {function source initial : Tree}

theorem aggregated (aggregated : Rows.Aggregated a d function source initial t') (stands : function.StandsIn a)
    (below : P source) (inside : P function) (first : P initial) : P t' := by
  obtain ⟨fold, p, q, s, start, forward, inverse, view, ty, made, node, planted, -, -, functions, started, -, rfl⟩ :=
    aggregated
  obtain ⟨name, standing⟩ := planted.stands
  obtain rfl := stands.unique standing node.symm
  obtain ⟨forward', inverse', view'⟩ := inherited.functions planted (inherited.part inside (by simp)) functions
  have start' : P start := by
    cases started with
    | number => exact first
    | boolean counted =>
      refine inherited.assembled counted ?_
      rintro _ _ _ ⟨-, rfl⟩
      exact first
  exact inherited.made rfl (by simpa using ⟨below, start', forward', inverse', view'⟩)

theorem called {node : NodeId} {member : RowMember} {args : List Tree} (called : Rows.Called a d node source member args t')
    (stand : ∀ t ∈ args, t.StandsIn a) (below : P source) (each : ∀ t ∈ args, P t) : P t' := by
  cases called with
  | filter made =>
    have stage (id predicate : NodeId) : P (.node id (.filter predicate) [_]) := inherited.made rfl each
    cases made with
    | first => exact inherited.made rfl (by simpa using ⟨below, stage _ _⟩)
    | next =>
      exact inherited.made rfl (List.forall_mem_append.2 ⟨fun _ => inherited.part below, by simpa using stage _ _⟩)
  | @includes _ _ _ _ param body _ _ asked _ stands _ _ made =>
    obtain ⟨acc, row, use, holds, id, -, -, wraps, used, copied, -⟩ := asked
    have standing := (stand _ (List.mem_singleton.2 rfl)).child (s := body) (by simp)
    have holds' := inherited.copy (inherited.part (each _ (List.mem_singleton.2 rfl)) (by simp)) standing copied
    have asks : P (.node id (.binary .or use.id holds.id) [use, holds]) :=
      inherited.made rfl (by simpa using ⟨inherited.use used, holds'⟩)
    exact inherited.aggregated made stands below (inherited.function wraps asks) (inherited.made rfl (by simp))
  | reduce made => exact inherited.aggregated made (stand _ (by simp)) below (each _ (by simp)) (each _ (by simp))

end Inherited

end DerivedTables
