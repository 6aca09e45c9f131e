import DerivedTables.Proofs.Rows.Recognized

/-!
What recognition leaves. Below a node that it has left nothing asks for rows any more, and nothing
is a member of what has rows, also in the functions that were made from folds: their bodies are
copies of what was done before.
-/

namespace DerivedTables

open Tree

variable {a b d : Arena} {t t' : Tree} {ts us : List Tree} {f : NodeId → NodeId}

namespace Kind

def isIntent : Kind → Bool
  | intent .. => true
  | _ => false

def owner? : Kind → Option NodeId
  | access source _ => some source
  | _ => none

theorem Renames.isMarker {k l : Kind} (renames : Renames f k l) : l.isMarker = k.isMarker := by
  cases renames with
  | same => cases k <;> rfl
  | reference => rfl

theorem Renames.owner? {k l : Kind} (renames : Renames f k l) : l.owner? = k.owner?.map f := by
  cases renames with
  | same => cases k <;> rfl
  | reference => rfl

theorem Renames.hasRows {k l : Kind} (renames : Renames f k l) :
    l.isCollection = k.isCollection ∧ l.isAggregate = k.isAggregate := by
  cases renames with
  | same => cases k <;> exact ⟨rfl, rfl⟩
  | reference => exact ⟨rfl, rfl⟩

end Kind

/-- At the node no rows are asked for, no member waits for its call, and no member is one of a dataset, a
pipeline or an aggregate. -/
def Arena.isRecognized (a : Arena) (x : NodeId) : Bool :=
  (a.kind? x).all fun k => !k.isMarker && !k.isIntent &&
    (k.owner?.bind a.kind?).all fun source => !source.isCollection && !source.isAggregate

namespace Tree

inductive Clean : Tree → Prop
  | node {id : NodeId} {kind : Kind} {parts : List Tree} (unmarked : kind.isMarker = false)
    (member : kind.owner? ≠ none → ∀ s ∈ parts.head?, s.kind.isCollection = false ∧ s.kind.isAggregate = false)
    (each : ∀ t ∈ parts, Clean t) : Clean (.node id kind parts)

namespace Clean

variable {id : NodeId} {kind : Kind} {parts : List Tree}

theorem of_plain (unmarked : kind.isMarker = false) (other : kind.owner? = none) (each : ∀ t ∈ parts, t.Clean) :
    (Tree.node id kind parts).Clean := .node unmarked (fun member => absurd other member) each

theorem part (clean : t.Clean) {s : Tree} (part : s ∈ t.parts) : s.Clean := by
  cases clean with
  | node _ _ each => exact each s part

end Clean

theorem kind_renamed {nodes : List NodeId} (rendered : Rendered a nodes d f) (stands : t.StandsIn a)
    (inside : ∀ x ∈ t.ids, x ∈ nodes) : t.kind.Renames f (t.renamed d f).kind := by
  obtain ⟨id, kind, parts⟩ := t
  obtain ⟨⟨l, held, renames⟩, -⟩ := renames_node rendered stands inside
  rw [renamed_node held]
  exact renames

theorem Clean.renamed {nodes : List NodeId} (rendered : Rendered a nodes d f) (clean : t.Clean) (stands : t.StandsIn a)
    (inside : ∀ x ∈ t.ids, x ∈ nodes) : (t.renamed d f).Clean := by
  induction clean with
  | @node id kind parts unmarked member each ih =>
    obtain ⟨⟨l, held, renames⟩, below⟩ := renames_node rendered stands inside
    rw [renamed_node held]
    refine .node (renames.isMarker.trans unmarked) (fun owned s' first => ?_) fun s' part' => ?_
    · rw [List.head?_map] at first
      obtain ⟨s, head, rfl⟩ := Option.map_eq_some_iff.1 first
      have part : s ∈ parts := List.mem_of_mem_head? head
      obtain ⟨collection, aggregate⟩ := (kind_renamed rendered (below s part).1 (below s part).2).hasRows
      rw [collection, aggregate]
      refine member (fun none => owned ?_) s head
      rw [renames.owner?, none, Option.map_none]
    · obtain ⟨s, part, rfl⟩ := List.mem_map.1 part'
      exact ih s part (below s part).1 (below s part).2

end Tree

open Kind

theorem inherited_clean : Inherited Tree.Clean where
  made {_ k _} piece each :=
    .of_plain (by cases k <;> first | rfl | cases piece) (by cases k <;> first | rfl | cases piece) each
  part clean part := clean.part part
  renamed rendered clean := clean.renamed rendered

namespace Rows

theorem Left.clean (left : Left a d t t') (stands : t.StandsIn a) (each : ∀ s ∈ t.parts, s.Clean) : t'.Clean := by
  cases left with
  | idle idle =>
    obtain ⟨id, kind, parts⟩ := t
    refine .node ?_ (fun owned s first => ?_) each
    · cases kind with
      | rows operand => exact (idle.unmarked operand rfl).elim
      | _ => rfl
    · cases kind with
      | access source property => exact idle.member source property rfl s first
      | _ => exact (owned rfl).elim
  | dataset => exact .of_plain rfl rfl (by simp)
  | intent => exact .of_plain rfl rfl (by simpa using each _ (.head _))
  | call called =>
    refine inherited_clean.called called (fun s part => ?_) ((each _ (.head _)).part (by simp)) fun s part => ?_
    · exact stands.child (.tail _ part)
    · exact each s (.tail _ part)

theorem Walked.clean {ts' : List Tree} (walked : Walked a ts ts' b) : ∀ t' ∈ ts', t'.Clean := by
  induction walked with
  | nil => simp
  | cons _ _ done _ _ left _ below rest => exact List.forall_mem_cons.2 ⟨left.clean done.stands below, rest⟩

end Rows

theorem Tree.Clean.isRecognized (clean : t.Clean) (stands : t.StandsIn a) {x : NodeId} (inside : x ∈ t.ids)
    (called : ∀ member source, a.kind? x ≠ some (.intent member source)) : a.isRecognized x = true := by
  obtain ⟨⟨id, kind, parts⟩, rfl, standing⟩ := stands.exists_at inside
  have held := standing.held
  rw [Tree.id_node, Arena.isRecognized, held]
  cases inherited_clean.within clean stands standing inside with
  | node unmarked member each =>
    have waiting : kind.isIntent = false := by
      cases kind with
      | intent m source => exact (called m source held).elim
      | _ => rfl
    have owned : (kind.owner?.bind a.kind?).all (fun source => !source.isCollection && !source.isAggregate) = true := by
      cases kind with
      | access source property =>
        obtain ⟨s, rest, rfl, rfl, -⟩ := List.map_eq_cons_iff.1 standing.filled.symm
        obtain ⟨collection, aggregate⟩ := member (by simp [owner?]) s rfl
        simp [owner?, (standing.child (.head _)).kind, collection, aggregate]
      | _ => rfl
    simp [unmarked, waiting, owned]

namespace Rows

variable {w w' : Workspace RowsSummary}

theorem leave_of_recognized {nodes : List NodeId} (whole : Whole w.arena nodes)
    (recognized : ∀ x ∈ nodes, w.arena.isRecognized x = true) {x : NodeId} (inside : x ∈ nodes) (lineage : Lineage) :
    leave x lineage () w = .ok none w := by
  obtain ⟨k, held⟩ := whole.there x inside
  have here := recognized x inside
  rw [leave, bind_of_ok (Pass.kind_of_some held)]
  rw [Arena.isRecognized, held] at here
  cases k with
  | rows operand => cases here
  | access source property =>
    obtain ⟨k, there⟩ := whole.there source (whole.child x inside _ held source (by simp [children]))
    simp only [owner?, Option.all_some, Option.bind_some, there] at here
    dsimp only
    rw [intent, bind_of_ok (Pass.kind_of_some there)]
    cases k <;> first | rfl | simp [isCollection, isAggregate] at here
  | invoke callee args =>
    have child := whole.child x inside _ held callee (by simp [children])
    obtain ⟨k, there⟩ := whole.there callee child
    have waiting := recognized callee child
    rw [Arena.isRecognized, there] at waiting
    dsimp only
    rw [bind_of_ok (Pass.kind_of_some there)]
    cases k <;> first | rfl | cases waiting
  | _ => rfl

theorem exists_walk_of_recognize {root : NodeId} (done : recognize root w = .ok () w') :
    ∃ r, (Visitor.leaving leave).walk root () w = .ok r w' ∧ firstIntent? w'.arena r = none := by
  obtain ⟨r, w₁, walking, checking⟩ := bind_eq_ok.1 done
  rw [bind_of_ok (Pass.arena_run w₁)] at checking
  cases found : firstIntent? w₁.arena r with
  | none =>
    rw [found] at checking
    cases checking
    exact ⟨r, walking, found⟩
  | some intent =>
    rw [found] at checking
    cases checking

theorem recognize_of_recognized (stands : t.StandsIn w.arena) (once : t.ids.Nodup)
    (recognized : ∀ x ∈ t.ids, w.arena.isRecognized x = true) : recognize t.id w = .ok () w := by
  have enough := (stands.height_le_size once).trans (Nat.le_succ _)
  have walking : (Visitor.leaving leave).walk t.id () w = .ok t.id w :=
    Visitor.visit_of_idle (fun _ _ _ => rfl) (fun x inside => leave_of_recognized stands.whole recognized inside) stands
      enough []
  have nothing : firstIntent? w.arena t.id = none := by
    rw [firstIntent?, stands.descendants_eq once, List.findSome?_eq_none_iff]
    intro x inside
    have here := recognized x inside
    split
    · rename_i held
      rw [Arena.isRecognized, held] at here
      cases here
    · rfl
  rw [recognize, bind_of_ok walking, bind_of_ok (Pass.arena_run w), nothing]
  rfl

/-- Recognition that succeeds leaves a tree in which everything is recognized, after it has made one dataset
from each marker; recognizing once more does nothing. -/
theorem recognize_normalForm {root expressions : NodeId} {definitions assignments : List NodeId}
    (shaped : w.arena.TreeShaped root) (held : w.arena.kind? root = some (.root definitions assignments expressions))
    (done : recognize root w = .ok () w') :
    w'.arena.TreeShaped root ∧ (∀ x ∈ w'.arena.descendants root, w'.arena.isRecognized x = true) ∧
      w'.notes.datasets = w.notes.datasets + (w.arena.descendants root).countP w.arena.isMarked ∧
      ∀ notes, recognize root ⟨w'.arena, notes⟩ = .ok () ⟨w'.arena, notes⟩ := by
  obtain ⟨t, rfl, stands, once, listed⟩ := shaped.exists_tree
  obtain ⟨r, walking, nothing⟩ := exists_walk_of_recognize done
  have enough := (stands.height_le_size once).trans (Nat.le_succ _)
  obtain ⟨t', rfl, rewritten, walked, counted⟩ := (visits w.arena _ t enough stands stands once).ok walking
  have kept : t.kind.isReplaced = false := by
    rw [Option.some_injective _ (stands.kind.symm.trans held)]
    rfl
  have recognized : ∀ x ∈ t'.ids, w'.arena.isRecognized x = true := fun x inside =>
    (walked.clean t' (by simp)).isRecognized rewritten.stands inside fun member source =>
      not_intent rewritten.stands rewritten.once (fun _ _ found => by rw [nothing] at found; cases found) inside
  have below := rewritten.stands.descendants_eq rewritten.once
  rw [← walked.id_of_kept kept, below]
  refine ⟨⟨?_, ?_⟩, recognized, ?_, fun notes => ?_⟩
  · rw [below]
    exact rewritten.stands.lt_size
  · rw [below]
    exact rewritten.once
  · rw [walked.id_of_kept kept, listed]
    exact counted
  · exact recognize_of_recognized (w := ⟨w'.arena, notes⟩) rewritten.stands rewritten.once recognized

end Rows

/-- A table whose rows may be `paid`, and the rows of it in case one of them is:
`Payment[].filter(p => Payment[].include(q => q.paid))`. -/
def settledPayments : Arena := ⟨#[
  ⟨.column "paid" .boolean, none, none⟩,
  ⟨.reference 18 "Payment", none, none⟩,
  ⟨.rows 1, none, none⟩,
  ⟨.identifier "filter", none, none⟩,
  ⟨.access 2 3, none, none⟩,
  ⟨.param "p" none, none, none⟩,
  ⟨.reference 18 "Payment", none, none⟩,
  ⟨.rows 6, none, none⟩,
  ⟨.identifier "include", none, none⟩,
  ⟨.access 7 8, none, none⟩,
  ⟨.param "q" none, none, none⟩,
  ⟨.reference 10 "q", none, none⟩,
  ⟨.identifier "paid", none, none⟩,
  ⟨.access 11 12, some .boolean, none⟩,
  ⟨.function none [10] 13, none, none⟩,
  ⟨.invoke 9 [14], some .boolean, none⟩,
  ⟨.function none [5] 15, none, none⟩,
  ⟨.invoke 4 [16], none, none⟩,
  ⟨.definition "Payment" [0], none, none⟩,
  ⟨.root [18] [] 17, none, none⟩]⟩

def settledRecognized : Workspace RowsSummary := (Rows.recognize 19).after ⟨settledPayments, .empty⟩

theorem settledPayments_normalForm : settledPayments.TreeShaped 19 ∧ Rows.recognize 19 ⟨settledPayments, .empty⟩ = .ok
    () settledRecognized ∧ (∀ x ∈ settledRecognized.arena.descendants 19, settledRecognized.arena.isRecognized x = true)
    ∧ settledRecognized.notes.datasets = 2 := by
  have shaped : settledPayments.TreeShaped 19 := by decide +kernel
  have done : Rows.recognize 19 ⟨settledPayments, .empty⟩ = .ok () settledRecognized :=
    @Pass.run_eq_ok _ _ _ (Rows.recognize 19) ⟨settledPayments, .empty⟩ () (by decide +kernel)
  obtain ⟨-, recognized, counted, -⟩ := Rows.recognize_normalForm shaped rfl done
  exact ⟨shaped, done, recognized, counted.trans (by decide +kernel)⟩

end DerivedTables
