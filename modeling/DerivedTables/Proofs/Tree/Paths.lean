import DerivedTables.Proofs.Tree.Rose
import DerivedTables.Tree.Walk

/-!
Paths down a tree, each written from the node it leads to back to where it starts, as a walk has
them.
-/

namespace DerivedTables

namespace Arena

variable {a : Arena} {top path : List NodeId}

inductive Descends (a : Arena) (top : List NodeId) : List NodeId → Prop
  | here : Descends a top top
  | child {p x : NodeId} {above : List NodeId} {k : Kind} (path : Descends a top (p :: above))
    (held : a.kind? p = some k) (slot : x ∈ k.children) : Descends a top (x :: p :: above)

theorem Descends.trans {low : List NodeId} (first : a.Descends top path) (second : a.Descends path low) :
    a.Descends top low := by
  induction second with
  | here => exact first
  | child _ held slot ih => exact .child ih held slot

end Arena

namespace Tree

open Arena

variable {a : Arena} {lineage : Lineage} {id : NodeId} {kind : Kind} {parts : List Tree} {t : Tree}

theorem StandsIn.descends_iff (stands : (Tree.node id kind parts).StandsIn a) {path : List NodeId} :
    a.Descends (id :: lineage) path ↔ path = id :: lineage ∨ ∃ s ∈ parts, a.Descends (s.id :: id :: lineage) path := by
  constructor
  · intro descends
    induction descends with
    | here => exact .inl rfl
    | @child p x above k path held slot ih =>
      right
      obtain same | ⟨s, part, inside⟩ := ih
      · cases same
        cases held.symm.trans stands.held
        rw [stands.filled, List.mem_map] at slot
        obtain ⟨s, part, rfl⟩ := slot
        exact ⟨s, part, .here⟩
      · exact ⟨s, part, .child inside held slot⟩
  · rintro (rfl | ⟨s, part, inside⟩)
    · exact .here
    · refine .trans (.child .here stands.held ?_) inside
      rw [stands.filled]
      exact List.mem_map_of_mem part

theorem StandsIn.mem_ids (stands : t.StandsIn a) {x : NodeId} {above : List NodeId}
    (path : a.Descends (t.id :: lineage) (x :: above)) : x ∈ t.ids := by
  induction t generalizing lineage with
  | node id kind parts ih =>
    obtain same | ⟨s, part, inside⟩ := stands.descends_iff.1 path
    · cases same
      exact id_mem_ids _
    · exact .tail _ (mem_idsOf.2 ⟨s, part, ih s part (stands.child part) inside⟩)

theorem StandsIn.exists_path (stands : t.StandsIn a) (lineage : Lineage) {x : NodeId}
    (inside : x ∈ t.ids) : ∃ above, a.Descends (t.id :: lineage) (x :: above) := by
  induction t generalizing lineage with
  | node id kind parts ih =>
    obtain rfl | inside := List.mem_cons.1 inside
    · exact ⟨lineage, .here⟩
    · obtain ⟨s, part, inside⟩ := mem_idsOf.1 inside
      obtain ⟨above, path⟩ := ih s part (stands.child part) (id :: lineage) inside
      exact ⟨above, stands.descends_iff.2 (.inr ⟨s, part, path⟩)⟩

end Tree

end DerivedTables
