import DerivedTables.Proofs.Rows.Filled
import DerivedTables.Proofs.Rows.Inherited
import DerivedTables.Proofs.Tree.Layers

/-!
Recognizing what is done with rows keeps the layers of a program apart.
-/

namespace DerivedTables

open Tree

variable {a b c d : Arena} {t t' : Tree} {ts ts' : List Tree}

theorem Kind.Renames.layer {f : NodeId → NodeId} {k l : Kind} (renames : k.Renames f l) : l.layer = k.layer := by
  cases renames with
  | same => cases k <;> rfl
  | reference => rfl

theorem Kind.isReplaced_of_layer {k : Kind} (outer : k.layer ≠ .inner) : k.isReplaced = false := by
  cases k <;> first | rfl | exact absurd rfl outer

theorem Tree.Inward.renamed {nodes : List NodeId} {f : NodeId → NodeId} (rendered : Rendered a nodes c f)
    (inward : t.Inward) (stands : t.StandsIn a) (inside : ∀ x ∈ t.ids, x ∈ nodes) : (t.renamed c f).Inward := by
  induction inward with
  | node inner _ ih =>
    obtain ⟨⟨l, held, renames⟩, below⟩ := renames_node rendered stands inside
    rw [renamed_node held]
    refine .node (renames.layer.trans inner) fun s' part' => ?_
    obtain ⟨s, part, rfl⟩ := List.mem_map.1 part'
    exact ih s part (below s part).1 (below s part).2

theorem inherited_inward : Inherited Tree.Inward where
  made {_ k _} piece each := .node (by cases k <;> first | rfl | cases piece) each
  part inward part := inward.parts _ part
  renamed rendered inward := inward.renamed rendered

namespace Rows

theorem Left.inward (left : Left a d t t') (stands : t.StandsIn a) (inward : t.Inward) : t'.Inward := by
  cases left with
  | idle => exact inward
  | dataset => exact .node rfl (by simp)
  | intent => exact .node rfl (by simpa using inward.parts _ (.head _))
  | call called =>
    have each := inward.parts
    refine inherited_inward.called called (fun s part => stands.child (.tail _ part)) ?_ fun s part => each s (.tail _ part)
    exact (each _ (.head _)).parts _ (by simp)

theorem Walked.laid (walked : Walked a ts ts' b) :
    ∀ p ∈ ts.zip ts', (p.1.Inward → p.2.Inward) ∧ (p.1.Laid → p.2.Laid) := by
  induction walked with
  | nil => simp
  | @cons _ _ _ _ _ id kind parts parts' _ _ _ below _ done _ _ left _ ihBelow ihRest =>
    rw [List.zip_cons_cons, List.forall_mem_cons]
    refine ⟨?_, ihRest⟩
    have pairs {P : Tree → Prop} (each : ∀ q ∈ parts.zip parts', P q.2) : ∀ s ∈ parts', P s := by
      intro s part
      rw [← List.map_snd_zip below.length_eq.le] at part
      obtain ⟨q, listed, rfl⟩ := List.mem_map.1 part
      exact each q listed
    have inner (each : ∀ s ∈ parts, s.Inward) : ∀ s ∈ parts', s.Inward :=
      pairs fun q listed => (ihBelow q listed).1 (each _ (List.of_mem_zip listed).1)
    have inward : (node id kind parts).Inward → _ := fun whole =>
      left.inward done.stands (.node (by simpa using whole.layer) (inner whole.parts))
    refine ⟨inward, fun laid => ?_⟩
    -- What is not an inner node stays in its place.
    have kept (layer : kind.layer ≠ .inner) : _ = _ :=
      left.turned.eq_of_kept (Kind.isReplaced_of_layer (by simpa using layer))
    cases laid with
    | inner whole => exact .inner (inward whole)
    | property layer each =>
      rw [kept (by simp [layer])]
      exact .property (by simpa using layer) (inner each)
    | program layer each =>
      rw [kept (by simp [layer])]
      exact .program (by simpa using layer) (pairs fun q listed => (ihBelow q listed).2 (each _ (List.of_mem_zip listed).1))

end Rows

end DerivedTables
