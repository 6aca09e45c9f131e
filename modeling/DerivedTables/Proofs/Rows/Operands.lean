import DerivedTables.Proofs.Rows.Rendering
import DerivedTables.Proofs.Rows.Synthesis

/-!
The operands beside the spine of a fold.
-/

namespace DerivedTables

open Tree

theorem Slot.Anew.places {a b d : Arena} {acc row : Slot} {body t : Tree} {f : NodeId → NodeId} {ids : List NodeId}
    {param : NodeId} {outside : NodeId → Prop} (anew : Slot.Anew b d acc row body t) (later : a.Extends b) (rendered :
    Rendered a ids d f) (inside : ∀ x ∈ ids, f x ∈ body.ids) (toRow : f param = row.id) (old : ∀ x, outside x → x <
    a.size) (still : ∀ x ∈ ids, ∀ t n, a.kind? x = some (.reference t n) → t ∉ ids → t ≠ param → f t = t) : Stands a ids
    param outside d acc.id row.id f := by
  have beyond {x : NodeId} (listed : x ∈ acc.id :: row.id :: body.ids) : ¬ outside x := fun out =>
    absurd ((old x out).trans_le later.size) (Nat.not_lt.2 (anew.beyond listed))
  exact {
    rendered
    param := ⟨_, _, toRow ▸ anew.wraps.param anew.stands (by simp)⟩
    rowApart := fun x listed same => anew.apart.2.2 (toRow ▸ same ▸ inside x listed)
    inside := fun x listed => beyond (by simp [inside x listed])
    rowInside := toRow ▸ beyond (by simp)
    base := later.trans anew.larger
    still
    toRow
    accApart := fun x listed same => anew.apart.2.1 (same ▸ inside x listed)
    accInside := beyond (by simp) }

theorem Slot.Anew.plain {a d : Arena} {acc row : Slot} {body t : Tree} (anew : Slot.Anew a d acc row body t) :
    ∀ p ∈ [acc.id, row.id], ∀ k, d.kind? p = some k → k.isItem = false := by
  intro p listed k held
  obtain ⟨slot, isSlot, rfl⟩ : ∃ slot ∈ [acc, row], slot.id = p := by simpa [eq_comm] using listed
  cases (anew.wraps.param anew.stands isSlot).symm.trans held
  rfl

namespace Fold

variable {a d : Arena} {fold : Fold} {p q s o : Tree} {step : FoldStep}

def Leads (a : Arena) (x y : NodeId) : Prop := ∃ k, a.kind? x = some k ∧ y ∈ a.links k

/-- No reference out of the fold leads back into it. -/
def Apart (a : Arena) (fold : Fold) : Prop :=
  ∀ x ∈ a.descendants fold.node, ∀ t ∈ a.target? x, t ∉ a.descendants fold.node →
    ∀ y, Relation.ReflTransGen (Leads a) t y → y ∉ a.descendants fold.node

def Outside (a : Arena) (fold : Fold) (x : NodeId) : Prop :=
  x < a.size ∧ ∀ y, Relation.ReflTransGen (Leads a) x y → y ∉ a.descendants fold.node

structure Shaped (a : Arena) (fold : Fold) (p q s : Tree) : Prop extends fold.Clear a p q s where
  wellFormed : a.WellFormed

section

variable (shaped : fold.Shaped a p q s)
include shaped

theorem Shaped.selfContained_below (stands : o.StandsIn a) : SelfContained a o.ids fold.row (· < a.size) :=
  ⟨stands.whole, shaped.wellFormed, fun _ _ _ _ held => .inr (.inr (shaped.wellFormed.target held)),
    fun _ _ _ held _ link => shaped.wellFormed.toClosed.link held link, fun _ => id⟩

theorem Shaped.selfContained_outside (inScope : fold.Scoped a) (apart : fold.Apart a) (isStep : step ∈ fold.steps)
    (same : o.id = step.other) (stands : o.StandsIn a) (part : o.ids.Sublist s.ids) :
    SelfContained a o.ids fold.row (fold.Outside a) := by
  have below : a.descendants step.other = o.ids := same ▸ stands.descendants_eq (part.nodup shaped.body_once)
  refine ⟨stands.whole, shaped.wellFormed, fun x listed t n held => ?_, ?_, fun _ => And.left⟩
  · by_cases within : t ∈ a.descendants fold.node
    · obtain own | row := inScope step isStep x (below ▸ listed) t (Arena.target?_eq_some held) within
      · exact .inl (below ▸ own)
      · exact .inr (.inl row)
    · have inFold : x ∈ a.descendants fold.node := by simp [shaped.descendants_eq, part.subset listed]
      exact .inr (.inr ⟨shaped.wellFormed.target held, apart x inFold t (Arena.target?_eq_some held) within⟩)
  · rintro x ⟨_, away⟩ k held y link
    exact ⟨shaped.wellFormed.toClosed.link held link, fun z leads => away z (.head ⟨k, held, link⟩ leads)⟩

theorem Shaped.stands_here (part : o.ids.Sublist s.ids) (later : a.Extends d) :
    Stands a o.ids fold.row (fold.Outside a) d fold.accumulator fold.row id := by
  refine .here later (shaped.param fold.row (by simp))
    ⟨fun inside => shaped.row_not_mem (part.subset inside), fun inside => shaped.accumulator_not_mem (part.subset inside)⟩
    fun x listed out => out.2 x .refl ?_
  simp only [shaped.descendants_eq, List.mem_cons] at listed ⊢
  exact .inr (listed.imp_right (Or.imp_right (part.subset ·)))

end

variable {N : Type} [Arithmetic N] {context : List (String × Value N)} {u r v : Value N} {t : Tree}

def Valued (a : Arena) (fold : Fold) (s : Setting N) (r : Value N) (values : FoldStep → Value N) : Prop :=
  ∀ {acc row : Slot} {body t o : Tree} {step : FoldStep} (u : Value N), Slot.Anew a s.arena acc row body t →
    step ∈ fold.steps → fold.OperandCopy a s.arena row step o → (∀ x ∈ o.ids, x ∈ body.ids) →
    s.Settled (Setting.bound [acc.id, row.id] [u, r] ∅) o.id (values step)

theorem OperandCopy.settled {acc row : Slot} {body o' : Tree} {outside : NodeId → Prop} {f : NodeId → NodeId} {acc' row'
    : NodeId} (copy : fold.OperandCopy a d row step o') (anew : Slot.Anew a d acc row body t) (inside : ∀ x ∈ o'.ids, x
    ∈ body.ids) (same : o.id = step.other) (stands : o.StandsIn a) (operand : SelfContained a o.ids fold.row outside)
    (first : Stands a o.ids fold.row outside d acc' row' f) (alone : Setting.Evaluates ⟨d, context⟩ (rowOnly row' r) (f
    o.id) v) : Setting.Settled ⟨d, context⟩ (Setting.bound [acc.id, row.id] [u, r] ∅) o'.id v := by
  obtain ⟨o₁, same₁, stands₁, g, copied, rfl⟩ := copy
  obtain rfl := stands₁.unique stands (same₁.trans same.symm)
  rw [ids_renamed] at inside
  have second : Stands a o₁.ids fold.row outside d acc.id row.id g :=
    anew.places (.refl a) copied.rendered (fun x listed => inside _ (List.mem_map_of_mem listed))
      (copied.redirect _ row.redirect (by rw [getElem?_single, if_pos rfl])) operand.old
      fun x _ t n _ notOwn notRow => copied.other t notOwn (by rw [getElem?_single, if_neg (Ne.symm notRow)])
  rw [id_renamed]
  exact first.settled operand second o₁.id_mem_ids alone

theorem Shaped.valued (shaped : fold.Shaped a p q s) (inScope : fold.Scoped a) (apart : fold.Apart a) (later : a.Extends
    d) {values : FoldStep → Value N} (alone : ∀ step ∈ fold.steps, Setting.Evaluates ⟨d, context⟩ (rowOnly fold.row r)
    step.other (values step)) : fold.Valued a ⟨d, context⟩ r values := by
  intro acc row body t o' step u anew isStep copy inside
  obtain ⟨o, same, stands, part, -⟩ := shaped.operand isStep
  exact copy.settled anew inside same stands (shaped.selfContained_outside inScope apart isStep same stands part)
    (shaped.stands_here part later) (same ▸ alone step isStep)

def Leaf.value (u : Value N) (values : FoldStep → Value N) : Leaf → Value N
  | accumulator => u
  | operand step => values step

theorem Reworked.calls {ty : Ty} {φ : Formula Leaf} (reworked : fold.Reworked a d ty φ t) (grown : Grown a d t)
    {values : FoldStep → Value N} (valued : fold.Valued a ⟨d, context⟩ r values)
    (value : φ.value? (Leaf.value u values) = some v) : Setting.Calls ⟨d, context⟩ t.id [u, r] v := by
  obtain ⟨acc, row, body, -, -, wraps, assembled⟩ := reworked
  have anew : Slot.Anew a d acc row body t := ⟨grown, wraps⟩
  obtain ⟨name, held⟩ := wraps.function grown.stands
  refine .of_settled held rfl anew.plain (Assembled.settled (s := ⟨d, context⟩) (assembled.within anew.body_stands)
    anew.body_stands ?_ value)
  rintro _ _ o ⟨leaf, upright, inside⟩
  cases leaf with
  | use used =>
    obtain ⟨id, rfl, -⟩ := used
    refine .reference upright.held ?_
    rw [List.map, List.map, List.map, Setting.getElem?_bound_two, if_neg (Ne.symm anew.apart.1), if_pos rfl, Leaf.value]
  | operand listed copied => exact valued u anew listed copied inside

theorem Shown.calls {φ : Formula Unit} {ty : Ty} (shown : Shown d φ ty t) (stands : t.StandsIn d)
    (value : φ.value? (fun _ => u) = some v) : Setting.Calls ⟨d, context⟩ t.id [u] v := by
  obtain ⟨acc, body, -, wraps, assembled⟩ := shown
  obtain ⟨name, held⟩ := wraps.function stands
  have standing := wraps.body_stands stands
  refine .of_settled held rfl ?_ (Assembled.settled (s := ⟨d, context⟩) (assembled.within standing) standing ?_ value)
  · simp only [List.map_cons, List.map_nil, List.mem_singleton, forall_eq]
    intro k found
    cases (wraps.param stands (by simp)).symm.trans found
    rfl
  · rintro _ _ o ⟨⟨-, id, rfl, -⟩, upright, -⟩
    exact .reference upright.held (by simp [Setting.bound])

end Fold

end DerivedTables
