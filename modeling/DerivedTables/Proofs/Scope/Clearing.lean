import DerivedTables.Proofs.Eval.Refilled
import DerivedTables.Proofs.Scope.AliasFree
import DerivedTables.Proofs.Scope.Recursion

/-!
A program beside what is left of it without the lets that only rename.
-/

namespace DerivedTables

open Tree Alias

namespace Arena

variable {a : Arena} {x y z r : NodeId}

theorem Remains.reaches (remains : a.Remains x y) : a.Reaches x y := by
  induction remains with
  | kept => exact .refl
  | skip renames _ ih =>
    obtain ⟨_, _, _, held, -⟩ := alias?_eq_some renames
    exact .head (.of_part held (by simp [Kind.entered, Kind.isInert, Kind.children])) ih

theorem StandsFor.eq_self (stands : a.StandsFor y r) (other : a.alias? y = none) : r = y := by
  cases stands with
  | self => rfl
  | through renames => cases other.symm.trans renames

theorem StandsFor.leads {shown : String} (stands : a.StandsFor y r) (held : a.kind? x = some (.reference y shown))
    (code : z ∈ a.code r) : Relation.TransGen a.Leads x z := by
  induction stands generalizing x shown with
  | self => exact .single (.of_name held code)
  | through renames _ ih =>
    obtain ⟨_, value, _, binding, named⟩ := alias?_eq_some renames
    exact .head (.of_name held (by simp [Arena.code, binding])) (ih named code)

end Arena

namespace Tree

variable {a b : Arena} {t t' : Tree} {x y : NodeId} {k : Kind}

theorem Cast.listed (cast : t.Cast a) {p : NodeId} (inside : p ∈ t.ids) (held : a.kind? p = some k)
    (child : x ∈ k.children) (role : a.role? x = some .item ∨ a.role? x = some .property) : x ∈ k.lists := by
  rw [← k.map_fst_takes] at child
  obtain ⟨slot, listed, rfl⟩ := List.mem_map.1 child
  exact Kind.mem_lists_of_takes listed (by simpa [cast p inside k held slot listed] using role)

namespace Entire

theorem at_top (entire : t.Entire a) (inside : x ∈ t.ids)
    (role : a.role? x = some .item ∨ a.role? x = some .property) : t.AtTop a x x := by
  have other : x ≠ t.id := by
    rintro rfl
    rw [entire.stands.role?, entire.role] at role
    simp at role
  obtain ⟨p, above, k, held, child⟩ := entire.stands.exists_parent inside other
  exact .listed above held (entire.cast.listed above held child role)

theorem sound (entire : t.Entire a) (sighted : t.Sighted a)
    (plain : ∀ z ∈ t.ids, ∀ k, a.kind? z = some k → k.isEntry = true → ¬ a.Recurs z) (inside : x ∈ t.ids)
    (role : a.role? x = some .item ∨ a.role? x = some .property) : a.Sound (a.Reaches x) := by
  have closed := sighted.top_closed (entire.at_top inside role)
  have solid : a.role? x ≠ some .param := by
    obtain role | role := role <;> simp [role]
  exact sighted.sound inside (fun y => entire.cast.reaches_role sighted inside solid)
    (sighted.ordered plain inside closed).undisturbed

end Entire

end Tree

@[simp] theorem Kind.isEntry_withChildren (k : Kind) (filled : List NodeId) :
    (k.withChildren filled).isEntry = k.isEntry := by
  unfold withChildren
  split <;> rfl

structure Clearing (a b : Arena) (t t' : Tree) : Prop where
  entire : t.Entire a
  entire' : t'.Entire b
  cleared : t.Cleared a t'
  sighted : t.Sighted a
  sighted' : t'.Sighted b

namespace Clearing

variable {a b : Arena} {t t' : Tree} {x y : NodeId} {k : Kind} (clearing : Clearing a b t t')
include clearing

theorem became (inside : x ∈ t'.ids) :
    ∃ k l, x ∈ t.ids ∧ a.kind? x = some k ∧ b.kind? x = some l ∧ Cleared.Became a k l :=
  clearing.cleared.became clearing.entire.stands clearing.entire'.stands inside

theorem reference {shown : String} (inside : x ∈ t'.ids) (held : a.kind? x = some (.reference y shown)) :
    ∃ r shown', b.kind? x = some (.reference r shown') ∧ a.StandsFor y r := by
  obtain ⟨_, l, -, before, after, became⟩ := clearing.became inside
  cases before.symm.trans held
  cases became with
  | reference stands => exact ⟨_, _, after, stands⟩
  | node plain => exact absurd rfl (plain _ _)

theorem refilled (inside : x ∈ t'.ids) (held : a.kind? x = some k) (plain : ∀ target shown, k ≠ .reference target shown) :
    ∃ l, b.kind? x = some l ∧ k.Refilled a.Remains l := by
  obtain ⟨_, l, -, before, after, became⟩ := clearing.became inside
  cases before.symm.trans held
  cases became with
  | reference => exact absurd rfl (plain _ _)
  | node _ parts => exact ⟨_, after, _, parts, rfl⟩

/-- To evaluation a node that is left and is no reference is what it was, over what is left of its parts. -/
theorem resembles {l : Kind} (inside : x ∈ t.ids) (held : a.kind? x = some k) (plain : ∀ target shown, k ≠ .reference
    target shown) (refilled : k.Refilled a.Remains l) : k.Resembles a.Remains x l := by
  refine refilled.resembles (fun target name same => absurd same (plain target name)) (fun split => ?_) ?_
  · exact clearing.sighted.layered.unsplit inside held split
  · rintro name params body rfl p param q remains
    obtain ⟨shown, declared, there⟩ := clearing.sighted.params inside held p param
    exact (Arena.Remains.kept (Arena.alias?_of_other there (by simp))).unique remains

theorem code_before {z : NodeId} (inside : x ∈ t'.ids) (code : z ∈ b.code x) : ∃ y ∈ a.code x, a.Reaches y z := by
  obtain ⟨k, l, -, held, held', became⟩ := clearing.became inside
  cases became with
  | reference =>
    rw [Arena.code_eq held' rfl] at code
    obtain rfl := List.mem_singleton.1 code
    exact ⟨z, by rw [Arena.code_eq held rfl]; exact code, .refl⟩
  | @node _ left _ parts =>
    by_cases isLet : ∃ name value next, k = .binding name value next
    · obtain ⟨name, value, next, rfl⟩ := isLet
      obtain _ | ⟨first, _ | ⟨second, ⟨⟩⟩⟩ := parts
      simp only [Arena.code, held', Kind.withChildren, List.mem_singleton] at code
      subst code
      exact ⟨value, by simp [Arena.code, held], first.reaches⟩
    · have other : k.isLet = false := by
        cases k <;> first | rfl | exact absurd ⟨_, _, _, rfl⟩ isLet
      rw [Arena.code_eq held' (by rwa [Kind.isLet_withChildren]), Kind.isBlank_withChildren, ← Arena.code_eq held other] at code
      exact ⟨z, code, .refl⟩

theorem leads_before (inside : x ∈ t'.ids) (leads : b.Leads x y) : Relation.TransGen a.Leads x y := by
  obtain ⟨k, l, live, held, held', became⟩ := clearing.became inside
  obtain ⟨_, same, part | ⟨target, shown, rfl, code⟩⟩ := leads
  · cases same.symm.trans held'
    cases became with
    | reference => cases part
    | @node _ left plain parts =>
      have refilled : k.Refilled a.Remains (k.withChildren left) := ⟨left, parts, rfl⟩
      have moves : k.isInert = false := by
        by_contra inert
        rw [Kind.entered_of_isInert (refilled.isInert.trans (by simpa using inert))] at part
        cases part
      obtain ⟨c, entered, remains⟩ := (clearing.resembles live held plain refilled).entered moves part
      exact .trans_left (.single (.of_part held entered)) remains.reaches
  · obtain ⟨y₀, shown₀, named, stands⟩ := clearing.cleared.reference_of clearing.entire.stands clearing.entire'.stands inside same
    have there := clearing.sighted'.links inside same target (by simp [Kind.links])
    obtain ⟨z, before, reaches⟩ := clearing.code_before there code
    exact .trans_left (stands.leads named before) reaches

theorem recurs_before (inside : x ∈ t'.ids) (recurs : b.Recurs x) : a.Recurs x := by
  -- On its way evaluation stays among what is left.
  have along {y : NodeId} (way : Relation.TransGen b.Leads x y) : Relation.TransGen a.Leads x y ∧ y ∈ t'.ids := by
    induction way with
    | single leads => exact ⟨clearing.leads_before inside leads, clearing.sighted'.leads_mem inside leads⟩
    | tail _ leads ih => exact ⟨ih.1.trans (clearing.leads_before ih.2 leads), clearing.sighted'.leads_mem ih.2 leads⟩
  exact (along recurs).1

theorem plain_after (plain : ∀ z ∈ t.ids, ∀ k, a.kind? z = some k → k.isEntry = true → ¬ a.Recurs z) :
    ∀ z ∈ t'.ids, ∀ k, b.kind? z = some k → k.isEntry = true → ¬ b.Recurs z := by
  intro z inside l held' entry recurs
  obtain ⟨k, _, live, held, again, became⟩ := clearing.became inside
  cases again.symm.trans held'
  refine plain z live k held ?_ (clearing.recurs_before inside recurs)
  cases became with
  | reference => cases entry
  | node => rwa [Kind.isEntry_withChildren] at entry

end Clearing

end DerivedTables
