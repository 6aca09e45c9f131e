import DerivedTables.Proofs.Storage.Separated

/-!
Every way that evaluation takes after a split is a way it could take before.
-/

namespace DerivedTables

namespace Kind

variable {R : NodeId → NodeId → Prop} {k : Kind}

theorem Refilled.reference {target : NodeId} {name : String} (refilled : Refilled R k (.reference target name)) :
    k = .reference target name := by
  obtain ⟨filled, -, same⟩ := refilled
  have links := k.links_withChildren filled
  rw [← same] at links
  cases k with
  | reference | dataset => exact same.symm
  | _ => cases links

end Kind

namespace Storage

inductive Shadow (a b : Arena) (t : Tree) : NodeId → NodeId → Nat → Prop
  | old {x : NodeId} (live : x ∈ t.ids) : Shadow a b t x x 0
  | stored {c : Cut} {r y : NodeId} {name : String} (cut : c.In a b t) (written : (name, y) ∈ c.writes)
    (beyond : a.size ≤ r) (held : b.kind? r = some (.reference y name)) : Shadow a b t r y 1
  | split {c : Cut} (cut : c.In a b t) : Shadow a b t c.split c.derivation.id 2

namespace Separated

variable {a b : Arena} {t : Tree} {c c' : Cut} {x y z w r start x₀ x₁ : NodeId} {i j : Nat} {k l : Kind}
  (sep : Separated a b t)

include sep

omit sep in
theorem shadow_live (shadow : Shadow a b t x x₀ i) : x₀ ∈ t.ids := by
  cases shadow with
  | old live => exact live
  | stored cut written => exact cut.written_live (List.mem_map_of_mem written)
  | split cut => exact cut.top_mem

theorem shadow_old (shadow : Shadow a b t x x₀ i) (live : x ∈ t.ids) : x₀ = x ∧ i = 0 := by
  have below := sep.lt_size live
  cases shadow with
  | old => exact ⟨rfl, rfl⟩
  | stored _ _ beyond => exact absurd below (Nat.not_lt.2 beyond)
  | split cut => exact absurd below (Nat.not_lt.2 cut.beyond)

theorem shadow_unique (shadow : Shadow a b t x x₀ i) (small : i < 2) (other : Shadow a b t x x₁ j) :
    x₀ = x₁ ∧ i = j := by
  cases shadow with
  | old live =>
    obtain ⟨rfl, rfl⟩ := sep.shadow_old other live
    exact ⟨rfl, rfl⟩
  | stored _ _ beyond held =>
    cases other with
    | old live => exact absurd beyond (sep.not_new live)
    | stored _ _ _ held' =>
      cases held.symm.trans held'
      exact ⟨rfl, rfl⟩
    | split cut => cases held.symm.trans cut.halves
  | split => omega

omit sep in
theorem shadow_of_turns (turns : Turns a b t x y r) (live : y ∈ t.ids) : ∃ i, Shadow a b t r y i := by
  cases turns with
  | same => exact ⟨0, .old live⟩
  | stored cut _ written beyond held => exact ⟨1, .stored cut written beyond held⟩
  | split cut _ here => exact ⟨2, here ▸ .split cut⟩

theorem turns_live (turns : Turns a b t x y r) (live : r ∈ t.ids) : y = r := by
  have below := sep.lt_size live
  cases turns with
  | same => rfl
  | stored _ _ _ beyond => exact absurd below (Nat.not_lt.2 beyond)
  | split cut => exact absurd below (Nat.not_lt.2 cut.beyond)

theorem old_kind (live : x ∈ t.ids) (held : b.kind? x = some l) : ∃ k, a.kind? x = some k ∧
    k.Refilled (Turns a b t x) l ∧ k.Resembles (Turns a b t x) x l := by
  obtain ⟨k, there⟩ := Arena.exists_kind?_of_lt (sep.lt_size live)
  obtain ⟨l', held', refilled⟩ := sep.refilled live there
  cases held.symm.trans held'
  exact ⟨k, there, refilled, sep.resembles live there refilled⟩

theorem old_binding {name : String} {v next : NodeId} (live : x ∈ t.ids)
    (held : b.kind? x = some (.binding name v next)) :
    ∃ shown v₀ next₀, a.kind? x = some (.binding shown v₀ next₀) ∧ Turns a b t x v₀ v ∧ Turns a b t x next₀ next := by
  obtain ⟨k, there, refilled, alike⟩ := sep.old_kind live held
  cases alike with
  | binding shown _ _ value rest => exact ⟨shown, _, _, there, value, rest⟩
  | inert _ inert => cases refilled.isInert.trans inert
  | handed _ _ idle => exact idle.elim

theorem code_cases (live : x ∈ t.ids) (code : y ∈ b.code x) :
    (∃ name next, b.kind? x = some (.binding name y next)) ∨ y = x ∧ x ∈ a.code x ∧ a.isBinding x = false := by
  obtain ⟨shown, v, next, binding, lone⟩ | ⟨other, none_ | lone⟩ := b.code_cases x
  · obtain rfl := List.mem_singleton.1 (lone ▸ code)
    exact .inl ⟨shown, next, binding⟩
  · cases none_ ▸ code
  · obtain rfl := List.mem_singleton.1 (lone ▸ code)
    obtain ⟨k, there⟩ := Arena.exists_kind?_of_lt (sep.lt_size live)
    obtain ⟨l, held, filled, -, rfl⟩ := sep.refilled live there
    have lets := k.isLet_withChildren filled
    have blank := k.isBlank_withChildren filled
    rw [Arena.isBinding_eq held] at other
    rw [Arena.code_eq held other] at code
    rw [lets] at other
    rw [blank] at code
    exact .inr ⟨rfl, by rwa [Arena.code_eq there other], by rwa [Arena.isBinding_eq there]⟩

/-- One step in `b`: forward in `a`, or closer to what the node stands for. Splits are entered from their
properties only. -/
theorem leads_shadow (shadow : Shadow a b t x x₀ i) (leads : b.Leads x y) :
    ∃ y₀ j, Shadow a b t y y₀ j ∧ (Relation.TransGen a.Leads x₀ y₀ ∨ x₀ = y₀ ∧ j < i) ∧ (i = 0 ∨ j < 2) := by
  obtain ⟨l, held, part | ⟨target, name, rfl, code⟩⟩ := leads
  · cases shadow with
    | old live =>
      obtain ⟨k, there, refilled, alike⟩ := sep.old_kind live held
      have inert : k.isInert = false := by
        by_contra inert
        rw [Kind.entered_of_isInert (refilled.isInert.trans (by simpa using inert))] at part
        cases part
      obtain ⟨c, entered, turns⟩ := alike.entered inert part
      obtain ⟨j, shadow⟩ := shadow_of_turns turns (sep.staged.child_mem live there (Kind.mem_children_of_entered entered))
      exact ⟨c, j, shadow, .inl (.single (.of_part there entered)), .inl rfl⟩
    | stored _ _ _ held' =>
      cases held.symm.trans held'
      cases part
    | @split c cut =>
      cases held.symm.trans cut.halves
      obtain written | read := List.mem_append.1 part
      · refine ⟨y, 0, .old (cut.written_live written), ?_, by simp⟩
        obtain same | way := Relation.reflTransGen_iff_eq_or_transGen.1 (cut.written_reached written)
        · exact .inr ⟨same.symm, by simp⟩
        · exact .inl way
      · obtain rfl := List.mem_singleton.1 read
        obtain ⟨-, read⟩ | ⟨-, beyond, shown, only, held'⟩ := cut.reads
        · rw [read]
          exact ⟨c.derivation.id, 0, .old cut.top_mem, .inr ⟨rfl, by simp⟩, by simp⟩
        · exact ⟨c.derivation.id, 1, .stored cut (by simp [only]) beyond held', .inr ⟨rfl, by simp⟩, by simp⟩
  · cases shadow with
    | old live =>
      obtain ⟨k, there, refilled, -⟩ := sep.old_kind live held
      obtain rfl := refilled.reference
      have named := sep.staged.links live there target (List.mem_singleton.2 rfl)
      obtain ⟨shown, next, binding⟩ | ⟨rfl, self, -⟩ := sep.code_cases named code
      · obtain ⟨_, v₀, _, binding₀, turns, -⟩ := sep.old_binding named binding
        obtain ⟨j, shadow⟩ := shadow_of_turns turns (sep.staged.child_mem named binding₀ (by simp [Kind.children]))
        refine ⟨v₀, j, shadow, .inl (.single (.of_name there ?_)), .inl rfl⟩
        simp [Arena.code, binding₀]
      · exact ⟨y, 0, .old named, .inl (.single (.of_name there self)), .inl rfl⟩
    | stored cut written beyond held' =>
      cases held.symm.trans held'
      have named := cut.written_live (List.mem_map_of_mem written)
      obtain ⟨shown, next, binding⟩ | ⟨rfl, -, -⟩ := sep.code_cases named code
      · obtain ⟨_, v₀, next₀, binding₀, turns, -⟩ := sep.old_binding named binding
        obtain ⟨j, shadow⟩ := shadow_of_turns turns (sep.staged.child_mem named binding₀ (by simp [Kind.children]))
        refine ⟨v₀, j, shadow, .inl (.single (.of_part binding₀ (by simp [Kind.entered, Kind.isInert, Kind.children]))), .inr ?_⟩
        cases shadow with
        | split cut' =>
          have above := cut'.only_slot named binding₀ (by simp [Kind.children])
          cases binding₀.symm.trans (above ▸ cut'.slot)
        | _ => simp
      · exact ⟨y, 0, .old named, .inr ⟨rfl, by simp⟩, by simp⟩
    | split cut => cases held.symm.trans cut.halves

theorem reaches_shadow (shadow : Shadow a b t x x₀ i) (reaches : b.Reaches x y) :
    ∃ y₀ j, Shadow a b t y y₀ j ∧ a.Reaches x₀ y₀ := by
  induction reaches with
  | refl => exact ⟨x₀, i, shadow, .refl⟩
  | tail _ leads ih =>
    obtain ⟨y₀, j, shadow, way⟩ := ih
    obtain ⟨z₀, j', shadow', forward | ⟨rfl, -⟩, -⟩ := sep.leads_shadow shadow leads
    · exact ⟨z₀, j', shadow', way.trans forward.to_reflTransGen⟩
    · exact ⟨y₀, j', shadow', way⟩

theorem way_shadow (shadow : Shadow a b t x x₀ i) (way : Relation.TransGen b.Leads x y) :
    ∃ y₀ j, Shadow a b t y y₀ j ∧ (Relation.TransGen a.Leads x₀ y₀ ∨ x₀ = y₀ ∧ j < i) := by
  induction way with
  | single leads =>
    obtain ⟨y₀, j, shadow, step, -⟩ := sep.leads_shadow shadow leads
    exact ⟨y₀, j, shadow, step⟩
  | tail _ leads ih =>
    obtain ⟨y₀, j, shadow, before⟩ := ih
    obtain ⟨z₀, j', shadow', step, -⟩ := sep.leads_shadow shadow leads
    refine ⟨z₀, j', shadow', ?_⟩
    obtain before | ⟨rfl, less⟩ := before
    · obtain step | ⟨rfl, -⟩ := step
      · exact .inl (before.trans step)
      · exact .inl before
    · obtain step | ⟨rfl, less'⟩ := step
      · exact .inl step
      · exact .inr ⟨rfl, less'.trans less⟩

theorem acyclic (shadow : Shadow a b t x x₀ i) : ¬ Relation.TransGen b.Leads x x := by
  have small {x x₀ : NodeId} {i : Nat} (shadow : Shadow a b t x x₀ i) (small : i < 2)
      (way : Relation.TransGen b.Leads x x) : False := by
    obtain ⟨x₁, j, shadow', step⟩ := sep.way_shadow shadow way
    obtain ⟨rfl, rfl⟩ := sep.shadow_unique shadow small shadow'
    obtain round | ⟨-, less⟩ := step
    · exact sep.staged.acyclic sep.staged.plain (shadow_live shadow) round
    · exact lt_irrefl _ less
  intro way
  -- A way from a split back to it passes a node that is not one.
  obtain ⟨y, leads, rest⟩ := Relation.TransGen.head'_iff.1 way
  obtain ⟨y₀, j, shadow', -, rfl | next⟩ := sep.leads_shadow shadow leads
  · exact small shadow (by simp) way
  · exact small shadow' next (Relation.TransGen.tail' rest leads)

end Separated

end Storage

end DerivedTables
