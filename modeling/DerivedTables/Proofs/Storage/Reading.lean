import DerivedTables.Proofs.Storage.Shadows

/-!
What the read side of a column reads.
-/

namespace DerivedTables

attribute [local simp] Kind.children

theorem Tree.Sighted.not_covered {a : Arena} {t : Tree} {x y z : NodeId} {k : Kind} (sighted : t.Sighted a)
    (above : z ∈ t.ids) (held : a.kind? x = some k) (layer : k.layer ≠ .inner) : ¬ a.Covers z y x := by
  rintro ⟨l, s, binder, bound, shown, standing, below⟩
  have slot := Kind.mem_children_of_scope shown
  have inner : a.Inner s.id := sighted.layered.inner above binder (by cases l <;> cases shown <;> simp [Kind.layer]) _ slot
  have inner := sighted.layered.inner_ids sighted.stands standing (sighted.child_mem above binder slot) inner below
  exact layer (Option.some_injective _ ((Arena.layer?_of_kind? held).symm.trans inner))

namespace Storage

inductive Reads (a b : Arena) (t : Tree) (x y : NodeId) : Prop
  | before (live : x ∈ t.ids) (free : a.Free x y)
  | pending {c : Cut} (cut : c.In a b t) (left : LeftTo a c.derivation x) (written : y ∈ c.writes.map Prod.snd)
  | stored {c : Cut} {name : String} (cut : c.In a b t) (beyond : a.size ≤ x) (written : (name, y) ∈ c.writes)
    (held : b.kind? x = some (.reference y name))

namespace Separated

variable {a b : Arena} {t : Tree} {c c' : Cut} {x y z w r v v' q start x₀ x₁ : NodeId} {i j : Nat} {k l : Kind}
  (sep : Separated a b t)

include sep

theorem derivation_closed (cut : c.In a b t) : ¬ a.Free c.derivation.id y := by
  intro free
  obtain ⟨z, above, covers⟩ := sep.staged.covered cut.top_mem free
  obtain ⟨-, bound, -⟩ | covers := sep.staged.covers_up above covers cut.live cut.slot (by simp)
  · cases bound
  · exact sep.staged.not_covered above cut.slot (by simp [Kind.layer]) covers

theorem property_closed (cut : c.In a b t) : ¬ a.Free c.property y := by
  intro free
  obtain ⟨z, above, covers⟩ := sep.staged.covered cut.live free
  exact sep.staged.not_covered above cut.slot (by simp [Kind.layer]) covers

theorem reads_slot (live : q ∈ t.ids) (held : a.kind? q = some k) (child : v ∈ k.children) (turns : Turns a b t q v v')
    (held' : b.kind? q = some l) (child' : v' ∈ l.children) (reads : Reads a b t v' y) :
    v = v' ∧ a.Free v y ∨ ∃ c : Cut, c.In a b t ∧ LeftTo a c.derivation q ∧ y ∈ c.writes.map Prod.snd := by
  cases reads with
  | before live' free =>
    obtain rfl := sep.turns_live turns live'
    exact .inl ⟨rfl, free⟩
  | @pending c cut left written =>
    have live' := cut.subset left.mem_ids
    obtain rfl := sep.turns_live turns live'
    refine .inr ⟨c, cut, cut.left_parent left (fun top => ?_) live held child, written⟩
    subst top
    obtain rfl := cut.only_slot live held child
    cases held'.symm.trans cut.held
    exact absurd (List.mem_singleton.1 child' ▸ cut.beyond) (sep.not_new live')
  | stored cut beyond written there =>
    cases turns with
    | same => exact absurd beyond (sep.not_new (sep.staged.child_mem live held child))
    | stored cut' left written' _ there' =>
      cases there.symm.trans there'
      exact .inr ⟨_, cut', left, List.mem_map_of_mem written'⟩
    | split cut' => cases there.symm.trans cut'.halves

theorem written_closed (cut : c.In a b t) (written : w ∈ c.writes.map Prod.snd) : ¬ Reads a b t w y := by
  have early := (cut.written_cases written).1
  intro reads
  cases reads with
  | before live free => exact early (sep.staged.late_of_free live free)
  | pending cut' left => exact early (cut'.left_reached left).2.2
  | stored _ beyond =>
    exact absurd beyond (sep.not_new (cut.written_live written))

theorem written_free (cut : c.In a b t) (written : w ∈ c.writes.map Prod.snd) : t.Unmaintained a w :=
  sep.staged.reaches_unmaintained cut.top_mem cut.free (cut.written_reached written)

theorem written_ne_read (cut : c.In a b t) (written : w ∈ c.writes.map Prod.snd) (cut' : c'.In a b t) :
    w ≠ c'.read := by
  rintro rfl
  obtain ⟨late, same⟩ | ⟨-, beyond, -⟩ := cut'.reads
  · exact (cut.written_cases written).1 (same ▸ needsReader_iff.1 late)
  · exact absurd beyond (sep.not_new (cut.written_live written))

theorem left_of_named {shown name : String} {q next : NodeId} (cut : c.In a b t) (left : LeftTo a c.derivation q)
    (live : x ∈ t.ids) (free : t.Unmaintained a x) (held : a.kind? x = some (.reference q shown))
    (binding : a.kind? q = some (.binding name v next)) : LeftTo a c.derivation x := by
  obtain ⟨-, s, rfl, standing, below⟩ := sep.staged.named_let live held binding
  have last : s.id ∈ c.derivation.ids := cut.whole.mem_of_child left.mem_ids binding (by simp)
  exact cut.left_of_late free ⟨x, .refl, .inl ⟨q, shown, _, held, binding, rfl⟩⟩
    ((cut.whole.sublist_within standing last).subset below)

theorem split_closed {before after : List (NodeId × List NodeId)} {bound : List NodeId} (cut : c.In a b t)
    (run : before ++ (r, bound) :: after ∈ (Kind.split c.read c.writes).runs x) (unbound : ∀ step ∈ before, y ∉ step.2) :
    ¬ Reads a b t r y := by
  intro reads
  have run := List.mem_singleton.1 run
  have inside : (r, bound) ∈ c.writes.map (fun write => (write.2, [write.2])) ++ [(c.read, [])] := by
    rw [← run]
    simp
  obtain written | last := List.mem_append.1 inside
  · obtain ⟨write, listed, same⟩ := List.mem_map.1 written
    cases same
    exact sep.written_closed cut (List.mem_map_of_mem listed) reads
  cases List.mem_singleton.1 last
  -- The read side comes last, so all writes are bound before it.
  have unwritten : y ∉ c.writes.map Prod.snd := by
    intro written
    obtain ⟨write, listed, rfl⟩ := List.mem_map.1 written
    have early : (write.2, [write.2]) ∈ c.writes.map fun write => (write.2, [write.2]) :=
      List.mem_map_of_mem (f := fun write : String × NodeId => (write.2, [write.2])) listed
    have bound : (write.2, [write.2]) ∈ before := by
      obtain ⟨rest, whole, tail⟩ | ⟨rest, rfl, -⟩ := List.append_eq_append_iff.1 run
      · cases rest with
        | nil => simpa [whole] using early
        | cons step rest =>
          obtain ⟨rfl, -⟩ := List.cons.inj tail
          have inside : (c.read, []) ∈ c.writes.map fun write => (write.2, [write.2]) := by simp [whole]
          simp at inside
      · exact List.mem_append_left _ early
    exact unbound _ bound (List.mem_singleton.2 rfl)
  obtain ⟨late, same⟩ | ⟨-, beyond, shown, only, held⟩ := cut.reads
  · rw [same] at reads
    cases reads with
    | before _ free => exact sep.derivation_closed cut free
    | pending cut' left written =>
      obtain rfl := cut.apart cut' c.derivation.id_mem_ids left.mem_ids
      exact unwritten written
    | stored _ beyond => exact absurd beyond (sep.not_new cut.top_mem)
  · cases reads with
    | before live => exact absurd beyond (sep.not_new live)
    | pending cut' left => exact absurd beyond (sep.not_new (cut'.subset left.mem_ids))
    | stored _ _ _ held' =>
      cases held.symm.trans held'
      exact unwritten (by simp [only])

theorem reads_of_free (free : b.Free x y) (shadow : Shadow a b t x x₀ i) (outer : t.Unmaintained a x₀) :
    Reads a b t x y := by
  induction free generalizing x₀ i with
  | @read x y name held within =>
    cases shadow with
    | old live =>
      obtain ⟨k, there, refilled, -⟩ := sep.old_kind live held
      obtain rfl := refilled.reference
      refine .before live (.read there fun l held' => ?_)
      obtain ⟨l', now, refilled⟩ := sep.refilled (sep.staged.links live there y (List.mem_singleton.2 rfl)) held'
      rw [← refilled.isGlobal]
      exact within l' now
    | stored cut written beyond held' =>
      cases held.symm.trans held'
      exact .stored cut beyond written held'
    | split cut => cases held.symm.trans cut.halves
  | @named x y q v' next shown name held binding _ ih =>
    cases shadow with
    | old live =>
      obtain ⟨k, there, refilled, -⟩ := sep.old_kind live held
      obtain rfl := refilled.reference
      have named := sep.staged.links live there q (List.mem_singleton.2 rfl)
      obtain ⟨name₀, v, next₀, binding₀, turns, -⟩ := sep.old_binding named binding
      obtain ⟨j, shadow⟩ := shadow_of_turns turns (sep.staged.child_mem named binding₀ (by simp))
      have leads : a.Leads x v := .of_name there (by simp [Arena.code, binding₀])
      obtain ⟨rfl, free⟩ | ⟨c, cut, left, written⟩ := sep.reads_slot named binding₀ (by simp) turns
        binding (by simp) (ih shadow (sep.staged.leads_unmaintained live outer leads))
      · exact .before live (.named there binding₀ free)
      · exact .pending cut (sep.left_of_named cut left live outer there binding₀) written
    | @stored c _ _ _ cut written beyond held' =>
      cases held.symm.trans held'
      have written := List.mem_map_of_mem (f := Prod.snd) written
      have named := cut.written_live written
      obtain ⟨name₀, v, next₀, binding₀, turns, -⟩ := sep.old_binding named binding
      have inside := sep.staged.child_mem named binding₀ (c := v) (by simp)
      obtain ⟨j, shadow⟩ := shadow_of_turns turns inside
      have leads : a.Leads q v := .of_part binding₀ (by simp [Kind.entered, Kind.isInert, Kind.children])
      obtain ⟨rfl, free⟩ | ⟨c, cut', left, -⟩ := sep.reads_slot named binding₀ (by simp) turns
        binding (by simp) (ih shadow (sep.staged.leads_unmaintained named outer leads))
      · have late := (sep.staged.late_of_free inside free).of_exposes
          (.single ⟨_, binding₀, rfl, by simp⟩)
        exact absurd late (cut.written_cases written).1
      · exact absurd (cut'.left_reached left).2.2 (cut.written_cases written).1
    | split cut => cases held.symm.trans cut.halves
  | @part x y p l before after bound held run _ unbound ih =>
    have part : p ∈ l.entered := Arena.mem_entered_of_runs run (List.mem_append_right before List.mem_cons_self)
    cases shadow with
    | old live =>
      obtain ⟨k, there, refilled, alike⟩ := sep.old_kind live held
      have inert : k.isInert = false := by
        by_contra inert
        rw [Kind.entered_of_isInert (refilled.isInert.trans (by simpa using inert))] at part
        cases part
      obtain ⟨run₀, listed, related⟩ := alike.runs inert run
      obtain ⟨before₀, rest, rfl, first, others⟩ := forall₂_append_left related.flip
      obtain ⟨⟨p₀, bound₀⟩, after₀, ⟨turns, same⟩, -, rfl⟩ := List.forall₂_cons_left_iff.1 others
      have entered : p₀ ∈ k.entered := Arena.mem_entered_of_runs listed (List.mem_append_right before₀ List.mem_cons_self)
      have child := Kind.mem_children_of_entered entered
      obtain ⟨j, shadow⟩ := shadow_of_turns turns (sep.staged.child_mem live there child)
      obtain ⟨rfl, free⟩ | ⟨c, cut, left, written⟩ := sep.reads_slot live there child turns held
        (Kind.mem_children_of_entered part) (ih shadow (sep.staged.leads_unmaintained live outer (.of_part there entered)))
      · refine .before live (.part there listed free fun step inside => ?_)
        obtain ⟨step', inside', -, same'⟩ := Tree.exists_of_mem_forall₂ first step inside
        exact same' ▸ unbound step' inside'
      · exact .pending cut left written
    | stored _ _ _ held' =>
      cases held.symm.trans held'
      cases part
    | split cut =>
      cases held.symm.trans cut.halves
      refine absurd ?_ (sep.split_closed cut run unbound)
      obtain ⟨p₀, j, shadow, step, -⟩ := sep.leads_shadow (.split cut) (.of_part held part)
      refine ih shadow (sep.staged.reaches_unmaintained cut.top_mem outer ?_)
      exact step.elim Relation.TransGen.to_reflTransGen fun same => same.1 ▸ .refl
  | @body x y p name params held _ unbound ih =>
    cases shadow with
    | old live =>
      obtain ⟨k, there, refilled, alike⟩ := sep.old_kind live held
      cases alike with
      | @function shown _ params₀ _ body₀ _ same turns =>
        obtain rfl : params₀ = params := List.forall₂_eq_eq_eq ▸ same
        have child : body₀ ∈ (Kind.function shown params₀ body₀).children := by simp
        obtain ⟨j, shadow⟩ := shadow_of_turns turns (sep.staged.child_mem live there child)
        have leads : a.Leads x body₀ := .of_part there (by simp [Kind.entered])
        obtain ⟨rfl, free⟩ | ⟨c, cut, left, written⟩ := sep.reads_slot live there child turns held
          (by simp) (ih shadow (sep.staged.leads_unmaintained live outer leads))
        · exact .before live (.body there free unbound)
        · exact .pending cut left written
      | inert _ inert => cases refilled.isInert.trans inert
      | handed _ _ idle => exact idle.elim
    | stored _ _ _ held' => cases held.symm.trans held'
    | split cut => cases held.symm.trans cut.halves

theorem closed (live : x ∈ t.ids) (outer : t.Unmaintained a x) (closed : ∀ y, ¬ a.Free x y)
    (off : ∀ c : Cut, c.In a b t → ¬ LeftTo a c.derivation x) : ¬ b.Free x y := by
  intro free
  cases sep.reads_of_free free (.old live) outer with
  | before _ free => exact closed y free
  | pending cut left => exact off _ cut left
  | stored _ beyond => exact absurd beyond (sep.not_new live)

theorem bound_cases (shadow : Shadow a b t z x₀ i) (held : b.kind? z = some l) (bound : y ∈ l.binds z) :
    (z ∈ t.ids ∧ ∃ k, a.kind? z = some k ∧ y ∈ k.binds z) ∨ ∃ c : Cut, c.In a b t ∧ z = c.split ∧ y ∈ c.writes.map
    Prod.snd := by
  cases shadow with
  | old live =>
    obtain ⟨k, there, refilled, alike⟩ := sep.old_kind live held
    cases inert : k.isInert with
    | true =>
      rw [Kind.binds_of_isInert (refilled.isInert.trans inert)] at bound
      cases bound
    | false => exact .inl ⟨live, k, there, alike.binds inert ▸ bound⟩
  | stored _ _ _ held' =>
    cases held.symm.trans held'
    cases bound
  | split cut =>
    cases held.symm.trans cut.halves
    exact .inr ⟨_, cut, rfl, bound⟩

theorem entered_from_split {name : String} {next : NodeId} (cut : c.In a b t) (written : w ∈ c.writes.map Prod.snd)
    (binding : a.kind? w = some (.binding name v next)) (shadow : Shadow a b t x x₀ i) (leads : b.Leads x w) :
    x = c.split := by
  have within := cut.written_mem written
  have live := cut.subset within
  have coded {q : NodeId} (named : q ∈ t.ids) (code : w ∈ b.code q) : False := by
    obtain ⟨shown, next, held⟩ | ⟨rfl, -, other⟩ := sep.code_cases named code
    · exact sep.unread named held (by simp) cut written
    · rw [Arena.isBinding_eq binding] at other
      cases other
  obtain ⟨l, held, part | ⟨target, shown, rfl, code⟩⟩ := leads
  · cases shadow with
    | old above => exact absurd written (sep.unread above held (Kind.mem_children_of_entered part) cut)
    | stored _ _ _ held' =>
      cases held.symm.trans held'
      cases part
    | split cut' =>
      cases held.symm.trans cut'.halves
      obtain written' | read := List.mem_append.1 part
      · rw [cut.apart cut' within (cut'.written_mem written')]
      · exact absurd (List.mem_singleton.1 read) (sep.written_ne_read cut written cut')
  · cases shadow with
    | old above =>
      obtain ⟨k, there, refilled, -⟩ := sep.old_kind above held
      obtain rfl := refilled.reference
      exact (coded (sep.staged.links above there target (List.mem_singleton.2 rfl)) code).elim
    | stored cut' written' _ held' =>
      cases held.symm.trans held'
      exact (coded (cut'.written_live (List.mem_map_of_mem written')) code).elim
    | split cut' => cases held.symm.trans cut'.halves

theorem written_binder (cut : c.In a b t) (written : y ∈ c.writes.map Prod.snd) (live : z ∈ t.ids)
    (held : a.kind? z = some k) (bound : y ∈ k.binds z) : z = y ∧ ∃ name v next, k = .binding name v next := by
  obtain ⟨rfl, binding⟩ | ⟨shown, declared, param⟩ := sep.staged.bound_kind live held bound
  · exact ⟨rfl, binding⟩
  · exact absurd written (cut.not_written_of_param param)

theorem named_not_left {target : NodeId} {name : String} (cut : c.In a b t) (way : a.Reaches c.property x)
    (held : a.kind? x = some (.reference target name)) (self : target ∈ a.code target) (cut' : c'.In a b t) :
    ¬ LeftTo a c'.derivation target := by
  intro left
  have live := sep.staged.reaches_mem cut.live way
  have top := sep.staged.named_top live held self
  obtain rfl := sep.staged.top_of_inner top cut'.whole cut'.top_mem cut'.inner left.mem_ids
  cases top with
  | @listed p k inside held' listed =>
    obtain rfl := cut'.only_slot inside held' (Kind.mem_children_of_lists listed)
    cases held'.symm.trans cut'.slot
    cases listed
  | own _ _ _ _ whole same within =>
    obtain rfl := whole.unique cut'.whole same
    have round := sep.staged.reaches_through cut.live cut'.whole cut'.top_mem cut'.inner
      (cut'.property_outside cut) way within
    exact sep.staged.acyclic sep.staged.plain cut'.top_mem
      (Relation.TransGen.tail' round (.of_name held self))

theorem ordered (cut : c.In a b t) : b.Ordered c.property where
  closed y := by
    refine sep.closed cut.live cut.property_free (fun _ => sep.property_closed cut) fun c' cut' left => ?_
    exact cut'.property_outside cut left.mem_ids
  outside {x target name} reaches held self y := by
    obtain ⟨x₀, i, shadow, way⟩ := sep.reaches_shadow (.old cut.live) reaches
    cases shadow with
    | old live =>
      obtain ⟨k, there, refilled, -⟩ := sep.old_kind live held
      obtain rfl := refilled.reference
      have named := sep.staged.links live there target (List.mem_singleton.2 rfl)
      obtain ⟨shown, next, binding⟩ | ⟨-, self, -⟩ := sep.code_cases named self
      · obtain ⟨_, v₀, _, binding₀, turns, -⟩ := sep.old_binding named binding
        obtain rfl := sep.turns_live turns named
        exact absurd rfl (sep.staged.child_ne named binding₀ (by simp))
      have leads : a.Leads x target := .of_name there self
      have outer := sep.staged.reaches_unmaintained cut.live cut.property_free way
      refine sep.closed named (sep.staged.leads_unmaintained live outer leads) (fun _ => sep.staged.closed live there self)
        fun c' cut' left => ?_
      exact sep.named_not_left cut way there self cut' left
    | stored cut' written _ held' =>
      cases held.symm.trans held'
      have written := List.mem_map_of_mem (f := Prod.snd) written
      intro free
      exact sep.written_closed cut' written (sep.reads_of_free free
        (.old (cut'.written_live written)) (sep.written_free cut' written))
    | split cut' => cases held.symm.trans cut'.halves
  acyclic reaches := by
    obtain ⟨x₀, i, shadow, -⟩ := sep.reaches_shadow (.old cut.live) reaches
    exact sep.acyclic shadow
  binder {y z z' k k'} reaches reaches' held held' bound bound' := by
    obtain ⟨_, _, shadow, -⟩ := sep.reaches_shadow (.old cut.live) reaches
    obtain ⟨_, _, shadow', -⟩ := sep.reaches_shadow (.old cut.live) reaches'
    obtain ⟨live, k₀, there, bound⟩ | ⟨c₁, cut₁, rfl, written⟩ := sep.bound_cases shadow held bound
    · obtain ⟨live', k₀', there', bound'⟩ | ⟨c₁, cut₁, rfl, written⟩ := sep.bound_cases shadow' held' bound'
      · exact .inl (sep.staged.binder_unique live live' there there' bound bound')
      · obtain ⟨rfl, -⟩ := sep.written_binder cut₁ written live there bound
        exact .inr (.inl (.of_part cut₁.halves (List.mem_append_left _ written)))
    · obtain ⟨live', k₀', there', bound'⟩ | ⟨c₂, cut₂, rfl, written'⟩ := sep.bound_cases shadow' held' bound'
      · obtain ⟨rfl, name, v, next, rfl⟩ := sep.written_binder cut₁ written live' there' bound'
        refine .inr (.inr ⟨fun u reached leads => ?_, fun run listed others inside => ?_⟩)
        · obtain ⟨_, _, shadow, -⟩ := sep.reaches_shadow (.old cut.live) reached
          exact sep.entered_from_split cut₁ written there' shadow leads
        · cases held.symm.trans cut₁.halves
          obtain rfl := List.mem_singleton.1 listed
          obtain first | last := List.mem_append.1 inside
          · obtain ⟨write, -, same⟩ := List.mem_map.1 first
            cases same
            exact List.mem_singleton.2 rfl
          · exact absurd (Prod.mk.inj (List.mem_singleton.1 last)).1 (sep.written_ne_read cut₁ written cut₁)
      · left
        rw [cut₁.apart cut₂ (cut₁.written_mem written) (cut₂.written_mem written')]

theorem leads_solid (live : x ∈ t.ids) (outer : t.Unmaintained a x) (leads : a.Leads x y) :
    a.role? y ≠ some .param := by
  obtain ⟨k, held, part⟩ | ⟨q, shown, name, next, held, binding⟩ | ⟨name, held, self, -⟩ :=
    sep.staged.leads_cases live leads
  · rw [sep.staged.entered live outer held part]
    decide
  · have outer' := sep.staged.leads_unmaintained live outer leads
    obtain ⟨above, -⟩ := sep.staged.named_let live held binding
    rw [sep.staged.entered above (fun m stands inside maintained below => ?_) binding
      (c := y) (by simp [Kind.entered, Kind.isInert, Kind.children])]
    · decide
    · obtain ⟨s, part, below⟩ := Tree.mem_idsOf.1 below
      refine outer' m stands inside maintained (Tree.mem_idsOf.2 ⟨s, part, ?_⟩)
      exact (stands.child part).mem_of_child below binding (by simp)
  · intro param
    obtain ⟨k, there, role⟩ := Arena.exists_of_role? param
    cases k <;> simp_all [Arena.code, Kind.role]

theorem reaches_solid (cut : c.In a b t) (way : a.Reaches c.property y) : a.role? y ≠ some .param := by
  obtain rfl | ⟨x, before, leads⟩ := Relation.ReflTransGen.cases_tail way
  · rw [Arena.role?_of_kind? cut.slot]
    simp [Kind.role]
  · exact sep.leads_solid (sep.staged.reaches_mem cut.live before)
      (sep.staged.reaches_unmaintained cut.live cut.property_free before) leads

theorem sound_before (cut : c.In a b t) : a.Sound (a.Reaches c.property) :=
  sep.staged.sound cut.live (fun _ => sep.reaches_solid cut)
    (sep.staged.ordered sep.staged.plain cut.live fun _ => sep.property_closed cut).undisturbed

theorem sound_after (cut : c.In a b t) : b.Sound (b.Reaches c.property) where
  leads reaches leads := reaches.tail leads
  outside := (sep.ordered cut).outside
  binds {x y k} reaches held bound l there := by
    obtain ⟨_, _, shadow, -⟩ := sep.reaches_shadow (.old cut.live) reaches
    obtain ⟨live, k₀, held₀, bound⟩ | ⟨c', cut', -, written⟩ := sep.bound_cases shadow held bound
    · have inside : y ∈ t.ids := (Kind.mem_binds bound).elim (· ▸ live) (sep.staged.child_mem live held₀)
      obtain ⟨l₀, there₀, refilled, -⟩ := sep.old_kind inside there
      rw [refilled.isGlobal]
      exact sep.staged.bound_local live held₀ bound l₀ there₀
    · obtain ⟨l₀, there₀, refilled, -⟩ :=
        sep.old_kind (cut'.written_live written) there
      rw [refilled.isGlobal]
      exact cut'.written_local written there₀
  steady reaches held run listed := (sep.ordered cut).steady reaches held listed
  solid {x name declared} reaches param := by
    obtain ⟨_, _, shadow, way⟩ := sep.reaches_shadow (.old cut.live) reaches
    cases shadow with
    | old live =>
      obtain ⟨k, there, refilled, alike⟩ := sep.old_kind live param
      cases alike with
      | param => exact sep.reaches_solid cut way (Arena.role?_of_kind? there)
      | inert _ inert => cases refilled.isInert.trans inert
      | handed _ _ idle => exact idle.elim
    | stored _ _ _ held => cases param.symm.trans held
    | split cut' => cases param.symm.trans cut'.halves

end Separated

end Storage

end DerivedTables
