import DerivedTables.Proofs.Compilation.Staging
import DerivedTables.Proofs.Storage.Writes

/-!
Inlining what is written undoes a split.
-/

namespace DerivedTables

open Tree

/-- What stood in the slot where `x` stands now, if everything at or above the floor was made to stand for
something else. -/
def Arena.putBack (b : Arena) (floor : Nat) (x : NodeId) : NodeId := if x < floor then x else (b.target? x).getD x

theorem map_of_forall₂ {α β : Type} {R : α → β → Prop} {f : β → α} {xs : List α} {ys : List β} (related : List.Forall₂ R xs ys)
    (each : ∀ x ∈ xs, ∀ y, R x y → f y = x) : ys.map f = xs := by
  induction related with
  | nil => rfl
  | cons here _ ih =>
    rw [List.forall_mem_cons] at each
    rw [List.map_cons, each.1 _ here, ih each.2]

namespace Storage

namespace Halves

variable {late : NodeId → Bool} {floor : Nat} {k : Kind} {t : Tree} {ts rs : List Tree} {ws : List (String × Tree)}
  {a b : Arena} {x : NodeId}

theorem written_stands (halves : Halves late floor k ts rs ws) (stand : ∀ t ∈ ts, t.StandsIn a) :
    ∀ s ∈ ws.map Prod.snd, s.StandsIn a := by
  intro s listed
  obtain ⟨write, written, rfl⟩ := List.mem_map.1 listed
  obtain ⟨here, -⟩ | ⟨-, -, -, u, -, stands, part, -⟩ := halves.slot stand written
  · exact stand _ here
  · exact stands.child part

theorem made_kinds (halves : Halves late floor k ts rs ws) (old : ∀ x ∈ idsOf ts, x < floor) (after : ∀ r ∈ rs, r.StandsIn b) :
    ((idsOf rs).filter (floor ≤ ·)).map b.kind? = ws.map fun write => some (.reference write.2.id write.1) := by
  induction halves with
  | nil => rfl
  | @opened _ s _ _ _ _ _ _ _ _ ihInside ih =>
    rw [idsOf, s.ids_eq, List.cons_append, List.forall_mem_cons, List.forall_mem_append] at old
    rw [List.forall_mem_cons] at after
    rw [idsOf, ids, List.cons_append, List.filter_cons_of_neg (by simpa using old.1), List.filter_append, List.map_append,
      List.map_append, ihInside old.2.1 fun r part => after.1.child part, ih old.2.2 after.2]
  | stored _ fresh _ ih =>
    rw [idsOf, List.forall_mem_append] at old
    rw [List.forall_mem_cons] at after
    rw [idsOf, ids, idsOf, List.cons_append, List.filter_cons_of_pos (by simpa using fresh), List.map_cons, List.map_cons,
      List.nil_append, ih old.2 after.2, after.1.held]
  | kept _ _ _ ih =>
    rw [idsOf, List.forall_mem_append] at old
    rw [List.forall_mem_cons] at after
    have none_ : (ids _).filter (floor ≤ ·) = [] := List.filter_eq_nil_iff.2 fun x inside => by simpa using old.1 x inside
    rw [idsOf, List.filter_append, none_, List.nil_append, ih old.2 after.2]

theorem part_cases (halves : Halves late floor k ts rs ws) {r : Tree} (listed : r ∈ rs) :
    late r.id = true ∨ isWorthStoring r.kind = false ∨ r ∈ ts ∧ late r.id = false ∧ ¬ Storable late k r := by
  induction halves with
  | nil => cases listed
  | opened asks _ _ _ ih =>
    obtain rfl | listed := List.mem_cons.1 listed
    · exact .inl asks
    · exact (ih listed).imp_right (.imp_right fun rest => ⟨List.mem_cons_of_mem _ rest.1, rest.2⟩)
  | stored _ _ _ ih =>
    obtain rfl | listed := List.mem_cons.1 listed
    · exact .inr (.inl rfl)
    · exact (ih listed).imp_right (.imp_right fun rest => ⟨List.mem_cons_of_mem _ rest.1, rest.2⟩)
  | kept early unfit _ ih =>
    obtain rfl | listed := List.mem_cons.1 listed
    · exact .inr (.inr ⟨by simp, early, unfit⟩)
    · exact (ih listed).imp_right (.imp_right fun rest => ⟨List.mem_cons_of_mem _ rest.1, rest.2⟩)

theorem opened_of_late (halves : Halves late floor k ts rs ws) (before : ∀ t ∈ ts, t.StandsIn a) (top : ∀ c ∈ ts, late
    c.id = false → ¬ Storable late k c → c.parts = []) (bare : ∀ t ∈ ts, late t.id = true → ∀ s : Tree, t.Opened late
    s.id → s.StandsIn a → ∀ c ∈ s.parts, late c.id = false → ¬ Storable late s.kind c → c.parts = []) (old : x < floor)
    (asks : late x = true) (inside : x ∈ idsOf rs) : ∃ t ∈ ts, late t.id = true ∧ t.Opened late x := by
  induction halves with
  | nil => cases inside
  | @opened _ s _ _ _ _ _ asks' _ _ ihInside ih =>
    rw [List.forall_mem_cons] at before top bare
    obtain here | there := List.mem_append.1 inside
    · refine ⟨s, by simp, asks', ?_⟩
      obtain rfl | below := List.mem_cons.1 here
      · exact .here s
      · obtain ⟨t, part, asks, opened⟩ := ihInside (fun c part => before.1.child part) (bare.1 asks' s (.here s) before.1)
          (fun t part asks u opened => bare.1 asks' u (.deeper part asks opened)) below
        exact .deeper part asks opened
    · obtain ⟨t, part, rest⟩ := ih before.2 top.2 bare.2 there
      exact ⟨t, List.mem_cons_of_mem _ part, rest⟩
  | stored _ fresh _ ih =>
    rw [List.forall_mem_cons] at before top bare
    obtain here | there := List.mem_append.1 inside
    · rw [ids, idsOf, List.mem_singleton] at here
      exact absurd old (Nat.not_lt.2 (here ▸ fresh))
    · obtain ⟨t, part, rest⟩ := ih before.2 top.2 bare.2 there
      exact ⟨t, List.mem_cons_of_mem _ part, rest⟩
  | @kept _ s _ _ _ early unfit _ ih =>
    rw [List.forall_mem_cons] at before top bare
    obtain here | there := List.mem_append.1 inside
    · rw [s.ids_eq, top.1 early unfit, idsOf, List.mem_singleton] at here
      cases early.symm.trans (here ▸ asks)
    · obtain ⟨t, part, rest⟩ := ih before.2 top.2 bare.2 there
      exact ⟨t, List.mem_cons_of_mem _ part, rest⟩

end Halves

/-- The halves of a derivation `d` of `a` after its split in `b`. -/
structure Inlines (a b : Arena) (d read : NodeId) (writes : List (String × NodeId)) : Prop where
  /-- With what is written back in its slots, what is read is the derivation, node for node. -/
  top : b.putBack a.size read = d
  inlined : ∀ x ∈ a.descendants d, ∃ k children, a.kind? x = some k ∧ b.kind? x = some (k.withChildren children) ∧
    children.map (b.putBack a.size) = k.children
  /-- What was made to be read are references to what is written, one for each and in order. -/
  named : ((b.descendants read).filter (a.size ≤ ·)).map b.kind? =
    writes.map fun write => some (.reference write.2 write.1)
  /-- What is written are parts of the derivation that are apart, from left to right. -/
  ordered : (writes.flatMap fun write => a.descendants write.2).Sublist (a.descendants d)
  apart : (writes.flatMap fun write => a.descendants write.2).Nodup
  /-- Under what is for the reader, nothing is left that could be stored. -/
  settled : ∀ x ∈ b.descendants read, isLate a x = true → ∀ k, b.kind? x = some k → ∀ c ∈ k.children,
    isLate a c = true ∨ ∃ l, b.kind? c = some l ∧ isWorthStoring l = false

variable {a b : Arena} {t d : Tree} {p split read x : NodeId} {name : String} {ws : List (String × NodeId)} {k : Kind}

theorem children_of_not_worth (held : a.kind? x = some k) (worthless : isWorthStoring k = false) (early : isLate a x = false) :
    k.children = [] := by
  cases k with
  | function n ps body =>
    have late : isLate a x = true := needsReader_iff.2 ⟨x, .refl, .inr ⟨n, ps, body, held⟩⟩
    cases late.symm.trans early
  | param | string | number | boolean | identifier | reference | context | null => rfl
  | _ => cases worthless

theorem Orderly.not_worth (orderly : Orderly a t) (live : p ∈ t.ids) (stands : (Tree.node p (.derived name d.id) [d]).StandsIn a)
    {s c : Tree} (left : LeftTo a d s.id) (standing : s.StandsIn a) (part : c ∈ s.parts)
    (unfit : ¬ Storable (isLate a) s.kind c) (early : isLate a c.id = false) : isWorthStoring c.kind = false := by
  have inner : d.StandsIn a := stands.child (by simp)
  have slot : d.id ∈ (Kind.derived name d.id).children := by simp [Kind.children]
  have top := orderly.child_mem live stands.held slot
  have isInner : a.Inner d.id := orderly.layered.inner live stands.held (by simp [Kind.layer]) _ slot
  have inside : s.id ∈ t.ids := (orderly.stands.sublist_within inner top).subset left.mem_ids
  have free : t.Unmaintained a d.id := orderly.leads_unmaintained live
    (unmaintained_of_layer orderly.layered orderly.stands stands.held (by simp [Kind.layer]))
    (.of_part stands.held (by simp [Kind.entered, Kind.isInert, Kind.children]))
  obtain ⟨-, free, late⟩ := orderly.opened_reached inner top free isInner (needsReader_iff.1 left.1) left.2
  have layer : s.kind.layer = .inner := Option.some_injective _ ((Arena.layer?_of_kind? standing.kind).symm.trans
    (orderly.layered.inner_ids orderly.stands inner top isInner left.mem_ids))
  have child : c.id ∈ s.kind.children := standing.slots ▸ List.mem_map_of_mem part
  by_contra worth
  -- It is worth storing, so it is the name of a member, and members are not evaluated.
  obtain ⟨object, access⟩ : ∃ object, s.kind = .access object c.id := by
    by_contra other
    exact unfit ⟨early, by simpa using worth, fun object same => other ⟨object, same⟩⟩
  refine worth ((orderly.passed inside free standing.kind (not_maintained_of_late late standing.kind) (by simp [layer]) child
    ?_).2 c.kind (standing.child part).kind)
  have once := nodup_map_id (List.nodup_cons.1 (s.ids_eq ▸ ((orderly.stands.sublist_within standing inside).nodup orderly.once))).2
  rw [← standing.slots, access] at once
  rw [access, Kind.entered, List.mem_singleton]
  simpa [Kind.children, eq_comm] using once

theorem Column.inlines (column : Column a b p name d split read ws) (orderly : Orderly a t) (live : p ∈ t.ids)
    (stands : (Tree.node p (.derived name d.id) [d]).StandsIn a) : Inlines a b d.id read ws := by
  have inner := column.derivation
  have once : d.ids.Nodup := by
    have once := (orderly.stands.sublist_within stands live).nodup orderly.once
    exact nodup_of_mem (List.nodup_cons.1 once).2 (by simp)
  have listed := inner.descendants_eq once
  have old {x : NodeId} (inside : x ∈ d.ids) : b.putBack a.size x = x := if_pos (inner.lt_size x inside)
  have back {x r : NodeId} (inside : x ∈ d.ids) (replaces : Replaces a.size b ws x r) : b.putBack a.size r = x := by
    cases replaces with
    | kept => exact old inside
    | stored beyond _ held =>
      rw [Arena.putBack, if_neg (Nat.not_lt.2 beyond), Arena.target?_eq_some held, Option.getD_some]
  obtain ⟨r, trees, rfl, rfl, hoisted⟩ := id column.hoisted
  have read := (hoisted.stand r (by simp)).descendants_eq (List.nodup_append.1 hoisted.once).1
  have written : ∀ s ∈ trees.map Prod.snd, s.StandsIn a := by
    obtain ⟨-, -, halves⟩ | ⟨-, -⟩ := hoisted.halved
    · exact halves.written_stands (by simpa using inner)
    · simpa using inner
  have writes : ((noted trees).flatMap fun write => a.descendants write.2) = idsOf (trees.map Prod.snd) := by
    rw [noted, List.flatMap_map, idsOf_eq_flatMap, List.flatMap_map]
    refine List.flatMap_congr fun write there => (written _ (List.mem_map_of_mem there)).descendants_eq ?_
    exact nodup_of_mem (List.nodup_append.1 hoisted.once).2.1 (List.mem_map_of_mem there)
  refine ⟨?_, fun x inside => ?_, ?_, ?_, ?_, fun x inside asks k held c child => ?_⟩
  · obtain ⟨-, same⟩ | ⟨-, beyond, shown, -, held⟩ := column.reads
    · rw [same, old d.id_mem_ids]
    · rw [Arena.putBack, if_neg (Nat.not_lt.2 beyond), Arena.target?_eq_some held, Option.getD_some]
  · rw [listed] at inside
    obtain ⟨k, held⟩ := Arena.exists_kind?_of_lt (inner.lt_size x inside)
    have below {c : NodeId} (child : c ∈ k.children) : c ∈ d.ids :=
      inner.mem_of_child inside held child
    by_cases left : LeftTo a d x
    · obtain ⟨children, held', filled⟩ := column.opened left held
      exact ⟨k, children, held, held', map_of_forall₂ filled fun c child r => back (below child)⟩
    · refine ⟨k, k.children, held, ?_, map_of_forall₂ (R := Eq) (List.forall₂_refl _) ?_⟩
      · rw [Kind.withChildren_children, hoisted.kind_eq inner inside left, held]
      · rintro c child r rfl
        exact old (below child)
  · rw [read]
    obtain ⟨-, -, halves⟩ | ⟨-, fresh⟩ := hoisted.halved
    · have made := halves.made_kinds (by simpa using inner.lt_size) (b := b)
        (by simpa using hoisted.stand r (by simp))
      rw [idsOf_singleton] at made
      rw [made, noted, List.map_map]
      rfl
    · simp [ids, idsOf, noted, fresh, (hoisted.stand _ (.head _)).held]
  · rw [writes, listed]
    exact hoisted.halved.written_sublist
  · rw [writes]
    exact (List.nodup_append.1 hoisted.once).2.1
  · rw [read] at inside
    have old := (needsReader_iff.1 asks).lt_size
    obtain ⟨late, -, halves⟩ | ⟨-, fresh⟩ := hoisted.halved
    · have before : ∀ u ∈ [d], u.StandsIn a := by simpa using inner
      have top : ∀ c ∈ [d], isLate a c.id = false → ¬ Storable (isLate a) .null c → c.parts = [] := by
        intro c here early
        rw [List.mem_singleton.1 here, late] at early
        cases early
      have bare : ∀ u ∈ [d], isLate a u.id = true → ∀ s : Tree, u.Opened (isLate a) s.id → s.StandsIn a → ∀ c ∈ s.parts,
          isLate a c.id = false → ¬ Storable (isLate a) s.kind c → c.parts = [] := by
        intro u here _ s opened standing c part early unfit
        rw [List.mem_singleton.1 here] at opened
        have worthless := orderly.not_worth live stands ⟨late, opened⟩ standing part unfit early
        have leaf := (standing.child part).slots
        rw [children_of_not_worth (standing.child part).kind worthless early] at leaf
        exact List.map_eq_nil_iff.1 leaf.symm
      obtain ⟨u, here, -, opened⟩ := halves.opened_of_late before top bare old asks (by simpa using inside)
      rw [List.mem_singleton.1 here] at opened
      obtain ⟨rfl, standing, after, inner, -, -⟩ := halves.at_opened before
        (fun r' listed => hoisted.stand r' (by simp [List.mem_singleton.1 listed])) (by simp) late opened
      cases held.symm.trans after.held
      rw [after.filled] at child
      obtain ⟨r', part, rfl⟩ := List.mem_map.1 child
      have there := (after.child part).kind
      obtain asks | worthless | ⟨part, early, unfit⟩ := inner.part_cases part
      · exact .inl asks
      · exact .inr ⟨_, there, worthless⟩
      · exact .inr ⟨_, there, orderly.not_worth live stands ⟨late, opened⟩ standing part unfit early⟩
    · rw [ids, idsOf, List.mem_singleton] at inside
      exact absurd old (Nat.not_lt.2 (inside ▸ fresh))

theorem splitAll_of_split {v : Tree} (stands : v.StandsIn b) (once : v.ids.Nodup)
    (split : ∀ x ∈ v.ids, ∀ name y, b.kind? x = some (.derived name y) → ∃ read writes, b.kind? y = some (.split read writes))
    (summary : StorageSummary) : splitAll v.id ⟨b, summary⟩ = .ok () ⟨b, summary⟩ := by
  have nothing : unsplit b v.id = [] := by
    rw [unsplit, stands.descendants_eq once, List.filterMap_eq_nil_iff]
    intro x live
    split
    · rename_i held
      obtain ⟨_, _, held'⟩ := split x live _ _ held
      simp only [held']
    · rfl
  rw [splitAll, bind_of_ok (Pass.arena_run _), nothing]
  rfl

end Storage

/-- The split of a program goes through; inlining undoes it, nothing but derived columns and their derivations
is touched, and a second one does nothing. -/
theorem split_inlines {program : Program} {limit : Nat} {c c₁ c₂ : Compilation} (resolved : (Compilation.lower program
    >>= Compilation.resolve) = .ok c) (typed : c.assignTypes limit = .ok c₁) (recognized : c₁.recognizeRows = .ok c₂) :
    ∃ c₃, c₂.splitColumns = .ok c₃ ∧ (∀ p ∈ c₂.arena.descendants c₂.root, ∀ name d, c₂.arena.kind? p = some (.derived
    name d) → ∃ halves read writes, c₃.arena.kind? p = some (.derived name halves) ∧ c₃.arena.kind? halves = some
    (.split read writes) ∧ Storage.Inlines c₂.arena c₃.arena d read writes) ∧ (∀ x < c₂.arena.size, (∀ p ∈
    c₂.arena.descendants c₂.root, ∀ name d, c₂.arena.kind? p = some (.derived name d) → x ≠ p ∧ x ∉ c₂.arena.descendants
    d) → c₃.arena.kind? x = c₂.arena.kind? x) ∧ c₃.splitColumns = .ok { c₃ with storage := some ⟨0, 0⟩ } := by
  obtain ⟨t, root, orderly⟩ := Compilation.orderly resolved typed (.inr recognized)
  obtain ⟨b, total, columns, ran, ⟨v, top, linked, -, origin⟩, divided, each, all⟩ :=
    Storage.splitAll_runs orderly.layered orderly.toLinked ⟨0, 0⟩
  have live := orderly.stands.descendants_eq orderly.once
  have split {p d : NodeId} {name : String} (inside : p ∈ t.ids) (held : c₂.arena.kind? p = some (.derived name d)) :
      ∃ u halves read writes, u.id = d ∧ (Tree.node p (.derived name u.id) [u]).StandsIn c₂.arena ∧
        Storage.Column c₂.arena b p name u halves read writes := by
    obtain ⟨-, u, is_column⟩ := each _ (all inside held)
    obtain ⟨halves, read, writes, column⟩ := divided.column (all inside held) is_column
    exact ⟨u, halves, read, writes, is_column.here, is_column.stands, column⟩
  rw [root] at ran live
  refine ⟨{ c₂ with arena := b, stage := .split, storage := some total },
    except_bind_eq_ok.2 ⟨((), ⟨b, total⟩), Pass.placed_eq_ok.2 ran, rfl⟩, fun p inside name d held => ?_,
    fun x below outside => ?_, except_bind_eq_ok.2 ⟨((), ⟨b, ⟨0, 0⟩⟩), Pass.placed_eq_ok.2 ?_, rfl⟩⟩
  · rw [live] at inside
    obtain ⟨u, halves, read, writes, rfl, stands, column⟩ := split inside held
    exact ⟨halves, read, writes, column.held, column.halves, column.inlines orderly inside stands⟩
  · refine divided.kept below fun {col u} listed is_column => ?_
    have inside := (each col listed).1
    have off := outside col.1 (live ▸ inside) _ _ is_column.stands.held
    refine ⟨off.1, fun left => off.2 ?_⟩
    have stands : u.StandsIn c₂.arena := is_column.stands.child (by simp)
    have once := (orderly.stands.sublist_within is_column.stands inside).nodup orderly.once
    rw [stands.descendants_eq (nodup_of_mem (List.nodup_cons.1 once).2 (by simp))]
    exact left.mem_ids
  · have again := Storage.splitAll_of_split linked.stands linked.once (fun x inside name y held => ?_) ⟨0, 0⟩
    · rwa [top, root] at again
    obtain live | beyond := origin x inside
    · obtain ⟨k, held'⟩ := Arena.exists_kind?_of_lt (orderly.stands.lt_size x live)
      obtain ⟨col, listed, u, is_column, rfl⟩ | ⟨children, there, -⟩ := divided.kind_cases held'
      · obtain ⟨halves, read, writes, column⟩ := divided.column listed is_column
        cases held.symm.trans column.held
        exact ⟨read, writes, column.halves⟩
      · have layer : k.layer = .property := by
          rw [← Kind.layer_withChildren k children, ← Option.some_injective _ (held.symm.trans there)]
          rfl
        obtain ⟨name', d, rfl⟩ := Kind.derived_of_layer layer
        obtain ⟨u, halves, read, writes, -, -, column⟩ := split live held'
        cases held.symm.trans column.held
        exact ⟨read, writes, column.halves⟩
    · obtain ⟨_, -, _, _, _, _, -, column, rfl | ⟨_, _, -, other⟩⟩ := divided.made beyond held
      · cases held.symm.trans column.halves
      · cases other

/-- With the product back in place of `m_int_0`, what is read of `m` is its derivation. -/
theorem squares_split_inlines : ∃ c c₁ c₂ c₃ name d halves read writes, (Compilation.lower squares >>=
    Compilation.resolve) = .ok c ∧ c.assignTypes 8 = .ok c₁ ∧ c₁.recognizeRows = .ok c₂ ∧ c₂.splitColumns = .ok c₃ ∧
    c₂.arena.kind? 8 = some (.derived name d) ∧ c₃.arena.kind? 8 = some (.derived name halves) ∧ c₃.arena.kind? halves =
    some (.split read writes) ∧ Storage.Inlines c₂.arena c₃.arena d read writes := by
  obtain ⟨c, resolved, succeeds⟩ : ∃ c, (Compilation.lower squares >>= Compilation.resolve) = .ok c ∧
      (c.assignTypes 8).toOption.any (fun c₁ => c₁.recognizeRows.toOption.any fun c₂ =>
        (c₂.arena.descendants c₂.root).contains 8 && c₂.arena.layer? 8 == some .property) = true :=
    except_any (by decide +kernel)
  obtain ⟨c₁, typed, succeeds⟩ := except_any succeeds
  obtain ⟨c₂, recognized, found⟩ := except_any succeeds
  simp only [Bool.and_eq_true, beq_iff_eq, List.contains_iff_mem] at found
  obtain ⟨k, held, layer⟩ := Option.map_eq_some_iff.1 found.2
  obtain ⟨name, d, rfl⟩ := Kind.derived_of_layer layer
  obtain ⟨c₃, split, columns, -⟩ := split_inlines resolved typed recognized
  obtain ⟨halves, read, writes, rest⟩ := columns 8 found.1 name d held
  exact ⟨c, c₁, c₂, c₃, name, d, halves, read, writes, resolved, typed, recognized, split, held, rest⟩

end DerivedTables
