import DerivedTables.Proofs.Storage.Moved

/-!
What a split leaves of the derived columns.
-/

namespace DerivedTables

open Tree Pass

@[simp] theorem Kind.isLocal_withChildren (k : Kind) (filled : List NodeId) :
    (k.withChildren filled).isLocal = k.isLocal := by
  unfold withChildren
  split <;> rfl

namespace Storage

structure IsColumn (a : Arena) (c : NodeId × String × NodeId) (t : Tree) : Prop where
  here : t.id = c.2.2
  stands : (Tree.node c.1 (.derived c.2.1 t.id) [t]).StandsIn a

namespace IsColumn

variable {a b : Arena} {c c' : NodeId × String × NodeId} {s t u : Tree}

theorem not_within (layered : u.Layered a) (whole : u.StandsIn a) (first : IsColumn a c s) (second : IsColumn a c' t)
    (live : c'.1 ∈ u.ids) (other : c.1 ≠ c'.1) : c.1 ∉ (Tree.node c'.1 (.derived c'.2.1 t.id) [t]).ids := by
  intro inside
  have inner : a.Inner t.id := layered.inner live second.stands.held (by simp [Kind.layer]) _ (by simp [Kind.children])
  have below : t.id ∈ u.ids := whole.mem_of_child live second.stands.held (by simp [Kind.children])
  simp only [ids, idsOf_singleton, List.mem_cons, other, false_or] at inside
  have inner := layered.inner_ids whole (second.stands.child (by simp)) below inner inside
  rw [Arena.Inner, Arena.layer?_of_kind? first.stands.held] at inner
  cases inner

theorem apart (layered : u.Layered a) (whole : u.StandsIn a) (once : u.ids.Nodup) (first : IsColumn a c s)
    (second : IsColumn a c' t) (inside : c.1 ∈ u.ids) (inside' : c'.1 ∈ u.ids) (other : c.1 ≠ c'.1) :
    ∀ x ∈ (Tree.node c.1 (.derived c.2.1 s.id) [s]).ids, x ∉ (Tree.node c'.1 (.derived c'.2.1 t.id) [t]).ids := by
  intro x here there
  obtain within | within := whole.nested once first.stands second.stands inside inside' here there
  · exact first.not_within layered whole second inside' other within
  · exact second.not_within layered whole first inside other.symm within

theorem congr (is_column : IsColumn a c t)
    (same : ∀ x ∈ (Tree.node c.1 (.derived c.2.1 t.id) [t]).ids, b.kind? x = a.kind? x) : IsColumn b c t :=
  ⟨is_column.here, is_column.stands.congr same⟩

end IsColumn

/-- Whether a node of the arena is for the reader. -/
abbrev isLate (a : Arena) : NodeId → Bool := needsReader a (a.size + 1)

def LeftTo (a : Arena) (d : Tree) (x : NodeId) : Prop := isLate a d.id = true ∧ d.Opened (isLate a) x

theorem LeftTo.mem_ids {a : Arena} {d : Tree} {x : NodeId} (left : LeftTo a d x) : x ∈ d.ids := left.2.mem_ids

inductive Halved (a : Arena) (d : Tree) : Tree → List (String × Tree) → Prop
  | late {r : Tree} {ws : List (String × Tree)} (asks : isLate a d.id = true) (top : r.id = d.id)
    (halves : Halves (isLate a) a.size .null [d] [r] ws) : Halved a d r ws
  | early {r : NodeId} {shown : String} (early : isLate a d.id = false) (fresh : a.size ≤ r) :
    Halved a d (.node r (.reference d.id shown) []) [(shown, d)]

structure Hoisted (a b : Arena) (d r : Tree) (ws : List (String × Tree)) : Prop where
  halved : Halved a d r ws
  stand : ∀ t ∈ r :: ws.map Prod.snd, t.StandsIn b
  once : (idsOf (r :: ws.map Prod.snd)).Nodup
  origin : ∀ {x}, x ∈ idsOf (r :: ws.map Prod.snd) → x ∈ d.ids ∨ a.size ≤ x

structure Column (a b : Arena) (p : NodeId) (name : String) (d : Tree) (split read : NodeId)
    (ws : List (String × NodeId)) : Prop where
  derivation : d.StandsIn a
  held : b.kind? p = some (.derived name split)
  halves : b.kind? split = some (.split read ws)
  beyond : a.size ≤ split
  hoisted : ∃ r trees, r.id = read ∧ ws = noted trees ∧ Hoisted a b d r trees
  numbered : Numbered name ws

section Column

variable {a b : Arena} {p split read x : NodeId} {name : String} {d r : Tree} {ws : List (String × NodeId)}
  {trees : List (String × Tree)} {k : Kind}

theorem Halved.written_sublist (halved : Halved a d r trees) : (idsOf (trees.map Prod.snd)).Sublist d.ids := by
  cases halved with
  | late _ _ halves =>
    have written := halves.written_sublist
    rwa [idsOf_singleton] at written
  | early => simp

theorem Halved.covered (halved : Halved a d r trees) : d.ids ⊆ idsOf (r :: trees.map Prod.snd) := by
  cases halved with
  | late _ _ halves =>
    have covered := halves.covered
    rwa [idsOf_singleton, idsOf_singleton] at covered
  | early => exact fun x inside => List.mem_append_right _ (by simpa using inside)

theorem Hoisted.kind_eq (hoisted : Hoisted a b d r trees) (stands : d.StandsIn a) (inside : x ∈ d.ids)
    (other : ¬ LeftTo a d x) : b.kind? x = a.kind? x := by
  obtain ⟨⟨asks, top, halves⟩ | ⟨early, fresh⟩, stand, -, -⟩ := hoisted
  · refine halves.kind_eq (by simpa using stands) stand (by simpa using inside) ?_
    simpa using fun asks opened => other ⟨asks, opened⟩
  · exact stands.kind_eq (stand d (by simp)) inside

namespace Column

variable (column : Column a b p name d split read ws)

include column

theorem reads : isLate a d.id = true ∧ read = d.id ∨ isLate a d.id = false ∧ a.size ≤ read ∧
    ∃ shown, ws = [(shown, d.id)] ∧ b.kind? read = some (.reference d.id shown) := by
  obtain ⟨r, trees, rfl, rfl, ⟨asks, top, -⟩ | ⟨early, fresh⟩, stand, -, -⟩ := column.hoisted
  · exact .inl ⟨asks, top⟩
  · exact .inr ⟨early, fresh, _, rfl, (stand _ (.head _)).held⟩

theorem opened (left : LeftTo a d x) (held : a.kind? x = some k) : ∃ children,
    b.kind? x = some (k.withChildren children) ∧ List.Forall₂ (Replaces a.size b ws) k.children children := by
  obtain ⟨r, trees, rfl, rfl, ⟨asks, top, halves⟩ | ⟨early, fresh⟩, stand, once, -⟩ := column.hoisted
  · obtain ⟨rfl, before, after, inner, inside, among⟩ := halves.at_opened (by simpa using column.derivation)
      (fun r listed => stand r (List.mem_cons.2 (.inl (List.mem_singleton.1 listed)))) (by simp) left.1 left.2
    cases held.symm.trans before.kind
    refine ⟨_, after.held, before.slots ▸ inner.replaced (fun r part => after.child part) among fun r part written => ?_⟩
    rw [noted_snd] at written
    obtain ⟨s, listed, same⟩ := List.mem_map.1 written
    refine (List.nodup_append.1 once).2.2 r.id ?_ s.id (mem_idsOf.2 ⟨s, listed, s.id_mem_ids⟩) same.symm
    simpa using inside (mem_idsOf.2 ⟨r, part, r.id_mem_ids⟩)
  · cases early.symm.trans left.1

theorem written_mem {write : String × NodeId} (written : write ∈ ws) : write.2 ∈ d.ids := by
  obtain ⟨r, trees, rfl, rfl, hoisted⟩ := column.hoisted
  obtain ⟨tree, listed, rfl⟩ := List.mem_map.1 written
  exact hoisted.halved.written_sublist.subset (mem_idsOf.2 ⟨tree.2, List.mem_map_of_mem listed, tree.2.id_mem_ids⟩)

theorem written {write : String × NodeId} (written : write ∈ ws) : isLate a write.2 = false ∧ (write.2 = d.id ∨
    ∃ s part : Tree, LeftTo a d s.id ∧ s.StandsIn a ∧ part ∈ s.parts ∧ part.id = write.2 ∧
      Storable (isLate a) s.kind part) := by
  obtain ⟨r, trees, rfl, rfl, ⟨asks, top, halves⟩ | ⟨early, fresh⟩, -, -, -⟩ := column.hoisted
  · obtain ⟨tree, listed, rfl⟩ := List.mem_map.1 written
    obtain ⟨here, storable⟩ | ⟨t, here, -, s, opened, stands, part, storable⟩ :=
      halves.slot (by simpa using column.derivation) listed
    · rw [List.mem_singleton.1 here] at storable
      cases storable.early.symm.trans asks
    · rw [List.mem_singleton.1 here] at opened
      exact ⟨storable.early, .inr ⟨s, tree.2, ⟨asks, opened⟩, stands, part, rfl, storable⟩⟩
  · rw [List.mem_singleton.1 written]
    exact ⟨early, .inl rfl⟩

end Column

end Column

section Splitting

variable {a b : Arena} {p : NodeId} {name : String} {d : Tree}

theorem readSide_runs (name : String) (stands : d.StandsIn a) (once : d.ids.Nodup) : ∃ r trees w, readSide name d.id
    ⟨a, []⟩ = .ok r.id w ∧ w.notes = noted trees ∧ Numbered name w.notes ∧ Halved a d r trees ∧ RewrittenAll a w.arena
    [d] (r :: trees.map Prod.snd) ∧ ∀ {x l}, a.size ≤ x → w.arena.kind? x = some l → ∃ write ∈ trees, l = .reference
    write.2.id write.1 := by
  rw [readSide, bind_of_ok (arena_run _)]
  dsimp only
  split
  · rename_i asks
    obtain ⟨r, trees, w, ran, top, stored⟩ := storeBelow_runs name
      ((stands.height_le_size once).trans (Nat.le_succ _)) ⟨a, []⟩ asks stands once
    have stored := stored .null
    refine ⟨r, trees, w, ?_, stored.notes, stored.numbered rfl, .late asks top stored.halves, stored.rewritten, stored.made⟩
    rw [bind_of_ok ran, top]
    rfl
  · rename_i early
    obtain ⟨shown, w, ran, notes, named, -, rewritten, made⟩ := store_runs name (w := ⟨a, []⟩) stands once
    have numbered : Numbered name w.notes := notes ▸ named ▸ Numbered.push (rfl : Numbered name []) d.id
    exact ⟨.node a.size (.reference d.id shown) [], [(shown, d)], w, ran, notes, numbered, .early (by simpa using early) le_rfl, rewritten, fun beyond held =>
      ⟨_, List.mem_singleton_self _, made beyond held⟩⟩

structure ColumnSplit (a b : Arena) (p : NodeId) (name : String) (d : Tree) (split read : NodeId)
    (ws : List (String × NodeId)) : Prop extends Column a b p name d split read ws where
  rewritten : ∃ t : Tree, t.id = p ∧ Rewritten a b (.node p (.derived name d.id) [d]) t ∧
    (Tree.node p (.derived name d.id) [d]).ids ⊆ t.ids
  kept : ∀ {x}, x < a.size → x ≠ p → ¬ LeftTo a d x → b.kind? x = a.kind? x
  made : ∀ {x k}, a.size ≤ x → b.kind? x = some k → x = split ∨ ∃ shown c, (shown, c) ∈ ws ∧ k = .reference c shown

theorem splitColumn_runs (stands : (Tree.node p (.derived name d.id) [d]).StandsIn a)
    (once : (Tree.node p (.derived name d.id) [d]).ids.Nodup) :
    ∃ w' split read ws, splitColumn p name d.id ⟨a, []⟩ = .ok () w' ∧ ColumnSplit a w'.arena p name d split read ws := by
  have inner : d.StandsIn a := stands.child (by simp)
  obtain ⟨r, trees, w, ran, notes, numbered, halved, rewritten, made⟩ :=
    readSide_runs name inner (nodup_of_mem (List.nodup_cons.1 once).2 (by simp))
  obtain ⟨b, _⟩ := w
  cases notes
  have order : (r :: trees.map Prod.snd).Perm (trees.map Prod.snd ++ [r]) := (List.perm_append_singleton ..).symm
  have pushed := (rewritten.perm order).push (n := ⟨.split r.id (noted trees), b.ty? r.id, none⟩)
    (by simp [Kind.children])
  have place := Arena.lt_size_of_kind? stands.held
  have whole := pushed.node stands once (by simp)
  have moved : ¬ [Tree.node b.size (.split r.id (noted trees)) (trees.map Prod.snd ++ [r])].map Tree.id =
      (Kind.derived name d.id).children := by
    have old := rewritten.size.trans' (inner.lt_size _ d.id_mem_ids)
    simpa [Kind.children] using Nat.ne_of_gt old
  simp only [moved, if_false] at whole
  have halves := whole.stands.child (List.mem_singleton_self _)
  have stand : ∀ t ∈ r :: trees.map Prod.snd, t.StandsIn _ := fun t listed => halves.child (order.mem_iff.1 listed)
  have hoisted : Hoisted a _ d r trees := ⟨halved, stand, rewritten.once, fun inside => by
    simpa using rewritten.origin inside⟩
  refine ⟨⟨_, noted trees⟩, b.size, r.id, noted trees, ?_, ⟨inner, whole.stands.held, halves.held, rewritten.size, ⟨r, trees, rfl, rfl,
    hoisted⟩, numbered⟩, ⟨_, rfl, whole, fun x listed => ?_⟩, fun {x} below other left => ?_, fun {x k} beyond held => ?_⟩
  · rw [splitColumn, bind_of_ok ran]
    rfl
  · simp only [ids, idsOf_singleton, List.mem_cons] at listed ⊢
    exact listed.imp_right fun inside => .inr ((mem_idsOf_perm order).1 (halved.covered inside))
  · by_cases inside : x ∈ d.ids
    · exact hoisted.kind_eq inner inside left
    · exact whole.kept below (by simp [ids, other, inside])
  · change ((b.push _).setKind p _).kind? x = _ at held
    rw [Arena.kind?_setKind, if_neg (Nat.ne_of_lt (place.trans_le beyond))] at held
    obtain ⟨rfl, -⟩ | held := Arena.kind?_push_cases held
    · exact .inl rfl
    · obtain ⟨write, written, rfl⟩ := made beyond held
      exact .inr ⟨_, _, List.mem_map_of_mem written, rfl⟩

theorem late_congr {t : Tree} (stands : t.StandsIn a) (same : ∀ x ∈ t.ids, b.kind? x = a.kind? x)
    (locals : ∀ x, (b.kind? x).any Kind.isLocal = (a.kind? x).any Kind.isLocal) {x : NodeId} (inside : x ∈ t.ids) :
    isLate b x = isLate a x := by
  have asks {y : NodeId} (inside : y ∈ t.ids) : b.AsksReader y ↔ a.AsksReader y := by
    have mentions : b.MentionsLocal y ↔ a.MentionsLocal y := by
      have any (c : Arena) : c.MentionsLocal y ↔ ∃ target shown, c.kind? y = some (.reference target shown) ∧
          (c.kind? target).any Kind.isLocal = true := by
        simp only [Arena.MentionsLocal, Option.any_eq_true]
        constructor
        · rintro ⟨target, shown, k, held, there, isLocal⟩
          exact ⟨target, shown, held, k, there, isLocal⟩
        · rintro ⟨target, shown, held, k, there, isLocal⟩
          exact ⟨target, shown, k, held, there, isLocal⟩
      simp only [any, same y inside, locals]
    simp only [Arena.AsksReader, mentions, same y inside]
  have stays {y : NodeId} (way : Relation.ReflTransGen a.Exposes x y) :
      y ∈ t.ids ∧ Relation.ReflTransGen b.Exposes x y := by
    induction way with
    | refl => exact ⟨inside, .refl⟩
    | @tail y z _ exposes ih =>
      obtain ⟨k, held, maintained, child⟩ := exposes
      exact ⟨stands.mem_of_child ih.1 held child,
        ih.2.tail ⟨k, (same y ih.1).trans held, maintained, child⟩⟩
  have back {y : NodeId} (way : Relation.ReflTransGen b.Exposes x y) :
      y ∈ t.ids ∧ Relation.ReflTransGen a.Exposes x y := by
    induction way with
    | refl => exact ⟨inside, .refl⟩
    | @tail y z _ exposes ih =>
      obtain ⟨k, held, maintained, child⟩ := exposes
      rw [same y ih.1] at held
      exact ⟨stands.mem_of_child ih.1 held child,
        ih.2.tail ⟨k, held, maintained, child⟩⟩
  rw [Bool.eq_iff_iff, needsReader_iff, needsReader_iff]
  constructor
  · rintro ⟨y, way, asked⟩
    exact ⟨y, (back way).2, (asks (back way).1).1 asked⟩
  · rintro ⟨y, way, asked⟩
    exact ⟨y, (stays way).2, (asks (stays way).1).2 asked⟩

theorem opened_congr {late other : NodeId → Bool} {t : Tree} (same : ∀ x ∈ t.ids, other x = late x) {x : NodeId}
    (opened : t.Opened other x) : t.Opened late x := by
  induction opened with
  | here t => exact .here t
  | @deeper t s x part asks _ ih =>
    have inner (y : NodeId) (inside : y ∈ s.ids) : y ∈ t.ids := t.ids_eq ▸ List.mem_cons_of_mem _ (ids_of_part part inside)
    exact .deeper part (same s.id (inner _ s.id_mem_ids) ▸ asks) (ih fun y inside => same y (inner y inside))

section Sequence

variable {c : Arena} {split read : NodeId} {ws : List (String × NodeId)}

theorem Column.of_later (column : Column b c p name d split read ws) (stands : d.StandsIn a) (size : a.size ≤ b.size)
    (late : ∀ x ∈ d.ids, isLate b x = isLate a x) : Column a c p name d split read ws := by
  refine ⟨stands, column.held, column.halves, size.trans column.beyond, ?_, column.numbered⟩
  obtain ⟨r, trees, top, notes, halved, stand, once, origin⟩ := column.hoisted
  refine ⟨r, trees, top, notes, ?_, stand, once, fun inside => (origin inside).imp_right size.trans⟩
  have here := late d.id d.id_mem_ids
  obtain ⟨asks, top, halves⟩ | ⟨early, fresh⟩ := halved
  · exact .late (here ▸ asks) top (halves.mono size (by simpa using late))
  · exact .early (here ▸ early) (size.trans fresh)

theorem Column.stays (column : Column a b p name d split read ws)
    (kept : ∀ x < b.size, x = p ∨ x ∈ d.ids ∨ a.size ≤ x → c.kind? x = b.kind? x) :
    Column a c p name d split read ws := by
  have still {x : NodeId} {k : Kind} (held : b.kind? x = some k) (here : x = p ∨ x ∈ d.ids ∨ a.size ≤ x) :
      c.kind? x = some k := (kept x (Arena.lt_size_of_kind? held) here).trans held
  refine ⟨column.derivation, still column.held (.inl rfl), still column.halves (.inr (.inr column.beyond)), column.beyond, ?_,
    column.numbered⟩
  obtain ⟨r, trees, top, notes, halved, stand, once, origin⟩ := column.hoisted
  refine ⟨r, trees, top, notes, halved, fun t listed => (stand t listed).congr fun x inside => ?_, once, origin⟩
  exact kept x ((stand t listed).lt_size x inside) (.inr (origin (mem_idsOf.2 ⟨t, listed, inside⟩)))

structure Divided (a b : Arena) (columns : List (NodeId × String × NodeId)) : Prop where
  size : a.size ≤ b.size
  column : ∀ {c d}, c ∈ columns → IsColumn a c d → ∃ split read ws, Column a b c.1 c.2.1 d split read ws
  kept : ∀ {x}, x < a.size → (∀ {c d}, c ∈ columns → IsColumn a c d → x ≠ c.1 ∧ ¬ LeftTo a d x) →
    b.kind? x = a.kind? x
  made : ∀ {x k}, a.size ≤ x → b.kind? x = some k → ∃ c ∈ columns, ∃ d split read ws, IsColumn a c d ∧
    Column a b c.1 c.2.1 d split read ws ∧ (x = split ∨ ∃ shown y, (shown, y) ∈ ws ∧ k = .reference y shown)

namespace Divided

variable {columns more : List (NodeId × String × NodeId)}

theorem nil (a : Arena) : Divided a a [] where
  size := le_rfl
  column := by simp
  kept _ _ := rfl
  made beyond held := absurd (Arena.lt_size_of_kind? held) (Nat.not_lt.2 beyond)

theorem kind_cases (divided : Divided a b columns) {x : NodeId} {k : Kind} (held : a.kind? x = some k) :
    (∃ c ∈ columns, ∃ d, IsColumn a c d ∧ x = c.1) ∨ ∃ children, b.kind? x = some (k.withChildren children) ∧
    List.Forall₂ (fun y r => r = y ∨ ∃ shown, b.kind? r = some (.reference y shown)) k.children children := by
  by_cases property : ∃ c ∈ columns, ∃ d, IsColumn a c d ∧ x = c.1
  · exact .inl property
  · refine .inr ?_
    by_cases left : ∃ c ∈ columns, ∃ d, IsColumn a c d ∧ LeftTo a d x
    · obtain ⟨c, listed, d, is_column, left⟩ := left
      obtain ⟨split, read, ws, column⟩ := divided.column listed is_column
      obtain ⟨children, held', filled⟩ := column.opened left held
      refine ⟨children, held', filled.imp fun y r replaces => ?_⟩
      cases replaces with
      | kept => exact .inl rfl
      | stored _ _ named => exact .inr ⟨_, named⟩
    · refine ⟨k.children, ?_, List.forall₂_same.2 fun _ _ => .inl rfl⟩
      rw [Kind.withChildren_children, divided.kept (Arena.lt_size_of_kind? held) fun listed is_column =>
        ⟨fun same => property ⟨_, listed, _, is_column, same⟩, fun here => left ⟨_, listed, _, is_column, here⟩⟩, held]

theorem locals (divided : Divided a b columns) (x : NodeId) :
    (b.kind? x).any Kind.isLocal = (a.kind? x).any Kind.isLocal := by
  by_cases old : x < a.size
  · obtain ⟨k, held⟩ := Arena.exists_kind?_of_lt old
    obtain ⟨c, listed, d, is_column, rfl⟩ | ⟨children, held', -⟩ := divided.kind_cases held
    · obtain ⟨split, read, ws, column⟩ := divided.column listed is_column
      rw [column.held, is_column.stands.held]
      rfl
    · simp [held, held']
  · have beyond : a.size ≤ x := Nat.le_of_not_lt old
    have nothing : a.kind? x = none := by
      cases held : a.kind? x with
      | none => rfl
      | some k => exact absurd (Arena.lt_size_of_kind? held) old
    rw [nothing]
    cases held : b.kind? x with
    | none => rfl
    | some k =>
      obtain ⟨c, listed, d, split, read, ws, -, column, rfl | ⟨shown, y, -, rfl⟩⟩ := divided.made beyond held
      · cases held.symm.trans column.halves
        rfl
      · rfl

theorem cons (divided : Divided a b columns) {col : NodeId × String × NodeId} (is_column : IsColumn a col d)
    (apart : ∀ {c' d'}, c' ∈ columns → IsColumn a c' d' → ∀ x ∈ (Tree.node col.1 (.derived col.2.1 d.id) [d]).ids,
      x ∉ (Tree.node c'.1 (.derived c'.2.1 d'.id) [d']).ids)
    (same : ∀ x ∈ (Tree.node col.1 (.derived col.2.1 d.id) [d]).ids, b.kind? x = a.kind? x)
    (done : ColumnSplit b c col.1 col.2.1 d split read ws) : Divided a c (col :: columns) := by
  have old (x : NodeId) (below : x ∈ (Tree.node col.1 (.derived col.2.1 d.id) [d]).ids) : x < a.size :=
    is_column.stands.lt_size x below
  have inner {x : NodeId} (below : x ∈ d.ids) : x ∈ (Tree.node col.1 (.derived col.2.1 d.id) [d]).ids := by
    simp [ids, idsOf, below]
  have stands : d.StandsIn a := is_column.stands.child (by simp)
  have late (x : NodeId) (inside : x ∈ d.ids) : isLate b x = isLate a x :=
    late_congr stands (fun x below => same x (inner below)) divided.locals inside
  have fresh : Column a c col.1 col.2.1 d split read ws := done.of_later stands divided.size late
  have outside {x : NodeId} (below : x < b.size) (off : x ∉ (Tree.node col.1 (.derived col.2.1 d.id) [d]).ids) :
      c.kind? x = b.kind? x :=
    done.kept below (fun same => off (by simp [ids, same])) fun left => off (inner left.mem_ids)
  have elsewhere {c' d'} (listed : c' ∈ columns) (other : IsColumn a c' d') {x : NodeId} (below : x < b.size)
      (there : x = c'.1 ∨ x ∈ d'.ids ∨ a.size ≤ x) : c.kind? x = b.kind? x := by
    refine outside below fun here => ?_
    have far := apart listed other x here
    obtain same | inside | beyond := there
    · exact far (by simp [ids, same])
    · exact far (by simp [ids, idsOf, inside])
    · exact absurd (old x here) (Nat.not_lt.2 beyond)
  refine ⟨divided.size.trans ?_, fun {c' d'} listed other => ?_, fun {x} below off => ?_, fun {x k} beyond held => ?_⟩
  · obtain ⟨t, -, rewritten, -⟩ := done.rewritten
    exact rewritten.size
  · obtain rfl | listed := List.mem_cons.1 listed
    · obtain rfl : d' = d := (other.stands.child (by simp)).unique stands (other.here.trans is_column.here.symm)
      exact ⟨split, read, ws, fresh⟩
    · obtain ⟨split', read', ws', column'⟩ := divided.column listed other
      exact ⟨split', read', ws', column'.stays fun x below there => elsewhere listed other below there⟩
  · have here := off (.head _) is_column
    have before : b.kind? x = a.kind? x := divided.kept below fun listed other => off (.tail _ listed) other
    refine (done.kept (below.trans_le divided.size) here.1 fun left => here.2 ?_).trans before
    exact ⟨late _ d.id_mem_ids ▸ left.1, opened_congr late left.2⟩
  · by_cases new : b.size ≤ x
    · exact ⟨col, by simp, d, split, read, ws, is_column, fresh, done.made new held⟩
    · have below : x < b.size := Nat.lt_of_not_le new
      rw [outside below fun here => absurd (old x here) (Nat.not_lt.2 beyond)] at held
      obtain ⟨c', listed, d', split', read', ws', other, column', made'⟩ := divided.made beyond held
      exact ⟨c', by simp [listed], d', split', read', ws', other,
        column'.stays fun x below there => elsewhere listed other below there, made'⟩

end Divided

theorem ColumnSplit.linked {u : Tree} (done : ColumnSplit a b p name d split read ws) (linked : u.Linked a)
    (stands : (Tree.node p (.derived name d.id) [d]).StandsIn a) (inside : p ∈ u.ids) :
    ∃ v : Tree, v.id = u.id ∧ v.Linked b ∧ u.ids ⊆ v.ids ∧ ∀ x ∈ v.ids, x ∈ u.ids ∨ a.size ≤ x := by
  obtain ⟨t, top, rewritten, covers⟩ := done.rewritten
  obtain ⟨v, same, lifted, kept, holds⟩ := rewritten.lift top linked.stands linked.once stands inside
  have covered : u.ids ⊆ v.ids := fun x listed => (kept x listed).elim (fun below => holds (covers below)) fun there => there
  refine ⟨v, same, ⟨lifted.stands, lifted.once, fun {y k} listed held x link => ?_⟩, covered, fun x => lifted.origin⟩
  by_cases old : y < a.size
  · have live : y ∈ u.ids := (lifted.origin listed).resolve_right fun beyond => absurd old (Nat.not_lt.2 beyond)
    refine covered ?_
    by_cases property : y = p
    · rw [property, done.held] at held
      cases held
      cases link
    by_cases left : LeftTo a d y
    · obtain ⟨l, before⟩ := Arena.exists_kind?_of_lt old
      obtain ⟨children, held', -⟩ := done.opened left before
      cases held.symm.trans held'
      rw [Kind.links_withChildren] at link
      exact linked.links live before x link
    · rw [done.kept old property left] at held
      exact linked.links live held x link
  · obtain rfl | ⟨shown, target, written, rfl⟩ := done.made (Nat.le_of_not_lt old) held
    · cases held.symm.trans done.halves
      cases link
    · rw [Kind.links, List.mem_singleton] at link
      rw [link]
      exact holds (covers (by simp [ids, idsOf, done.written_mem written]))

inductive ColumnsSplit : List (NodeId × String × NodeId) → Arena → Arena → Prop
  | nil (a : Arena) : ColumnsSplit [] a a
  | cons {property derivation : NodeId} {column : String} {more : List (NodeId × String × NodeId)}
    {a b : Arena} {w : Workspace (List (String × NodeId))}
    (first : splitColumn property column derivation ⟨a, []⟩ = .ok () w)
    (rest : ColumnsSplit more w.arena b) : ColumnsSplit ((property, column, derivation) :: more) a b

theorem exists_splitAll {root : NodeId} (summary : StorageSummary) (columns : ColumnsSplit (unsplit a root) a b) :
    ∃ total, splitAll root ⟨a, summary⟩ = .ok () ⟨b, total⟩ := by
  rw [splitAll]
  simp only [bind_of_ok (arena_run _)]
  generalize unsplit a root = all at columns
  induction columns generalizing summary with
  | nil => exact ⟨summary, rfl⟩
  | @cons property derivation column more a b w first rest ih =>
    obtain ⟨total, done⟩ := @ih ⟨summary.properties + 1, summary.writes + w.notes.length⟩
    refine ⟨total, ?_⟩
    simp only [List.forIn_cons, bind_assoc]
    have got : (get : Pass RowsError StorageSummary _) ⟨a, summary⟩ = .ok ⟨a, summary⟩ ⟨a, summary⟩ := rfl
    rw [bind_of_ok got]
    simp only [EStateM.run, first]
    exact done

variable {columns : List (NodeId × String × NodeId)}

theorem exists_column {u : Tree} (stands : u.StandsIn a) (once : u.ids.Nodup) {col : NodeId × String × NodeId}
    (listed : col ∈ unsplit a u.id) : col.1 ∈ u.ids ∧ ∃ t, IsColumn a col t := by
  obtain ⟨id, live, found⟩ := List.mem_filterMap.1 listed
  rw [stands.descendants_eq once] at live
  split at found
  · rename_i column derivation held
    split at found
    · cases found
    · cases found
      refine ⟨live, ?_⟩
      obtain ⟨⟨x, kind, parts⟩, rfl, standing⟩ := stands.exists_at live
      cases held.symm.trans standing.held
      obtain ⟨t, rfl, rfl⟩ : ∃ t, parts = [t] ∧ t.id = derivation := by
        have filled : [derivation] = parts.map Tree.id := standing.filled
        cases parts with
        | nil => cases filled
        | cons t rest => cases rest <;> simp_all
      exact ⟨t, rfl, standing⟩
  · cases found

theorem unsplit_nodup {u : Tree} (stands : u.StandsIn a) (once : u.ids.Nodup) :
    ((unsplit a u.id).map Prod.fst).Nodup := by
  rw [unsplit, stands.descendants_eq once]
  refine List.Nodup.sublist ?_ once
  generalize u.ids = ids
  induction ids with
  | nil => exact .slnil
  | cons id ids ih =>
    rw [List.filterMap_cons]
    split
    · exact ih.cons _
    · rename_i c found
      have same : c.1 = id := by
        split at found
        · split at found
          · cases found
          · cases found
            rfl
        · cases found
      rw [List.map_cons, same]
      exact ih.cons_cons _

theorem mem_unsplit {u : Tree} (layered : u.Layered a) (whole : u.StandsIn a) (once : u.ids.Nodup) (inside : p ∈ u.ids)
    {derivation : NodeId} (held : a.kind? p = some (.derived name derivation)) :
    (p, name, derivation) ∈ unsplit a u.id := by
  refine List.mem_filterMap.2 ⟨p, whole.descendants_eq once ▸ inside, ?_⟩
  simp only [held]
  split
  · rename_i held'
    have below : derivation ∈ u.ids := whole.mem_of_child inside held (by simp [Kind.children])
    exact absurd rfl (layered.unsplit below held')
  · rfl

/-- Columns one after another: those still to come are as they were at the start. -/
theorem Divided.run (divided : Divided a b columns) {more : List (NodeId × String × NodeId)} {u v : Tree}
    (layered : u.Layered a) (whole : u.StandsIn a) (once : u.ids.Nodup) (before : ∀ col ∈ columns, col.1 ∈ u.ids)
    (ahead : ∀ col ∈ more, col.1 ∈ u.ids ∧ ∃ d, IsColumn a col d) (distinct : (more.map Prod.fst).Nodup)
    (apart : ∀ col ∈ more, ∀ c' ∈ columns, col.1 ≠ c'.1) (top : v.id = u.id) (linked : v.Linked b) (covers : u.ids ⊆ v.ids)
    (origin : ∀ x ∈ v.ids, x ∈ u.ids ∨ a.size ≤ x) : ∃ c all, ColumnsSplit more b c ∧ Divided a c all ∧ (∀ col, col ∈ all ↔ col ∈ columns ∨ col ∈ more) ∧
      ∃ v' : Tree, v'.id = u.id ∧ v'.Linked c ∧ u.ids ⊆ v'.ids ∧ ∀ x ∈ v'.ids, x ∈ u.ids ∨ a.size ≤ x := by
  induction more generalizing b columns v with
  | nil => exact ⟨b, columns, .nil b, divided, by simp, v, top, linked, covers, origin⟩
  | cons col more ih =>
    rw [List.forall_mem_cons] at ahead apart
    obtain ⟨⟨inside, d, is_column⟩, ahead⟩ := ahead
    rw [List.map_cons, List.nodup_cons] at distinct
    have far {c' d'} (listed : c' ∈ columns) (other : IsColumn a c' d') := is_column.apart layered whole once other inside
      (before c' listed) (apart.1 c' listed)
    have same (x : NodeId) (below : x ∈ (Tree.node col.1 (.derived col.2.1 d.id) [d]).ids) : b.kind? x = a.kind? x := by
      refine divided.kept (is_column.stands.lt_size x below) fun listed other => ?_
      have far := far listed other x below
      exact ⟨fun same => far (by simp [ids, same]), fun left => far (by simp [ids, idsOf, left.mem_ids])⟩
    have now : IsColumn b col d := is_column.congr same
    obtain ⟨w, split, read, ws, ran, done⟩ := splitColumn_runs now.stands
      ((whole.sublist_within is_column.stands inside).nodup once)
    rw [now.here] at ran
    obtain ⟨v', top', linked', covers', origin'⟩ := done.linked linked now.stands (covers inside)
    obtain ⟨c, all, split, finished, members, last⟩ := ih (divided.cons is_column far same done)
      (List.forall_mem_cons.2 ⟨inside, before⟩) ahead distinct.2
      (fun col listed => List.forall_mem_cons.2 ⟨fun same => distinct.1 (same ▸ List.mem_map_of_mem listed),
        apart.2 col listed⟩) (top'.trans top) linked' (List.Subset.trans covers covers')
      fun x listed => (origin' x listed).elim (origin x) fun new => .inr (divided.size.trans new)
    refine ⟨c, all, .cons ran split, finished, fun col => ?_, last⟩
    rw [members, List.mem_cons, List.mem_cons]
    tauto

theorem splitAll_runs {u : Tree} (layered : u.Layered a) (linked : u.Linked a) (summary : StorageSummary) : ∃ b total
    columns, splitAll u.id ⟨a, summary⟩ = .ok () ⟨b, total⟩ ∧
    (∃ v : Tree, v.id = u.id ∧ v.Linked b ∧ u.ids ⊆ v.ids ∧ ∀ x ∈ v.ids, x ∈ u.ids ∨ a.size ≤ x) ∧ Divided a b columns ∧
    (∀ col ∈ columns, col.1 ∈ u.ids ∧ ∃ d, IsColumn a col d) ∧ ∀ {p name derivation}, p ∈ u.ids → a.kind? p = some
    (.derived name derivation) → (p, name, derivation) ∈ columns := by
  have each (col : NodeId × String × NodeId) (listed : col ∈ unsplit a u.id) : col.1 ∈ u.ids ∧ ∃ d, IsColumn a col d :=
    exists_column linked.stands linked.once listed
  obtain ⟨b, all, split, divided, members, last⟩ := (Divided.nil a).run layered linked.stands linked.once (by simp) each
    (unsplit_nodup linked.stands linked.once) (by simp) rfl linked (List.Subset.refl _)
    fun x => .inl
  obtain ⟨total, ran⟩ := exists_splitAll summary split
  refine ⟨b, total, all, ran, last, divided, fun col listed => each col ?_, fun inside held => (members _).2 (.inr ?_)⟩
  · simpa using (members col).1 listed
  · exact mem_unsplit layered linked.stands linked.once inside held

end Sequence

end Splitting

end Storage

end DerivedTables
