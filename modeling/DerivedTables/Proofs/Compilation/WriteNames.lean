import DerivedTables.Proofs.Compilation.Staging
import DerivedTables.Proofs.Storage.Writes

/-!
The names of what the columns of a table write.
-/

namespace DerivedTables

namespace Storage

theorem takeWhile_writeName (column : String) (n : Nat) :
    (writeName column n).toList.reverse.takeWhile Char.isDigit = (toString n).toList.reverse := by
  have digits : ∀ c ∈ (toString n).toList.reverse, c.isDigit = true := by
    intro c listed
    rw [Nat.toString_eq_ofList_toDigits, String.toList_ofList, List.mem_reverse] at listed
    exact Nat.isDigit_of_mem_toDigits (by decide) (by decide) listed
  rw [writeName, String.toList_append, String.toList_append, List.reverse_append, List.takeWhile_append_of_pos digits,
    List.reverse_append]
  simp

theorem writeName_inj {column column' : String} {n n' : Nat} :
    writeName column n = writeName column' n' ↔ column = column' ∧ n = n' := by
  constructor
  · intro same
    have digits : (toString n).toList = (toString n').toList := by
      apply List.reverse_injective
      rw [← takeWhile_writeName column, ← takeWhile_writeName column', same]
    rw [Nat.toString_eq_ofList_toDigits, Nat.toString_eq_ofList_toDigits, String.toList_ofList, String.toList_ofList] at digits
    obtain rfl : n = n' := by
      rw [← Nat.ofDigitChars_toDigits (b := 10) (n := n) (by decide) (by decide), digits,
        Nat.ofDigitChars_toDigits (by decide) (by decide)]
    exact ⟨(String.append_left_inj _).1 ((String.append_left_inj _).1 same), rfl⟩
  · rintro ⟨rfl, rfl⟩
    rfl

end Storage

namespace Kind

@[simp] theorem label?_withChildren (k : Kind) (filled : List NodeId) : (k.withChildren filled).label? = k.label? := by
  unfold withChildren
  split <;> rfl

theorem definition_of_withChildren {k : Kind} {filled ps : List NodeId} {name : String}
    (shown : k.withChildren filled = .definition name ps) : filled = ps ∧ ∃ ps₀, k = .definition name ps₀ := by
  have same : k.name = (Kind.definition name ps).name := by rw [← shown, name_withChildren]
  cases k with
  | definition =>
    cases shown
    exact ⟨rfl, _, rfl⟩
  | _ => exact absurd same (by simp [Kind.name])

theorem derived_of_withChildren {k : Kind} {filled : List NodeId} {name : String} {d : NodeId}
    (shown : k.withChildren filled = .derived name d) : ∃ d₀, k = .derived name d₀ := by
  have same : k.name = (Kind.derived name d).name := by rw [← shown, name_withChildren]
  have label : k.label? = some name := by rw [← label?_withChildren k filled, shown]; rfl
  cases k with
  | derived =>
    cases label
    exact ⟨_, rfl⟩
  | _ => exact absurd same (by simp [Kind.name])

end Kind

namespace Arena

variable {a b : Arena}

def names (a : Arena) (ids : List NodeId) : List String := ids.filterMap fun id => (a.kind? id).bind Kind.label?

theorem labels_fst (a : Arena) (ids : List NodeId) : (a.labels ids).map Prod.fst = a.names ids := by
  rw [labels, names, List.map_filterMap]
  congr 1
  funext id
  cases (a.kind? id).bind Kind.label? <;> rfl

theorem names_congr {xs ys : List NodeId} (same : List.Forall₂ (fun x y => (b.kind? y).bind Kind.label? = (a.kind?
    x).bind Kind.label?) xs ys) : b.names ys = a.names xs := by
  induction same with
  | nil => rfl
  | cons here _ ih => rw [names, names, List.filterMap_cons, List.filterMap_cons, here, ← names, ← names, ih]

end Arena

namespace Tree

variable {a b : Arena} {t t' : Tree}

def Distinct (a : Arena) (t : Tree) : Prop :=
  ∀ x ∈ t.ids, ∀ name properties, a.kind? x = some (.definition name properties) → (a.names properties).Nodup

theorem IsProgram.distinct {w : Workspace Resolution.Notes} (program : t.IsProgram) (stands : t.StandsIn a) (once : t.ids.Nodup)
    (names : t.resolveProgram = some t') (bound : Resolution.Bound a t t' w) : t'.Distinct w.arena := by
  have lexical := program.lexical stands once
  rw [names] at lexical
  intro x inside name ps held
  obtain ⟨above, path⟩ := stands.exists_path [] (bound.same.2 ▸ inside)
  have held₀ : a.kind? x = some (.definition name ps) := by
    obtain same | ⟨_, _, -, named⟩ := bound.names x
    · rw [← same, held]
    · cases held.symm.trans named
  have apart := (lexical.1 path).properties held₀
  rw [Arena.labels_fst] at apart
  rwa [Arena.names_congr (List.forall₂_same.2 fun p _ => ?_)]
  obtain same | ⟨_, _, plain, named⟩ := bound.names p
  · rw [same]
  · rw [plain, named]
    rfl

theorem Cleared.distinct (cleared : t.Cleared a t') (distinct : t.Distinct a) (cast : t.Cast a) (stands : t.StandsIn a)
    (there : t'.StandsIn b) : t'.Distinct b := by
  intro x inside name ps held
  obtain ⟨k, l, live, held₀, held', became⟩ := cleared.became stands there inside
  cases held.symm.trans held'
  generalize shown : Kind.definition name ps = l at became
  cases became with
  | reference => cases shown
  | @node k left plain parts =>
    obtain ⟨rfl, ps₀, rfl⟩ := Kind.definition_of_withChildren shown.symm
    -- No property only renames something, so the properties are where they were.
    have kept {p p' : NodeId} (listed : p ∈ ps₀) (remains : a.Remains p p') : p' = p := by
      obtain ⟨k, property, role⟩ := Arena.exists_of_role? (cast x live _ held₀ (p, .property) (List.mem_map_of_mem listed))
      refine remains.unique (.kept (Arena.alias?_of_other property ?_))
      rintro name value next rfl
      cases role
    rw [Arena.names_congr (List.forall₂_iff_zip.2 ⟨parts.length_eq, fun {p p'} pair => ?_⟩)]
    · exact distinct x live name ps₀ held₀
    · have remains := (List.forall₂_iff_zip.1 parts).2 pair
      obtain rfl := kept (List.of_mem_zip pair).1 remains
      have listed : p' ∈ left := (List.of_mem_zip pair).2
      obtain ⟨k, l, -, before, after, became⟩ := cleared.became stands there
        (there.mem_of_child inside held (by simpa [Kind.children, Kind.withChildren] using listed))
      rw [before, after]
      cases became with
      | reference => rfl
      | node => exact Kind.label?_withChildren _ _

theorem Becomes.distinct (becomes : t.Becomes t') (distinct : t.Distinct a) (cast : t.Cast a) (stands : t.StandsIn a)
    (there : t'.StandsIn b) (layered : t'.Layered b) : t'.Distinct b := by
  intro x inside name ps held
  obtain ⟨m, standing, subset, made, within⟩ | ⟨k, ts, ts', kept⟩ := becomes.at stands there inside
  · -- What recognition has made has no tables in it.
    have inner : b.Inner m.id := by
      rw [Arena.Inner, Arena.layer?_of_kind? standing.kind]
      cases kind : m.kind <;> first | rfl | (rw [kind] at made; cases made)
    have inner := layered.inner_ids there standing (subset m.id_mem_ids) inner within
    rw [Arena.Inner, Arena.layer?_of_kind? held] at inner
    cases inner
  · obtain ⟨rfl, ps₀, rfl⟩ := Kind.definition_of_withChildren (Option.some_injective _ (kept.after.held.symm.trans held))
    have slots : ps₀ = ts.map Tree.id := kept.before.filled
    have same : List.Forall₂ (fun p p' => (b.kind? p').bind Kind.label? = (a.kind? p).bind Kind.label?) ps₀ (ts'.map Tree.id) := by
      rw [slots, List.forall₂_map_left_iff, List.forall₂_map_right_iff]
      refine List.forall₂_iff_zip.2 ⟨kept.parts.length_eq, fun {s s'} pair => ?_⟩
      have before := kept.before.child (List.of_mem_zip pair).1
      have after := kept.after.child (List.of_mem_zip pair).2
      obtain ⟨k, property, role⟩ := Arena.exists_of_role? (cast x kept.live _ kept.before.held (s.id, .property)
        (List.mem_map_of_mem (slots ▸ List.mem_map_of_mem (List.of_mem_zip pair).1)))
      cases before.kind.symm.trans property
      have head := ((List.forall₂_iff_zip.1 kept.parts).2 pair).sameHead
        (by cases kind : s.kind <;> first | rfl | (rw [kind] at role; cases role))
      rw [after.kind, before.kind, head.kind]
      exact Kind.label?_withChildren _ _
    rw [Arena.names_congr same]
    exact distinct x kept.live name ps₀ kept.before.held

end Tree

namespace Compilation

variable {program : Program} {limit : Nat} {c c₁ c₂ : Compilation}

theorem distinct (resolved : (lower program >>= resolve) = .ok c) (typed : c.assignTypes limit = .ok c₁)
    (recognized : c₁.recognizeRows = .ok c₂) : ∃ t : Tree, t.id = c₂.root ∧ t.StandsIn c₂.arena ∧ t.Distinct c₂.arena := by
  obtain ⟨c₀, lowered, resolved⟩ := except_bind_eq_ok.1 resolved
  obtain ⟨t₀, lowers, held₀⟩ := lower_holds lowered
  obtain ⟨t₁, t, w, named⟩ := held₀.named lowers.isProgram resolved
  have distinct₁ := lowers.isProgram.distinct held₀.stands held₀.once named.names named.bound
  have distinct := named.cleared.distinct distinct₁ named.entire.cast named.entire.stands named.holds.stands
  have held := assignTypes_holds named.holds typed
  have distinct : t.Distinct c₁.arena := by
    have kinds (x : NodeId) : c₁.arena.kind? x = c.arena.kind? x := assignTypes_kind? typed x
    intro x inside name ps table
    rw [kinds] at table
    rw [Arena.names_congr (a := c.arena) (List.forall₂_same.2 fun p _ => by rw [kinds])]
    exact distinct x inside name ps table
  obtain ⟨⟨_, w⟩, ran, last⟩ := except_bind_eq_ok.1 recognized
  cases last
  rw [held.root] at ran
  obtain ⟨t', same, stands, once, grounded, tables, becomes, laid, called⟩ :=
    (Rows.recognize_ends held.formed held.role held.stands held.once (held.grounded.mono_tables (by simp))).ok (Pass.placed_eq_ok.1 ran)
  exact ⟨t', same.trans held.root.symm, stands,
    becomes.distinct distinct held.cast held.stands stands (laid.layered stands)⟩

end Compilation

namespace Storage

variable {a b : Arena} {u : Tree} {columns : List (NodeId × String × NodeId)}

theorem Divided.table (divided : Divided a b columns) (whole : u.StandsIn a) (layered : u.Layered a) (inside : ∀ col ∈
    columns, col.1 ∈ u.ids) {x : NodeId} (live : x ∈ u.ids) {name : String} {ps : List NodeId} (held : b.kind? x = some
    (.definition name ps)) : a.kind? x = some (.definition name ps) ∧ b.names ps = a.names ps := by
  obtain ⟨k, held₀⟩ := Arena.exists_kind?_of_lt (whole.lt_size x live)
  have label {p : NodeId} {k : Kind} (there : a.kind? p = some k) : (b.kind? p).bind Kind.label? = k.label? := by
    obtain ⟨col, listed, d, is_column, rfl⟩ | ⟨children, held', -⟩ := divided.kind_cases there
    · obtain ⟨_, _, _, column⟩ := divided.column listed is_column
      rw [column.held]
      cases is_column.stands.held.symm.trans there
      rfl
    · rw [held']
      exact Kind.label?_withChildren _ _
  have kept : b.kind? x = a.kind? x := by
    refine divided.kept (whole.lt_size x live) fun {col d} listed is_column => ⟨?_, fun left => ?_⟩
    · rintro rfl
      obtain ⟨_, _, _, column⟩ := divided.column listed is_column
      cases held.symm.trans column.held
    · -- Everything below a column is inner, before the split and after it.
      have below : d.id ∈ u.ids := whole.mem_of_child (inside col listed) is_column.stands.held (by simp [Kind.children])
      have inner : a.Inner d.id := layered.inner (inside col listed) is_column.stands.held (by simp [Kind.layer]) _ (by simp [Kind.children])
      have inner := layered.inner_ids whole (is_column.stands.child (by simp)) below inner left.mem_ids
      obtain ⟨_, _, _, column⟩ := divided.column listed is_column
      obtain ⟨children, held', -⟩ := column.opened left held₀
      obtain ⟨-, ps₀, rfl⟩ := Kind.definition_of_withChildren (Option.some_injective _ (held'.symm.trans held))
      rw [Arena.Inner, Arena.layer?_of_kind? held₀] at inner
      cases inner
  rw [kept] at held
  refine ⟨held, Arena.names_congr (List.forall₂_same.2 fun p listed => ?_)⟩
  obtain ⟨k, there⟩ := Arena.exists_kind?_of_lt (whole.lt_size p (whole.mem_of_child live held listed))
  rw [label there, there]
  rfl

theorem Divided.numbered (divided : Divided a b columns) (whole : u.StandsIn a) (each : ∀ col ∈ columns, col.1 ∈ u.ids ∧
    ∃ d, IsColumn a col d) (all : ∀ {p name derivation}, p ∈ u.ids → a.kind? p = some (.derived name derivation) → (p,
    name, derivation) ∈ columns) {p d : NodeId} {name : String} (live : p ∈ u.ids) (held : b.kind? p = some (.derived
    name d)) : Numbered name (b.writesAt d) := by
  obtain ⟨k, there⟩ := Arena.exists_kind?_of_lt (whole.lt_size p live)
  obtain ⟨col, listed, d₀, is_column, rfl⟩ : ∃ col ∈ columns, ∃ d₀, IsColumn a col d₀ ∧ p = col.1 := by
    obtain column | ⟨children, held', -⟩ := divided.kind_cases there
    · exact column
    · obtain ⟨d₀, rfl⟩ := Kind.derived_of_withChildren (Option.some_injective _ (held'.symm.trans held))
      have listed := all live there
      obtain ⟨d, is_column⟩ := (each _ listed).2
      exact ⟨_, listed, d, is_column, rfl⟩
  obtain ⟨split, read, ws, column⟩ := divided.column listed is_column
  cases held.symm.trans column.held
  rw [Arena.writesAt, column.halves]
  exact column.numbered

end Storage

namespace Arena

variable {a : Arena}

def writeNames (a : Arena) (p : NodeId) : List String :=
  match a.kind? p with
  | some (.derived _ derivation) => (a.writesAt derivation).map Prod.fst
  | _ => []

def NumbersWrites (a : Arena) (p : NodeId) : Prop :=
  ∀ column derivation, a.kind? p = some (.derived column derivation) → Storage.Numbered column (a.writesAt derivation)

theorem NumbersWrites.mem_iff {p : NodeId} (numbers : a.NumbersWrites p) {shown : String} : shown ∈ a.writeNames p ↔ ∃
    column derivation n, a.kind? p = some (.derived column derivation) ∧ n < (a.writesAt derivation).length ∧ shown =
    Storage.writeName column n := by
  unfold writeNames
  split
  · rename_i column derivation held
    rw [numbers column derivation held]
    simp only [List.mem_map, List.mem_range, held, Option.some.injEq, Kind.derived.injEq]
    constructor
    · rintro ⟨n, below, rfl⟩
      exact ⟨column, derivation, n, ⟨rfl, rfl⟩, below, rfl⟩
    · rintro ⟨_, _, n, ⟨rfl, rfl⟩, below, rfl⟩
      exact ⟨n, below, rfl⟩
  · rename_i other
    constructor
    · simp
    · rintro ⟨column, derivation, n, held, -, -⟩
      exact absurd held (other column derivation)

theorem NumbersWrites.nodup {p : NodeId} (numbers : a.NumbersWrites p) : (a.writeNames p).Nodup := by
  unfold writeNames
  split
  · rename_i column derivation held
    rw [numbers column derivation held]
    exact List.nodup_range.map fun n n' same => (Storage.writeName_inj.1 same).2
  · exact .nil

theorem writeNames_nodup {properties : List NodeId} (distinct : (a.names properties).Nodup)
    (numbers : ∀ p ∈ properties, a.NumbersWrites p) : (properties.flatMap a.writeNames).Nodup := by
  refine List.nodup_flatMap.2 ⟨fun p listed => (numbers p listed).nodup, ?_⟩
  rw [names, List.Nodup, List.pairwise_filterMap] at distinct
  refine distinct.imp_of_mem fun {p q} listed listed' apart shown here there => ?_
  obtain ⟨column, _, n, held, -, rfl⟩ := (numbers p listed).mem_iff.1 here
  obtain ⟨column', _, n', held', -, same⟩ := (numbers q listed').mem_iff.1 there
  exact apart column (by rw [held]; rfl) column' (by rw [held']; rfl) (Storage.writeName_inj.1 same).1

end Arena

theorem Compilation.Splits.table {program : Program} {limit : Nat} {c₂ c : Compilation} (splits : Splits program limit c₂ c)
    {table : NodeId} {above : Lineage} (path : c.arena.Descends [c.root] (table :: above)) {name : String}
    {properties : List NodeId} (held : c.arena.kind? table = some (.definition name properties)) :
    (c.arena.names properties).Nodup ∧ ∀ p ∈ properties, c.arena.NumbersWrites p := by
  obtain ⟨⟨-, u, root, linked, layered⟩, ⟨c₀, c₁, resolved, typed, recognized⟩, split⟩ := splits
  obtain ⟨t, root', stands, distinct⟩ := Compilation.distinct resolved typed recognized
  obtain rfl : t = u := stands.unique linked.stands (root'.trans root.symm)
  obtain ⟨⟨_, w⟩, ran, last⟩ := except_bind_eq_ok.1 split
  cases last
  rw [← root] at ran path
  obtain ⟨b, total, columns, ran', ⟨v, top, linked', -, origin⟩, divided, each, all⟩ :=
    Storage.splitAll_runs layered linked ⟨0, 0⟩
  cases ran'.symm.trans (Pass.placed_eq_ok.1 ran)
  have live : table ∈ t.ids := by
    obtain old | beyond := origin table (linked'.stands.mem_ids (top ▸ path))
    · exact old
    · obtain ⟨_, _, _, _, _, _, -, column, rfl | ⟨_, _, -, other⟩⟩ := divided.made beyond held
      · cases held.symm.trans column.halves
      · cases other
  obtain ⟨held₀, same⟩ := divided.table stands layered (fun col listed => (each col listed).1) live held
  refine ⟨same ▸ distinct table live name properties held₀, fun p listed column derivation there => ?_⟩
  exact divided.numbered stands each all (stands.mem_of_child live held₀ listed) there

theorem Arena.Unsplit.writesAt {a : Arena} (unsplit : a.Unsplit) (x : NodeId) : a.writesAt x = [] := by
  unfold Arena.writesAt
  split
  · rename_i split
    exact (unsplit.of_split split rfl).elim
  · rfl

/-- What the columns of one table write has names of its own: the name of its column and a number. None of
them is the name of a property, unless the program itself has named a property so. -/
theorem compile_writeNames {program : Program} {options : Options} {c : Compilation}
    (compiled : compile program options = .ok c) {table : NodeId} {above : Lineage}
    (path : c.arena.Descends [c.root] (table :: above)) {name : String} {properties : List NodeId}
    (held : c.arena.kind? table = some (.definition name properties)) :
    (properties.flatMap c.arena.writeNames).Nodup ∧
      (List.Disjoint (c.arena.names properties) (properties.flatMap c.arena.writeNames) ↔
        ∀ p ∈ properties, ∀ column derivation, c.arena.kind? p = some (.derived column derivation) →
          ∀ n < (c.arena.writesAt derivation).length, column ++ "_int_" ++ toString n ∉ c.arena.names properties) := by
  obtain ⟨nodup, numbers⟩ : (properties.flatMap c.arena.writeNames).Nodup ∧ ∀ p ∈ properties, c.arena.NumbersWrites p := by
    obtain ⟨-, unsplit | ⟨c₂, splits⟩⟩ := (compile_compiles program options).ok compiled
    · have numbers (p : NodeId) : c.arena.NumbersWrites p := fun column derivation _ => unsplit.writesAt derivation ▸ rfl
      have nothing (p : NodeId) : c.arena.writeNames p = [] := by
        refine List.eq_nil_iff_forall_not_mem.2 fun shown listed => ?_
        obtain ⟨_, derivation, n, -, below, -⟩ := (numbers p).mem_iff.1 listed
        rw [unsplit.writesAt] at below
        exact absurd below (Nat.not_lt_zero n)
      rw [List.flatMap_eq_nil_iff.2 fun p _ => nothing p]
      exact ⟨.nil, fun p _ => numbers p⟩
    · obtain ⟨distinct, numbers⟩ := splits.table path held
      exact ⟨Arena.writeNames_nodup distinct numbers, numbers⟩
  refine ⟨nodup, ?_⟩
  constructor
  · intro apart p listed column derivation there n below shown
    exact apart shown (List.mem_flatMap.2 ⟨p, listed, (numbers p listed).mem_iff.2 ⟨column, derivation, n, there, below, rfl⟩⟩)
  · intro other shown named written
    obtain ⟨p, listed, written⟩ := List.mem_flatMap.1 written
    obtain ⟨column, derivation, n, there, below, rfl⟩ := (numbers p listed).mem_iff.1 written
    exact other p listed column derivation there n below named

/-- `T { a_int_0: boolean, open: boolean, a = open && open, b(k: boolean) = (open && open) || k == (open || open) }` -/
def crowded : Program :=
  ⟨[.definition "T" [.property "a_int_0" (.named "boolean" false) none, .property "open" (.named "boolean" false) none,
    .derived "a" (.binary none .and (.identifier none "open") (.identifier none "open")) none,
    .method "b" [⟨"k", some (.named "boolean" false), none⟩]
      (.binary none .or (.binary none .and (.identifier none "open") (.identifier none "open"))
        (.binary none .eq (.identifier none "k") (.binary none .or (.identifier none "open") (.identifier none "open"))))
      none] none]⟩

theorem Kind.definition_of_label {k : Kind} {name : String} {ps : List NodeId} (label : k.label? = some name)
    (slots : k.children = ps) (many : 1 < ps.length) : k = .definition name ps := by
  cases k <;> simp_all [Kind.label?, Kind.children] <;> subst slots <;> simp at many

theorem crowded_compiled :
    ∃ c, compile crowded .defaults = .ok c ∧ c.arena.Descends [c.root] [18, 20] ∧
      c.arena.kind? 18 = some (.definition "T" [0, 1, 5, 17]) ∧ (c.arena.kind? 0).bind Kind.label? = some "a_int_0" ∧
      c.arena.writeNames 5 = ["a_int_0"] ∧ c.arena.writeNames 17 = ["b_int_0", "b_int_1"] := by
  obtain ⟨c, compiled, found⟩ : ∃ c, compile crowded .defaults = .ok c ∧ (c.root == 20 &&
      ((c.arena.kind? 20).any fun k => k.children.contains 18) &&
      ((c.arena.kind? 18).any fun k => k.label? == some "T" && k.children == [0, 1, 5, 17]) &&
      (c.arena.kind? 0).bind Kind.label? == some "a_int_0" && c.arena.writeNames 5 == ["a_int_0"] &&
      c.arena.writeNames 17 == ["b_int_0", "b_int_1"]) = true :=
    except_any (by decide +kernel)
  simp only [Bool.and_eq_true, beq_iff_eq, Option.any_eq_true] at found
  obtain ⟨⟨⟨⟨⟨root, k, top, listed⟩, l, held, label, slots⟩, column⟩, first⟩, second⟩ := found
  obtain rfl := Kind.definition_of_label label slots (by decide)
  have path : c.arena.Descends [c.root] [18, 20] := by
    rw [root]
    exact .child .here top (by simpa using listed)
  exact ⟨c, compiled, path, held, column, first, second⟩

/-- Three writes of two columns, under three names. -/
theorem crowded_writeNames_nodup :
    ∃ c, compile crowded .defaults = .ok c ∧ c.arena.Descends [c.root] [18, 20] ∧
      c.arena.kind? 18 = some (.definition "T" [0, 1, 5, 17]) ∧ c.arena.writeNames 5 = ["a_int_0"] ∧
      c.arena.writeNames 17 = ["b_int_0", "b_int_1"] ∧ ([0, 1, 5, 17].flatMap c.arena.writeNames).Nodup := by
  obtain ⟨c, compiled, path, held, -, first, second⟩ := crowded_compiled
  exact ⟨c, compiled, path, held, first, second, (compile_writeNames compiled path held).1⟩

/-- What `a` writes is named as the first column is. -/
theorem crowded_write_named_as_column :
    ∃ c, compile crowded .defaults = .ok c ∧ c.arena.kind? 18 = some (.definition "T" [0, 1, 5, 17]) ∧
      (c.arena.kind? 0).bind Kind.label? = some "a_int_0" ∧ "a_int_0" ∈ c.arena.writeNames 5 := by
  obtain ⟨c, compiled, -, held, column, first, -⟩ := crowded_compiled
  exact ⟨c, compiled, held, column, by simp [first]⟩

end DerivedTables
