import DerivedTables.Proofs.Compilation.WellFormed

/-!
What is written asks for nothing that only a reader has.
-/

namespace DerivedTables

open Tree

theorem Tree.Opened.above {a : Arena} {late : NodeId → Bool} {s t : Tree} {x : NodeId} (opened : t.Opened late x)
    (whole : t.StandsIn a) (once : t.ids.Nodup) (stands : s.StandsIn a) (inside : s.id ∈ t.ids) (early : late s.id = false)
    (below : x ∈ s.ids) : s.id = t.id := by
  induction opened with
  | here t =>
    have same := (stands.sublist_within whole below).antisymm (whole.sublist_within stands inside)
    rw [t.ids_eq, s.ids_eq] at same
    exact (List.cons.inj same).1.symm
  | @deeper t u x part asks inner ih =>
    obtain ⟨id, kind, parts⟩ := t
    obtain top | deep := List.mem_cons.1 inside
    · exact top
    · obtain ⟨v, other, deep⟩ := mem_idsOf.1 deep
      have apart := (List.nodup_cons.1 once).2
      -- The part with `s` in it is the part that was looked at, so `s` is the root of that part.
      obtain rfl := eq_of_shared apart other part (((whole.child other).sublist_within stands deep).subset below)
        inner.mem_ids
      have top := ih (whole.child part) (nodup_of_mem apart part) deep below
      rw [top, asks] at early
      cases early

namespace Storage

variable {a b : Arena} {u : Tree} {columns : List (NodeId × String × NodeId)}

theorem Divided.column_of_split (divided : Divided a b columns) (unsplit : a.Unsplit) {x read : NodeId}
    {writes : List (String × NodeId)} (held : b.kind? x = some (.split read writes)) :
    ∃ col ∈ columns, ∃ d, IsColumn a col d ∧ Column a b col.1 col.2.1 d x read writes := by
  by_cases old : x < a.size
  · obtain ⟨k, there⟩ := Arena.exists_kind?_of_lt old
    refine (unsplit.of_split there ?_).elim
    obtain ⟨col, listed, d, is_column, rfl⟩ | ⟨children, held', -⟩ := divided.kind_cases there
    · obtain ⟨_, _, _, column⟩ := divided.column listed is_column
      cases held.symm.trans column.held
    · rw [← Kind.isSplit_withChildren k children, ← Option.some_injective _ (held.symm.trans held')]
      rfl
  · obtain ⟨col, listed, d, split, read', ws, is_column, column, rfl | ⟨_, _, -, other⟩⟩ :=
      divided.made (Nat.le_of_not_lt old) held
    · cases held.symm.trans column.halves
      exact ⟨col, listed, d, is_column, column⟩
    · cases other

theorem Divided.write_not_late (divided : Divided a b columns) (layered : u.Layered a) (whole : u.StandsIn a)
    (once : u.ids.Nodup) (inside : ∀ col ∈ columns, col.1 ∈ u.ids) {col : NodeId × String × NodeId} (listed : col ∈ columns)
    {d : Tree} (is_column : IsColumn a col d) {y : NodeId} (within : y ∈ d.ids) (early : isLate a y = false) : ¬ b.Late y := by
  have stands : d.StandsIn a := is_column.stands.child (by simp)
  have onceColumn := (whole.sublist_within is_column.stands (inside col listed)).nodup once
  have onceHere : d.ids.Nodup := nodup_of_mem (List.nodup_cons.1 onceColumn).2 (by simp)
  obtain ⟨s, rfl, standing⟩ := stands.exists_at within
  have subset := (stands.sublist_within standing within).subset
  have same : ∀ x ∈ s.ids, b.kind? x = a.kind? x := by
    intro x below
    have here : x ∈ (Tree.node col.1 (.derived col.2.1 d.id) [d]).ids := by simp [ids, idsOf, subset below]
    refine divided.kept (standing.lt_size x below) fun {col' d'} listed' other => ?_
    by_cases column : col.1 = col'.1
    · obtain rfl : d = d' := by
        have trees := is_column.stands.unique other.stands column
        simpa using (Tree.node.inj trees).2.2
      refine ⟨fun top => ?_, fun left => ?_⟩
      · rw [← column] at top
        exact (List.nodup_cons.1 onceColumn).1 (by simpa [idsOf, ← top] using subset below)
      · have top := left.2.above stands onceHere standing within early below
        rw [top, left.1] at early
        cases early
    · have far := is_column.apart layered whole once other (inside _ listed) (inside _ listed') column x here
      exact ⟨fun top => far (by simp [ids, top]), fun left => far (by simp [ids, idsOf, left.mem_ids])⟩
  intro late
  have late : isLate b s.id = true := needsReader_iff.2 late
  rw [late_congr standing same divided.locals s.id_mem_ids, early] at late
  cases late

end Storage

theorem compiled_writes_not_late {program : Program} {options : Options} {c : Compilation}
    (compiled : compile program options = .ok c) {split read : NodeId} {writes : List (String × NodeId)}
    (held : c.arena.kind? split = some (.split read writes)) : ∀ write ∈ writes, ¬ c.arena.Late write.2 := by
  intro write listed
  obtain ⟨-, unsplit | ⟨c₁, ⟨unsplit, t, root, linked, layered⟩, -, splitting⟩⟩ := (compile_compiles program options).ok compiled
  · exact (unsplit.of_split held rfl).elim
  · obtain ⟨⟨_, w⟩, ran, last⟩ := except_bind_eq_ok.1 splitting
    cases last
    rw [← root] at ran
    obtain ⟨b, total, columns, ran', -, divided, each, -⟩ := Storage.splitAll_runs layered linked ⟨0, 0⟩
    cases ran'.symm.trans (Pass.placed_eq_ok.1 ran)
    obtain ⟨col, known, d, is_column, column⟩ := divided.column_of_split unsplit held
    exact divided.write_not_late layered linked.stands linked.once (fun col known => (each col known).1) known is_column
      (column.written_mem listed) (column.written listed).1

namespace Arena

def writesAt (a : Arena) (split : NodeId) : List (String × NodeId) :=
  match a.kind? split with
  | some (.split _ writes) => writes
  | _ => []

/-- Somewhere in the subtree there is a reference to a parameter or a let outside of it. -/
def mentionsOuterLocal (a : Arena) (id : NodeId) : Bool :=
  (a.descendants id).any fun y => (a.target? y).any fun t =>
    (a.kind? t).any Kind.isLocal && !(a.descendants id).contains t

end Arena

/-- Wherever a write is not maintained, it mentions no parameter and no let. -/
theorem write_mentions_no_local {program : Program} {options : Options} {c : Compilation}
    (compiled : compile program options = .ok c) (split : NodeId) : ∀ write ∈ c.arena.writesAt split, ∀ y,
    Relation.ReflTransGen c.arena.Exposes write.2 y → ¬ c.arena.MentionsLocal y := by
  intro write listed y exposed mentions
  unfold Arena.writesAt at listed
  split at listed
  · rename_i held
    exact compiled_writes_not_late compiled held write listed ⟨y, exposed, .inl mentions⟩
  · cases listed

/-- `T { a: number, m(k: number) = k + a * a }` -/
def squares : Program :=
  ⟨[.definition "T" [.property "a" (.named "number" false) none,
    .method "m" [⟨"k", some (.named "number" false), none⟩]
      (.binary none .add (.identifier none "k")
        (.binary none .mul (.identifier none "a") (.identifier none "a"))) none] none]⟩

theorem squares_evaluated :
    (compile squares .defaults).toOption.any (fun c => decide (("m_int_0", 5) ∈ c.arena.writesAt 13)) = true ∧
      (compile rowsWithKey .defaults).toOption.any (fun c =>
        decide (("m_int_0", 66) ∈ c.arena.writesAt 68 ∧ c.arena.mentionsOuterLocal 66 = true)) = true := by
  constructor <;> decide +kernel

/-- The product is written, and `k` is left to the reader. -/
theorem squares_write_mentions_no_local :
    ∃ c, compile squares .defaults = .ok c ∧ ("m_int_0", 5) ∈ c.arena.writesAt 13 ∧
      ∀ y, Relation.ReflTransGen c.arena.Exposes 5 y → ¬ c.arena.MentionsLocal y := by
  obtain ⟨c, compiled, written⟩ := except_any squares_evaluated.1
  have written := of_decide_eq_true written
  exact ⟨c, compiled, written, write_mentions_no_local compiled 13 _ written⟩

/-- The aggregate is written, with `k` inside it. -/
theorem rowsWithKey_write_mentions_param :
    ∃ c, compile rowsWithKey .defaults = .ok c ∧ ("m_int_0", 66) ∈ c.arena.writesAt 68 ∧
      c.arena.mentionsOuterLocal 66 = true := by
  obtain ⟨c, compiled, found⟩ := except_any squares_evaluated.2
  exact ⟨c, compiled, of_decide_eq_true found⟩

end DerivedTables
