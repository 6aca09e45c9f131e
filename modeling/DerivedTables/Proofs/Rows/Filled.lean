import DerivedTables.Proofs.Rows.Leaving

/-!
Where recognition leaves things.
-/

namespace DerivedTables

open Tree

variable {a b c : Arena} {t t' : Tree} {ts ts' : List Tree}

def Kind.tableName? : Kind → Option String
  | definition name _ => some name
  | _ => none

@[simp] theorem Kind.tableName?_withChildren (k : Kind) (filled : List NodeId) :
    (k.withChildren filled).tableName? = k.tableName? := by
  unfold withChildren
  split <;> rfl

namespace Arena

def tableName? (a : Arena) (x : NodeId) : Option String := (a.kind? x).bind Kind.tableName?

theorem tableName?_eq_some {x : NodeId} {name : String} :
    a.tableName? x = some name ↔ ∃ properties, a.kind? x = some (.definition name properties) := by
  constructor
  · intro named
    obtain ⟨k, held, named⟩ := Option.bind_eq_some_iff.1 named
    cases k with
    | definition shown properties =>
      cases named
      exact ⟨properties, held⟩
    | _ => cases named
  · rintro ⟨properties, held⟩
    rw [tableName?, held]
    rfl

theorem ty?_setKind (a : Arena) (x y : NodeId) (kind : Kind) : (a.setKind x kind).ty? y = a.ty? y := by
  simp only [ty?, setKind, node?_modify]
  split
  · rw [Option.bind_map]
    rfl
  · rfl

/-- What is in `a` has the same types in `b`, and the tables of `a` are in `b` under the same names. -/
structure Preserves (a b : Arena) : Prop where
  size : a.size ≤ b.size
  table : ∀ {x}, x < a.size → b.tableName? x = a.tableName? x
  ty : ∀ {x}, x < a.size → b.ty? x = a.ty? x

namespace Preserves

theorem refl (a : Arena) : a.Preserves a := ⟨le_rfl, fun _ => rfl, fun _ => rfl⟩

theorem trans (first : a.Preserves b) (second : b.Preserves c) : a.Preserves c where
  size := first.size.trans second.size
  table below := (second.table (below.trans_le first.size)).trans (first.table below)
  ty below := (second.ty (below.trans_le first.size)).trans (first.ty below)

theorem of_retains (retains : a.Retains b) : a.Preserves b where
  size := retains.kinds.size
  table below := by rw [tableName?, retains.kinds.kind below, tableName?]
  ty := retains.ty

theorem setKind {x : NodeId} {k : Kind} (held : a.kind? x = some k) (filled : List NodeId) :
    a.Preserves (a.setKind x (k.withChildren filled)) where
  size := by simp [Arena.setKind]
  table {y} below := by
    rw [tableName?, kind?_setKind]
    split
    · subst y
      rw [tableName?, held]
      exact Kind.tableName?_withChildren k filled
    · rfl
  ty below := ty?_setKind ..

end Preserves

end Arena

namespace Rows

variable {s : Tree}

/-- The walk over trees that stand apart from each other: all that is known at each step. -/
theorem Walked.standing {motive : Arena → List Tree → List Tree → Arena → Prop} (nil : ∀ a, motive a [] [] a) (cons : ∀
    {a b c d e : Arena} {id : NodeId} {kind : Kind} {parts parts' ts ts' : List Tree} {t' : Tree}, (Tree.node id kind
    parts).StandsIn a → (Tree.node id kind parts).ids.Nodup → (∀ t ∈ ts, t.StandsIn a) → (∀ x ∈ (Tree.node id kind
    parts).ids, x ∉ idsOf ts) → Walked a parts parts' b → RewrittenAll a b parts parts' → motive a parts parts' b → (if
    parts'.map Tree.id = kind.children then b else b.setKind id (kind.withChildren (parts'.map Tree.id))) = c →
    Rewritten a c (.node id kind parts) (.node id (kind.withChildren (parts'.map Tree.id)) parts') → c.Retains d →
    Rewritten c d (.node id (kind.withChildren (parts'.map Tree.id)) parts') t' → Left c d (.node id (kind.withChildren
    (parts'.map Tree.id)) parts') t' → Walked d ts ts' e → RewrittenAll d e ts ts' → motive d ts ts' e → motive a (.node
    id kind parts :: ts) (t' :: ts') e) (walked : Walked a ts ts' b) (stand : ∀ t ∈ ts, t.StandsIn a) (once : (idsOf
    ts).Nodup) : motive a ts ts' b ∧ RewrittenAll a b ts ts' := by
  induction walked with
  | nil a => exact ⟨nil a, .nil a⟩
  | @cons a b c d e id kind parts parts' ts ts' t' below written done later whole left rest ihBelow ihRest =>
    rw [List.forall_mem_cons] at stand
    obtain ⟨onceHead, onceRest, disjoint⟩ := List.nodup_append.1 once
    have apart : ∀ x ∈ (Tree.node id kind parts).ids, x ∉ idsOf ts := fun x here there => disjoint x here x there rfl
    have first : Rewritten a d (.node id kind parts) t' := done.trans whole
    have standing : ∀ s ∈ ts, s.StandsIn d := fun s part => (stand.2 s part).congr fun x inside =>
      first.kept ((stand.2 s part).lt_size x inside) fun here => apart x here (mem_idsOf.2 ⟨s, part, inside⟩)
    obtain ⟨inner, rewritten⟩ := ihBelow (fun s part => stand.1.child part) (List.nodup_cons.1 onceHead).2
    obtain ⟨outer, rewrittenRest⟩ := ihRest standing onceRest
    refine ⟨cons stand.1 onceHead stand.2 apart below rewritten inner written done later whole left rest rewrittenRest outer,
      .cons first rewrittenRest (fun x inside => ?_) apart⟩
    obtain ⟨s, part, inside⟩ := mem_idsOf.1 inside
    exact (stand.2 s part).lt_size x inside

theorem preserves_written {id : NodeId} {kind : Kind} {parts parts' : List Tree} (stands : (Tree.node id kind
    parts).StandsIn a) (once : (Tree.node id kind parts).ids.Nodup) (rewritten : RewrittenAll a b parts parts') (tables
    : a.Preserves b) (written : (if parts'.map Tree.id = kind.children then b else b.setKind id (kind.withChildren
    (parts'.map Tree.id))) = c) : a.Preserves c := by
  have held : b.kind? id = some kind := by
    rw [rewritten.kept (Arena.lt_size_of_kind? stands.held) (List.nodup_cons.1 once).1]
    exact stands.held
  rw [← written]
  split
  · exact tables
  · exact tables.trans (.setKind held _)

theorem Walked.preserves (walked : Walked a ts ts' b) (stand : ∀ t ∈ ts, t.StandsIn a) (once : (idsOf ts).Nodup) :
    a.Preserves b := by
  refine (walked.standing (motive := fun a _ _ b => a.Preserves b) .refl ?_ stand once).1
  intro a b c d e id kind parts parts' ts ts' t' stands once _ _ _ rewritten below written _ later _ _ _ _ rest
  have tables := preserves_written stands once rewritten below written
  exact (tables.trans (.of_retains later)).trans rest

theorem Walked.left (walked : Walked a [t] [t'] b) (stands : t.StandsIn a) (once : t.ids.Nodup) : ∃ parts' c d, Walked a
    t.parts parts' d ∧ a.Preserves c ∧ (Tree.node t.id (t.kind.withChildren (parts'.map Tree.id)) parts').StandsIn c ∧
    Left c b (.node t.id (t.kind.withChildren (parts'.map Tree.id)) parts') t' := by
  obtain ⟨id, kind, parts⟩ := t
  have stand : ∀ p ∈ parts, p.StandsIn a := fun p part => stands.child part
  have apart : (idsOf parts).Nodup := (List.nodup_cons.1 once).2
  cases walked with
  | @cons _ d c _ _ _ _ _ parts' _ _ _ below written done later whole left rest =>
    cases rest
    have rewritten := (below.standing (motive := fun _ _ _ _ => True) (fun _ => trivial) (by intros; trivial) stand apart).2
    exact ⟨parts', c, d, below, preserves_written stands once rewritten (below.preserves stand apart) written, done.stands,
      left⟩

structure Filled (a b : Arena) (ts : List Tree) (s s' : Tree) : Prop where
  id : s'.id = s.id
  kind : s'.kind = s.kind.withChildren (s'.parts.map Tree.id)
  stands : s'.StandsIn b
  origin : ∀ {x}, x ∈ s'.ids → x ∈ idsOf ts ∨ a.size ≤ x
  parts : ∃ c d, a.Preserves c ∧ (∀ p ∈ s.parts, p.StandsIn c) ∧ (idsOf s.parts).Nodup ∧ Walked c s.parts s'.parts d

theorem Walked.filled (walked : Walked a ts ts' b) (stand : ∀ t ∈ ts, t.StandsIn a) (once : (idsOf ts).Nodup)
    (standing : s.StandsIn a) (inside : s.id ∈ idsOf ts) : ∃ s', Filled a b ts s s' := by
  refine (walked.standing (motive := fun a ts _ b => ∀ {s : Tree}, s.StandsIn a → s.id ∈ idsOf ts → ∃ s', Filled a b ts s s')
    (fun a s _ inside => by cases inside) ?_ stand once).1 standing inside
  intro a b c d e id kind parts parts' ts ts' t' stands once stand apart below rewritten ih written done later whole left rest
    rewrittenRest ihRest s standing inside
  have sooner : ∀ x ∈ idsOf ts, x < a.size := fun x listed => by
    obtain ⟨t, part, listed⟩ := mem_idsOf.1 listed
    exact (stand t part).lt_size x listed
  -- What is there when the node is left stays as it is: the rest of the walk writes only nodes of its own.
  have last {s' : Tree} (there : s'.StandsIn c) (from_ : ∀ {x}, x ∈ s'.ids → x ∈ (Tree.node id kind parts).ids ∨ a.size ≤ x) :
      s'.StandsIn e := by
    refine (there.extend later.kinds).congr fun x listed => rewrittenRest.kept ?_ fun other => ?_
    · exact (there.extend later.kinds).lt_size x listed
    · rcases from_ listed with here | beyond
      · exact apart x here other
      · exact (sooner x other).not_ge beyond
  have wider {s' : Tree} (from_ : ∀ {x}, x ∈ s'.ids → x ∈ (Tree.node id kind parts).ids ∨ a.size ≤ x) {x : NodeId}
      (listed : x ∈ s'.ids) : x ∈ idsOf (.node id kind parts :: ts) ∨ a.size ≤ x :=
    (from_ listed).imp_left (List.mem_append_left _)
  rw [idsOf, List.mem_append] at inside
  rcases inside with here | there
  · rw [Tree.ids, List.mem_cons] at here
    rcases here with here | inside
    · obtain rfl := standing.unique stands here
      exact ⟨.node id (kind.withChildren (parts'.map Tree.id)) parts', rfl, rfl, last done.stands done.origin,
        wider done.origin, a, b, .refl _, fun p part => stands.child part, (List.nodup_cons.1 once).2, below⟩
    · obtain ⟨s', filled⟩ := ih standing inside
      have from_ {x : NodeId} (listed : x ∈ s'.ids) : x ∈ (Tree.node id kind parts).ids ∨ a.size ≤ x :=
        (filled.origin listed).imp_left (List.mem_cons_of_mem _)
      have other : id ∉ s'.ids := fun listed => by
        rcases filled.origin listed with inner | beyond
        · exact (List.nodup_cons.1 once).1 inner
        · exact (Arena.lt_size_of_kind? stands.held).not_ge beyond
      have standing' : s'.StandsIn c := by
        rw [← written]
        split
        · exact filled.stands
        · refine filled.stands.congr fun x listed => ?_
          rw [Arena.kind?_setKind, if_neg]
          rintro rfl
          exact other listed
      exact ⟨s', filled.id, filled.kind, last standing' from_, wider from_, filled.parts⟩
  · have first : Rewritten a d (.node id kind parts) t' := done.trans whole
    have standing' : s.StandsIn d := by
      refine standing.congr fun x listed => first.kept (standing.lt_size x listed) fun here => apart x here ?_
      obtain ⟨t, part, top⟩ := mem_idsOf.1 there
      exact mem_idsOf.2 ⟨t, part, ((stand t part).sublist_within standing top).subset listed⟩
    obtain ⟨s', filled⟩ := ihRest standing' there
    obtain ⟨c', d', same, parts⟩ := filled.parts
    have tables : a.Preserves d :=
      ((Walked.preserves (.cons below written done later whole left (.nil _)) (by simpa using stands)
        (by simpa using once)))
    refine ⟨s', filled.id, filled.kind, filled.stands, fun listed => ?_, c', d', tables.trans same, parts⟩
    exact (filled.origin listed).imp (List.mem_append_right _) first.size.trans

theorem Walked.at_pair (walked : Walked a ts ts' b) (stand : ∀ t ∈ ts, t.StandsIn a) (once : (idsOf ts).Nodup)
    (pair : (t, t') ∈ ts.zip ts') : ∃ c d, a.Preserves c ∧ t.StandsIn c ∧ t.ids.Nodup ∧ Walked c [t] [t'] d := by
  refine (walked.standing (motive := fun a ts ts' b => ∀ {t t' : Tree}, (t, t') ∈ ts.zip ts' →
    ∃ c d, a.Preserves c ∧ t.StandsIn c ∧ t.ids.Nodup ∧ Walked c [t] [t'] d) (fun a t t' pair => by cases pair) ?_ stand once).1 pair
  intro a b c d e id kind parts parts' ts ts' t' stands once stand apart below rewritten _ written done later whole left rest
    _ ihRest s s' pair
  have alone : Walked a [.node id kind parts] [t'] d := .cons below written done later whole left (.nil _)
  rw [List.zip_cons_cons, List.mem_cons] at pair
  rcases pair with same | pair
  · cases same
    exact ⟨a, d, .refl _, stands, once, alone⟩
  · obtain ⟨c', d', same, rest⟩ := ihRest pair
    exact ⟨c', d', (alone.preserves (by simpa using stands) (by simpa using once)).trans same, rest⟩

structure Turns (a b : Arena) (u u' : Tree) : Prop where
  stands : u'.StandsIn b
  walked : ∃ c d, a.Preserves c ∧ u.StandsIn c ∧ u.ids.Nodup ∧ Walked c [u] [u'] d

theorem Filled.slot {s' u : Tree} (filled : Filled a b ts s s') {i : Nat} (place : s.parts[i]? = some u) :
    ∃ u', s'.parts[i]? = some u' ∧ Turns a b u u' := by
  obtain ⟨c, d, tables, stand, once, parts⟩ := filled.parts
  have short : i < s'.parts.length := parts.length_eq ▸ (List.getElem?_eq_some_iff.1 place).1
  have place' : s'.parts[i]? = some s'.parts[i] := List.getElem?_eq_getElem short
  have pair : (u, s'.parts[i]) ∈ s.parts.zip s'.parts :=
    List.mem_of_getElem? (List.getElem?_zip_eq_some.2 ⟨place, place'⟩)
  obtain ⟨c', d', later, stands, apart, walked⟩ := parts.at_pair stand once pair
  exact ⟨_, place', filled.stands.child (List.getElem_mem short), c', d', tables.trans later, stands, apart, walked⟩

end Rows

end DerivedTables
