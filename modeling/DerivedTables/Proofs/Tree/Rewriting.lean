import DerivedTables.Proofs.Tree.Tour

/-!
Walks that put new nodes in the place of old ones.
-/

namespace DerivedTables

namespace Tree

variable {a b c : Arena} {t t' : Tree} {ts ts' : List Tree}

@[simp] theorem idsOf_singleton (t : Tree) : idsOf [t] = t.ids := by simp [idsOf]

@[simp] theorem idsOf_append (ts ss : List Tree) : idsOf (ts ++ ss) = idsOf ts ++ idsOf ss := by
  simp [idsOf_eq_flatMap]

theorem nodup_perm {ss : List Tree} (same : ts.Perm ss) : (idsOf ts).Nodup ↔ (idsOf ss).Nodup := by
  rw [idsOf_eq_flatMap, idsOf_eq_flatMap]
  exact (same.flatMap_right ids).nodup_iff

theorem mem_idsOf_perm {ss : List Tree} {x : NodeId} (same : ts.Perm ss) : x ∈ idsOf ts ↔ x ∈ idsOf ss := by
  rw [idsOf_eq_flatMap, idsOf_eq_flatMap]
  exact (same.flatMap_right ids).mem_iff

/-- In `b`, `t'` has taken the place of the tree `t` of `a`. -/
structure Rewritten (a b : Arena) (t t' : Tree) : Prop where
  size : a.size ≤ b.size
  kept : ∀ {x}, x < a.size → x ∉ t.ids → b.kind? x = a.kind? x
  stands : t'.StandsIn b
  once : t'.ids.Nodup
  origin : ∀ {x}, x ∈ t'.ids → x ∈ t.ids ∨ a.size ≤ x

structure RewrittenAll (a b : Arena) (ts ts' : List Tree) : Prop where
  size : a.size ≤ b.size
  kept : ∀ {x}, x < a.size → x ∉ idsOf ts → b.kind? x = a.kind? x
  stands : ∀ t ∈ ts', t.StandsIn b
  once : (idsOf ts').Nodup
  origin : ∀ {x}, x ∈ idsOf ts' → x ∈ idsOf ts ∨ a.size ≤ x

theorem Rewritten.refl (stands : t.StandsIn a) (once : t.ids.Nodup) : Rewritten a a t t :=
  ⟨le_rfl, fun _ _ => rfl, stands, once, .inl⟩

theorem Rewritten.trans {t'' : Tree} (first : Rewritten a b t t') (second : Rewritten b c t' t'') :
    Rewritten a c t t'' where
  size := first.size.trans second.size
  kept {x} below outside := by
    refine (second.kept (below.trans_le first.size) fun inside => ?_).trans (first.kept below outside)
    exact (first.origin inside).elim outside fun beyond => absurd below (Nat.not_lt.2 beyond)
  stands := second.stands
  once := second.once
  origin inside := (second.origin inside).elim first.origin fun beyond => .inr (first.size.trans beyond)

theorem Rewritten.single (rewritten : Rewritten a b t t') : RewrittenAll a b [t] [t'] where
  size := rewritten.size
  kept below outside := rewritten.kept below (by simpa using outside)
  stands := by simpa using rewritten.stands
  once := by simpa using rewritten.once
  origin listed := by simpa using rewritten.origin (by simpa using listed)

theorem RewrittenAll.rewritten (rewritten : RewrittenAll a b [t] [t']) : Rewritten a b t t' where
  size := rewritten.size
  kept below outside := rewritten.kept below (by simpa using outside)
  stands := rewritten.stands t' (by simp)
  once := by simpa using rewritten.once
  origin listed := by simpa using rewritten.origin (by simpa using listed)

theorem Rewritten.within {s : Tree} (rewritten : Rewritten a b t t') (part : t.ids ⊆ s.ids) : Rewritten a b s t' :=
  { rewritten with
    kept := fun below outside => rewritten.kept below fun inside => outside (part inside)
    origin := fun listed => (rewritten.origin listed).imp_left (part ·) }

namespace RewrittenAll

theorem nil (a : Arena) : RewrittenAll a a [] [] :=
  ⟨le_rfl, fun _ _ => rfl, by simp, List.nodup_nil, .inl⟩

theorem append {us us' : List Tree} (first : RewrittenAll a b ts ts') (second : RewrittenAll b c us us')
    (insides : ∀ x ∈ idsOf us, x < a.size) (apart : ∀ x ∈ idsOf ts, x ∉ idsOf us) :
    RewrittenAll a c (ts ++ us) (ts' ++ us') := by
  -- A node of the first trees is neither in the others nor new to them.
  have separate : ∀ {x}, x ∈ idsOf ts' → x ∉ idsOf us ∧ x < b.size := by
    intro x listed
    obtain ⟨t, part, inside⟩ := mem_idsOf.1 listed
    refine ⟨fun other => ?_, (first.stands t part).lt_size x inside⟩
    obtain old | new := first.origin listed
    · exact apart x old other
    · exact absurd (insides x other) (Nat.not_lt.2 new)
  refine ⟨first.size.trans second.size, fun {x} below outside => ?_, ?_, ?_, fun {x} listed => ?_⟩
  · simp only [idsOf_append, List.mem_append, not_or] at outside
    exact (second.kept (below.trans_le first.size) outside.2).trans (first.kept below outside.1)
  · refine List.forall_mem_append.2 ⟨fun t part => (first.stands t part).congr fun x inside => ?_, second.stands⟩
    have listed := mem_idsOf.2 ⟨t, part, inside⟩
    exact second.kept (separate listed).2 (separate listed).1
  · rw [idsOf_append]
    refine List.nodup_append.2 ⟨first.once, second.once, fun x listed y other same => ?_⟩
    subst same
    obtain old | new := second.origin other
    · exact (separate listed).1 old
    · exact absurd (separate listed).2 (Nat.not_lt.2 new)
  · rw [idsOf_append] at listed ⊢
    obtain listed | listed := List.mem_append.1 listed
    · exact (first.origin listed).imp_left (List.mem_append_left _)
    · exact (second.origin listed).imp (List.mem_append_right _) first.size.trans

theorem cons (first : Rewritten a b t t') (rest : RewrittenAll b c ts ts') (insides : ∀ x ∈ idsOf ts, x < a.size)
    (apart : ∀ x ∈ t.ids, x ∉ idsOf ts) : RewrittenAll a c (t :: ts) (t' :: ts') :=
  first.single.append rest insides (by simpa using apart)

theorem perm {us : List Tree} (rewritten : RewrittenAll a b ts ts') (same : ts'.Perm us) : RewrittenAll a b ts us where
  size := rewritten.size
  kept := rewritten.kept
  stands t listed := rewritten.stands t (same.mem_iff.2 listed)
  once := (nodup_perm same).1 rewritten.once
  origin listed := rewritten.origin ((mem_idsOf_perm same).2 listed)

theorem push (rewritten : RewrittenAll a b ts ts') {n : Node} (slots : n.kind.children = ts'.map Tree.id) :
    RewrittenAll a (b.push n) ts [.node b.size n.kind ts'] := by
  have grown := b.extends_push n
  refine ⟨rewritten.size.trans grown.size, fun {x} below outside => ?_, ?_, ?_, fun {x} listed => ?_⟩
  · rw [grown.kind (below.trans_le rewritten.size)]
    exact rewritten.kept below outside
  · rintro t listed
    obtain rfl := List.mem_singleton.1 listed
    exact .node (b.kind?_push_size n) slots fun t part => (rewritten.stands t part).extend grown
  · rw [idsOf_singleton, ids]
    refine List.nodup_cons.2 ⟨fun listed => ?_, rewritten.once⟩
    obtain ⟨t, part, inside⟩ := mem_idsOf.1 listed
    exact Nat.lt_irrefl _ ((rewritten.stands t part).lt_size _ inside)
  · rw [idsOf_singleton, ids] at listed
    obtain rfl | listed := List.mem_cons.1 listed
    · exact .inr rewritten.size
    · exact rewritten.origin listed

theorem node_with {id : NodeId} {k : Kind} {parts parts' others : List Tree}
    (rewritten : RewrittenAll a b parts (parts' ++ others)) (stands : (node id k parts).StandsIn a)
    (once : (node id k parts).ids.Nodup) (matched : parts.length = parts'.length) :
    RewrittenAll a (if parts'.map Tree.id = k.children then b
        else b.setKind id (k.withChildren (parts'.map Tree.id)))
      [.node id k parts] (.node id (k.withChildren (parts'.map Tree.id)) parts' :: others) := by
  have held : a.kind? id = some k := stands.kind
  have below := Arena.lt_size_of_kind? held
  have new : id ∉ idsOf parts := (List.nodup_cons.1 once).1
  have missing : id ∉ idsOf (parts' ++ others) := fun listed =>
    (rewritten.origin listed).elim new fun beyond => absurd below (Nat.not_lt.2 beyond)
  have held' : b.kind? id = some k := (rewritten.kept below new).trans held
  have fits : (parts'.map Tree.id).length = k.children.length := by
    rw [show k.children = parts.map Tree.id from stands.slots]
    simp [matched]
  have kinds (x : NodeId) : (if parts'.map Tree.id = k.children then b
        else b.setKind id (k.withChildren (parts'.map Tree.id))).kind? x =
      if id = x then some (k.withChildren (parts'.map Tree.id)) else b.kind? x := by
    split
    · rename_i same
      rw [same, Kind.withChildren_children]
      split
      · rename_i here
        rw [← here, held']
      · rfl
    · rw [Arena.kind?_setKind]
      split
      · rename_i here
        rw [← here, held', Option.map_some]
      · rfl
  have standing : ∀ t ∈ parts' ++ others, t.StandsIn (if parts'.map Tree.id = k.children then b
      else b.setKind id (k.withChildren (parts'.map Tree.id))) := by
    refine fun t part => (rewritten.stands t part).congr fun x listed => ?_
    rw [kinds, if_neg]
    rintro rfl
    exact missing (mem_idsOf.2 ⟨t, part, listed⟩)
  have same : idsOf (.node id (k.withChildren (parts'.map Tree.id)) parts' :: others) =
      id :: idsOf (parts' ++ others) := by
    rw [idsOf, ids, idsOf_append, List.cons_append]
  refine ⟨?_, fun {x} below outside => ?_, List.forall_mem_cons.2 ⟨?_, ?_⟩, ?_, fun {x} listed => ?_⟩
  · split
    · exact rewritten.size
    · simpa [Arena.setKind] using rewritten.size
  · simp only [idsOf, ids, List.append_nil, List.mem_cons, not_or] at outside
    rw [kinds, if_neg (Ne.symm outside.1)]
    exact rewritten.kept below outside.2
  · exact .node ((kinds id).trans (if_pos rfl)) (Kind.children_withChildren k _ fits) fun t part =>
      standing t (List.mem_append_left _ part)
  · exact fun t part => standing t (List.mem_append_right _ part)
  · rw [same]
    exact List.nodup_cons.2 ⟨missing, rewritten.once⟩
  · rw [same] at listed
    simp only [idsOf, ids, List.append_nil]
    obtain rfl | listed := List.mem_cons.1 listed
    · exact .inl (by simp)
    · exact (rewritten.origin listed).imp_left (List.mem_cons_of_mem _)

theorem node {id : NodeId} {k : Kind} {parts parts' : List Tree}
    (rewritten : RewrittenAll a b parts parts') (stands : (node id k parts).StandsIn a)
    (once : (node id k parts).ids.Nodup) (matched : parts.length = parts'.length) :
    Rewritten a (if parts'.map Tree.id = k.children then b
        else b.setKind id (k.withChildren (parts'.map Tree.id)))
      (.node id k parts) (.node id (k.withChildren (parts'.map Tree.id)) parts') := by
  have rewritten : RewrittenAll a b parts (parts' ++ []) := by rwa [List.append_nil]
  exact (rewritten.node_with stands once matched).rewritten

end RewrittenAll

theorem RewrittenAll.keep (stand : ∀ t ∈ ts, t.StandsIn a) (once : (idsOf ts).Nodup) : RewrittenAll a a ts ts :=
  ⟨le_rfl, fun _ _ => rfl, stand, once, .inl⟩

theorem Rewritten.lift {s s' : Tree} (rewritten : Rewritten a b s s') (same : s'.id = s.id) (stands : t.StandsIn a)
    (once : t.ids.Nodup) (part : s.StandsIn a) (inside : s.id ∈ t.ids) :
    ∃ t', t'.id = t.id ∧ Rewritten a b t t' ∧ (∀ x ∈ t.ids, x ∈ s.ids ∨ x ∈ t'.ids) ∧ s'.ids ⊆ t'.ids := by
  induction t with
  | node id k parts ih =>
    obtain here | below := List.mem_cons.1 inside
    · obtain rfl := stands.unique part here.symm
      exact ⟨s', same, rewritten, fun x => .inl, List.Subset.refl _⟩
    · obtain ⟨u, listed, below⟩ := mem_idsOf.1 below
      have standing := stands.child listed
      obtain ⟨-, onceAll⟩ := List.nodup_cons.1 once
      obtain ⟨u', head, changed, covers, holds⟩ := ih u listed standing (nodup_of_mem onceAll listed) below
      obtain ⟨before, after, rfl⟩ := List.append_of_mem listed
      have each := fun v (there : v ∈ before ++ u :: after) => stands.child (s := v) there
      simp only [idsOf_append, idsOf, List.nodup_append, List.mem_append] at onceAll
      obtain ⟨onceBefore, ⟨-, onceAfter, apartAfter⟩, apartBefore⟩ := onceAll
      have first : RewrittenAll a a before before :=
        .keep (fun v there => each v (List.mem_append_left _ there)) onceBefore
      have last : RewrittenAll b b after after := by
        refine .keep (fun v there => (each v (by simp [there])).congr fun x inner => ?_) onceAfter
        have below := (each v (by simp [there])).lt_size x inner
        exact changed.kept below fun other => apartAfter x other x (mem_idsOf.2 ⟨v, there, inner⟩) rfl
      have old : ∀ ts, (∀ v ∈ ts, v.StandsIn a) → ∀ x ∈ idsOf ts, x < a.size := by
        intro ts stand x inner
        obtain ⟨v, there, inner⟩ := mem_idsOf.1 inner
        exact (stand v there).lt_size x inner
      have tail := RewrittenAll.cons changed last (old after fun v there => each v (by simp [there]))
        fun x here there => apartAfter x here x there rfl
      have all := first.append tail (old (u :: after) fun v there => each v (by simp_all))
        fun x here there => apartBefore x here x (by simpa [idsOf] using there) rfl
      have whole := all.node stands once (by simp)
      have filled : (before ++ u' :: after).map Tree.id = k.children := by
        rw [stands.filled]
        simp [head]
      rw [if_pos filled, filled, Kind.withChildren_children] at whole
      refine ⟨.node id k (before ++ u' :: after), rfl, whole, fun x listed => ?_, fun x listed => ?_⟩
      · simp only [ids, idsOf_append, idsOf, List.mem_cons, List.mem_append] at listed ⊢
        have := covers x
        tauto
      · have := holds listed
        simp [ids, idsOf, this]

end Tree

end DerivedTables
