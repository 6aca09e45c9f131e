import DerivedTables.Proofs.Tree.Rewriting

/-!
Trees made of nodes that were not there before, and of trees that were.
-/

namespace DerivedTables

namespace Tree

variable {a b c : Arena} {t : Tree} {ts ss : List Tree}

structure GrownAll (a b : Arena) (ts : List Tree) : Prop where
  larger : a.Extends b
  stand : ∀ t ∈ ts, t.StandsIn b
  once : (idsOf ts).Nodup
  fresh : ∀ x ∈ idsOf ts, a.size ≤ x

structure Grown (a b : Arena) (t : Tree) : Prop where
  larger : a.Extends b
  stands : t.StandsIn b
  once : t.ids.Nodup
  fresh : ∀ x ∈ t.ids, a.size ≤ x

theorem Grown.single (grown : Grown a b t) : GrownAll a b [t] :=
  ⟨grown.larger, by simpa using grown.stands, by simpa using grown.once, by simpa using grown.fresh⟩

namespace GrownAll

theorem nil (larger : a.Extends b) : GrownAll a b [] := ⟨larger, by simp, List.nodup_nil, by simp [idsOf]⟩

theorem part (grown : GrownAll a b ts) (listed : t ∈ ts) : Grown a b t :=
  ⟨grown.larger, grown.stand t listed, nodup_of_mem grown.once listed, fun x inside =>
    grown.fresh x (mem_idsOf.2 ⟨t, listed, inside⟩)⟩

theorem lt_size (grown : GrownAll a b ts) {x : NodeId} (listed : x ∈ idsOf ts) : x < b.size := by
  obtain ⟨t, part, inside⟩ := mem_idsOf.1 listed
  exact (grown.stand t part).lt_size x inside

theorem append (first : GrownAll a b ts) (second : GrownAll b c ss) : GrownAll a c (ts ++ ss) where
  larger := first.larger.trans second.larger
  stand := by
    intro t listed
    obtain listed | listed := List.mem_append.1 listed
    · exact (first.stand t listed).extend second.larger
    · exact second.stand t listed
  once := by
    rw [idsOf_append]
    refine List.nodup_append.2 ⟨first.once, second.once, fun x here y there same => ?_⟩
    subst same
    exact absurd (first.lt_size here) (Nat.not_lt.2 (second.fresh x there))
  fresh x listed := by
    rw [idsOf_append] at listed
    obtain listed | listed := List.mem_append.1 listed
    · exact first.fresh x listed
    · exact first.larger.size.trans (second.fresh x listed)

theorem perm (grown : GrownAll a b ts) (same : ts.Perm ss) : GrownAll a b ss where
  larger := grown.larger
  stand t listed := grown.stand t (same.mem_iff.2 listed)
  once := (nodup_perm same).1 grown.once
  fresh x listed := grown.fresh x ((mem_idsOf_perm same).2 listed)

theorem node (grown : GrownAll a b ts) {n : Node} (slots : n.kind.children = ts.map Tree.id) :
    Grown a (b.push n) (.node b.size n.kind ts) where
  larger := grown.larger.trans (b.extends_push n)
  stands := .node (b.kind?_push_size n) slots fun t part => (grown.stand t part).extend (b.extends_push n)
  once := List.nodup_cons.2 ⟨fun listed => (grown.lt_size listed).ne rfl, grown.once⟩
  fresh x listed := by
    obtain rfl | listed := List.mem_cons.1 listed
    · exact grown.larger.size
    · exact grown.fresh x listed

theorem fill (grown : GrownAll a b ts) {id : NodeId} {kind old : Kind}
    (held : b.kind? id = some old) (beyond : a.size ≤ id) (apart : id ∉ idsOf ts)
    (slots : kind.children = ts.map Tree.id) : Grown a (b.setKind id kind) (.node id kind ts) := by
  have others {x : NodeId} (other : id ≠ x) : (b.setKind id kind).kind? x = b.kind? x := by
    rw [Arena.kind?_setKind, if_neg other]
  refine ⟨⟨?_, fun {x} below => ?_⟩, ?_, List.nodup_cons.2 ⟨apart, grown.once⟩, ?_⟩
  · simpa [Arena.setKind] using grown.larger.size
  · rw [others (below.trans_le beyond).ne', grown.larger.kind below]
  · refine .node (by rw [Arena.kind?_setKind, if_pos rfl, held, Option.map_some]) slots fun t part => ?_
    refine (grown.stand t part).congr fun x inside => others ?_
    rintro rfl
    exact apart (mem_idsOf.2 ⟨t, part, inside⟩)
  · intro x listed
    obtain rfl | listed := List.mem_cons.1 listed
    · exact beyond
    · exact grown.fresh x listed

end GrownAll

theorem Grown.rewritten {t' : Tree} (grown : Grown a b t) (rewritten : Rewritten b c t t') :
    Grown a c t' where
  larger := by
    refine ⟨grown.larger.size.trans rewritten.size, fun {x} below => ?_⟩
    rw [rewritten.kept (below.trans_le grown.larger.size), grown.larger.kind below]
    exact fun inside => absurd below (Nat.not_lt.2 (grown.fresh x inside))
  stands := rewritten.stands
  once := rewritten.once
  fresh x inside := (rewritten.origin inside).elim (grown.fresh x) grown.larger.size.trans

theorem Grown.leaf (a : Arena) {n : Node} (slots : n.kind.children = []) : Grown a (a.push n) (node a.size n.kind []) :=
  (GrownAll.nil (.refl a)).node slots

structure Rebuilt (a b : Arena) (ts ts' : List Tree) : Prop where
  larger : a.Extends b
  stand : ∀ t ∈ ts', t.StandsIn b
  once : (idsOf ts').Nodup
  origin : ∀ {x}, x ∈ idsOf ts' → x ∈ idsOf ts ∨ a.size ≤ x

namespace Rebuilt

variable {ts' us vs : List Tree}

theorem keep (stand : ∀ t ∈ ts, t.StandsIn a) (once : (idsOf ts).Nodup) : Rebuilt a a ts ts :=
  ⟨.refl a, stand, once, .inl⟩

theorem lt_size (built : Rebuilt a b ts ts') {x : NodeId} (listed : x ∈ idsOf ts') : x < b.size := by
  obtain ⟨t, part, inside⟩ := mem_idsOf.1 listed
  exact (built.stand t part).lt_size x inside

theorem perm (built : Rebuilt a b ts us) (same : us.Perm vs) : Rebuilt a b ts vs where
  larger := built.larger
  stand t listed := built.stand t (same.mem_iff.2 listed)
  once := (nodup_perm same).1 built.once
  origin listed := built.origin ((mem_idsOf_perm same).2 listed)

theorem sublist (built : Rebuilt a b ts us) (part : vs.Sublist us) : Rebuilt a b ts vs where
  larger := built.larger
  stand t listed := built.stand t (part.subset listed)
  once := by
    have once := built.once
    rw [idsOf_eq_flatMap] at once ⊢
    exact (part.flatMap ids).nodup once
  origin listed := by
    obtain ⟨t, listed, inside⟩ := mem_idsOf.1 listed
    exact built.origin (mem_idsOf.2 ⟨t, part.subset listed, inside⟩)

theorem extend (built : Rebuilt a b ts ts') (larger : b.Extends c) : Rebuilt a c ts ts' where
  larger := built.larger.trans larger
  stand t listed := (built.stand t listed).extend larger
  once := built.once
  origin := built.origin

theorem trans (first : Rebuilt a b ts us) (second : Rebuilt b c us vs) : Rebuilt a c ts vs where
  larger := first.larger.trans second.larger
  stand := second.stand
  once := second.once
  origin listed := (second.origin listed).elim first.origin fun beyond => .inr (first.larger.size.trans beyond)

theorem parts {id : NodeId} {kind : Kind} (built : Rebuilt a b ts (Tree.node id kind us :: vs)) :
    Rebuilt a b ts (us ++ vs) where
  larger := built.larger
  stand t listed := by
    obtain part | listed := List.mem_append.1 listed
    · exact (built.stand _ (.head _)).child part
    · exact built.stand t (.tail _ listed)
  once := by
    have once := built.once
    rw [idsOf, ids, List.cons_append, ← idsOf_append] at once
    exact (List.nodup_cons.1 once).2
  origin listed := built.origin (by
    rw [idsOf, ids, List.cons_append, ← idsOf_append]
    exact .tail _ listed)

theorem append (built : Rebuilt a b ts ts') (grown : GrownAll b c ss) : Rebuilt a c ts (ts' ++ ss) where
  larger := built.larger.trans grown.larger
  stand := by
    intro t listed
    obtain listed | listed := List.mem_append.1 listed
    · exact (built.stand t listed).extend grown.larger
    · exact grown.stand t listed
  once := by
    rw [idsOf_append]
    refine List.nodup_append.2 ⟨built.once, grown.once, fun x here y there same => ?_⟩
    subst same
    exact absurd (built.lt_size here) (Nat.not_lt.2 (grown.fresh x there))
  origin listed := by
    rw [idsOf_append] at listed
    obtain listed | listed := List.mem_append.1 listed
    · exact built.origin listed
    · exact .inr (built.larger.size.trans (grown.fresh _ listed))

theorem node (built : Rebuilt a b ts (us ++ vs)) {n : Node} (slots : n.kind.children = vs.map Tree.id) :
    Rebuilt a (b.push n) ts (us ++ [.node b.size n.kind vs]) where
  larger := built.larger.trans (b.extends_push n)
  stand := by
    intro t listed
    obtain listed | listed := List.mem_append.1 listed
    · exact (built.stand t (List.mem_append_left _ listed)).extend (b.extends_push n)
    · obtain rfl := List.mem_singleton.1 listed
      exact .node (b.kind?_push_size n) slots fun t part =>
        (built.stand t (List.mem_append_right _ part)).extend (b.extends_push n)
  once := by
    have fresh : b.size ∉ idsOf (us ++ vs) := fun listed => (built.lt_size listed).ne rfl
    have same : (us ++ [Tree.node b.size n.kind vs]).Perm (Tree.node b.size n.kind vs :: us) :=
      List.perm_append_comm
    have once := (nodup_perm List.perm_append_comm).1 built.once
    rw [nodup_perm same, idsOf, ids, List.cons_append, ← idsOf_append]
    exact List.nodup_cons.2 ⟨fun listed => fresh ((mem_idsOf_perm List.perm_append_comm).1 listed), once⟩
  origin := by
    intro x listed
    rw [idsOf_append, idsOf_singleton] at listed
    obtain listed | listed := List.mem_append.1 listed
    · exact built.origin (by simp [listed])
    obtain rfl | listed := List.mem_cons.1 listed
    · exact .inr built.larger.size
    · exact built.origin (by simp [listed])

theorem grown (built : Rebuilt a b [] us) : GrownAll a b us :=
  ⟨built.larger, built.stand, built.once, fun _ listed => (built.origin listed).resolve_left (by simp [idsOf])⟩

theorem rewritten {t' : Tree} (built : Rebuilt a b ts [t']) (part : ∀ x ∈ idsOf ts, x ∈ t.ids) :
    Rewritten a b t t' where
  size := built.larger.size
  kept below _ := built.larger.kind below
  stands := built.stand t' (by simp)
  once := by simpa using built.once
  origin listed := (built.origin (by simpa using listed)).imp_left (part _)

end Rebuilt

end Tree

end DerivedTables
