import DerivedTables.Proofs.Rows.Filled

/-!
Where recognition stops, and why.
-/

namespace DerivedTables

open Tree

variable {a b : Arena} {t : Tree} {ts : List Tree}

namespace Rows

variable {w w' : Workspace RowsSummary} {e : RowsError}

namespace Faulty

variable {x y : NodeId} {src : Tree} {rest : List Tree}

theorem of_access (faulty : Faulty a t e) (accessed : t.kind = .access x y) (parts : t.parts = src :: rest) :
    src.kind.isCollection = true ∧ RowMember.ofName? ((a.identifier? y).getD "") = none ∨ src.kind.isAggregate = true := by
  cases faulty with
  | rows => cases accessed
  | member collection unknown =>
    cases accessed
    cases parts
    exact .inl ⟨collection, unknown⟩
  | aggregate aggregate =>
    cases parts
    exact .inr aggregate
  | call => cases accessed

theorem of_call {callee : NodeId} {args : List NodeId} {member : RowMember} (faulty : Faulty a t e)
    (called : t.kind = .invoke callee args) (parts : t.parts = .node x (.intent member src.id) [src] :: rest) :
    Miscalled a t.id member rest e := by
  cases faulty with
  | rows | member | aggregate => cases called
  | call miscalled =>
    simp only [Tree.parts, List.cons.injEq, Tree.node.injEq, Kind.intent.injEq] at parts
    obtain ⟨⟨-, ⟨rfl, -⟩, -⟩, rfl⟩ := parts
    exact miscalled

end Faulty

/-- Recognition stops on leaving the node: everything below it is done, and something is wrong with it. -/
inductive Stopped (a : Arena) : Tree → RowsError → Prop
  | leave {id : NodeId} {kind : Kind} {parts parts' : List Tree} {c d b : Arena} {e : RowsError}
    (before : a.Preserves c) (stand : ∀ p ∈ parts, p.StandsIn c) (apart : (idsOf parts).Nodup)
    (walked : Walked c parts parts' d) (now : a.Preserves b)
    (stands : (Tree.node id (kind.withChildren (parts'.map Tree.id)) parts').StandsIn b)
    (faulty : Faulty b (.node id (kind.withChildren (parts'.map Tree.id)) parts') e) : Stopped a (.node id kind parts) e

theorem Stopped.not_dangling (stopped : Stopped a t e) : ¬ Dangling e := by
  obtain ⟨_, _, _, _, _, _, faulty⟩ := stopped
  exact faulty.not_dangling

theorem Stopped.of_preserves (stopped : Stopped b t e) (first : a.Preserves b) : Stopped a t e := by
  obtain ⟨before, stand, apart, walked, now, stands, faulty⟩ := stopped
  exact ⟨first.trans before, stand, apart, walked, first.trans now, stands, faulty⟩

def Visits (a : Arena) (fuel : Nat) (t : Tree) : Prop :=
  ∀ {lineage : Lineage} {w : Workspace RowsSummary}, t.height ≤ fuel → t.StandsIn a → t.StandsIn w.arena → t.ids.Nodup →
    Pass.Ends (fun e => ¬ ∃ s : Tree, s.StandsIn w.arena ∧ s.id ∈ t.ids ∧ Stopped w.arena s e)
      ((Visitor.leaving leave).visit fuel t.id lineage ()) w fun r w' => ∃ t', r = t'.id ∧
      Rewritten w.arena w'.arena t t' ∧ Walked w.arena [t] [t'] w'.arena ∧
        w'.notes.datasets = w.notes.datasets + t.ids.countP a.isMarked

theorem visitAll_walked {fuel : Nat} (each : ∀ t ∈ ts, Visits a fuel t) (lineage : Lineage) (enough : heightOf ts ≤
    fuel) (first : ∀ t ∈ ts, t.StandsIn a) (stand : ∀ t ∈ ts, t.StandsIn w.arena) (once : (idsOf ts).Nodup) : Pass.Ends
    (fun e => ¬ ∃ s : Tree, s.StandsIn w.arena ∧ s.id ∈ idsOf ts ∧ Stopped w.arena s e) ((ts.map Tree.id).mapM fun child
    => (Visitor.leaving leave).visit fuel child lineage ()) w fun rs w' => ∃ ts', rs = ts'.map Tree.id ∧ RewrittenAll
    w.arena w'.arena ts ts' ∧ Walked w.arena ts ts' w'.arena ∧ w'.notes.datasets = w.notes.datasets + (idsOf ts).countP
    a.isMarked := by
  induction ts generalizing w with
  | nil => exact .pure ⟨[], rfl, .nil _, .nil _, rfl⟩
  | cons t ts ih =>
    simp only [heightOf, idsOf, List.forall_mem_cons, Nat.max_le] at *
    obtain ⟨once, onceRest, disjoint⟩ := List.nodup_append.1 once
    rw [List.map_cons, List.mapM_cons]
    refine ((each.1 enough.1 first.1 stand.1 once).weaken ?_).bind ?_
    · rintro e other ⟨s, standing, inside, stopped⟩
      exact other ⟨s, standing, List.mem_append_left _ inside, stopped⟩
    rintro _ w₁ ⟨t', rfl, rewritten, walked, counted⟩
    have same : ∀ x ∈ idsOf ts, w₁.arena.kind? x = w.arena.kind? x := fun x listed => by
      obtain ⟨s, part, inside⟩ := mem_idsOf.1 listed
      exact rewritten.kept ((stand.2 s part).lt_size x inside) fun here => disjoint x here x listed rfl
    have standing : ∀ s ∈ ts, s.StandsIn w₁.arena := fun s part => (stand.2 s part).congr fun x inside =>
      same x (mem_idsOf.2 ⟨s, part, inside⟩)
    refine ((ih each.2 enough.2 first.2 standing onceRest).weaken ?_).bind ?_
    · rintro e other ⟨s, there, inside, stopped⟩
      refine other ⟨s, there.congr fun x listed => (same x ?_).symm, List.mem_append_right _ inside, stopped.of_preserves ?_⟩
      · obtain ⟨u, part, top⟩ := mem_idsOf.1 inside
        exact mem_idsOf.2 ⟨u, part, ((standing u part).sublist_within there top).subset listed⟩
      · exact walked.preserves (by simpa using stand.1) (by simpa using once)
    rintro _ w₂ ⟨ts', rfl, rewrittenAll, walkedAll, countedAll⟩
    refine .pure ⟨t' :: ts', rfl, ?_, walked.append walkedAll, ?_⟩
    · refine .cons rewritten rewrittenAll (fun x inside => ?_) fun x here there => disjoint x here x there rfl
      obtain ⟨s, part, inside⟩ := mem_idsOf.1 inside
      exact (stand.2 s part).lt_size x inside
    · rw [countedAll, counted, List.countP_append, Nat.add_assoc]

/-- By induction on the tree: a visit fails in one of the parts or, when they are done, at the node itself. -/
theorem visits (a : Arena) (fuel : Nat) (t : Tree) : Visits a fuel t := by
  induction t generalizing fuel with
  | node id kind parts ih =>
    intro lineage w enough first stands once
    cases fuel with
    | zero => simp [height] at enough
    | succ fuel =>
      simp only [height, Nat.add_le_add_iff_right] at enough
      have stand : ∀ t ∈ parts, t.StandsIn w.arena := fun t part => stands.child part
      have apart := (List.nodup_cons.1 once).2
      have visiting := visitAll_walked (w := w) (fun t part => ih t part fuel) (id :: lineage) enough
        (fun t part => first.child part) stand apart
      rw [← stands.filled] at visiting
      refine Visitor.leaving_ends stands.held (visiting.weaken ?_) ?_
      · rintro e other ⟨s, standing, inside, stopped⟩
        exact other ⟨s, standing, List.mem_cons_of_mem _ inside, stopped⟩
      rintro _ w₁ ⟨ts', rfl, rewrittenAll, walked, counted⟩
      have rewritten := rewrittenAll.node stands once walked.length_eq.symm
      have now := preserves_written stands once rewrittenAll (walked.preserves stand apart) rfl
      rw [Tree.id_node]
      generalize written : (if ts'.map Tree.id = kind.children then w₁.arena
        else w₁.arena.setKind id (kind.withChildren (ts'.map Tree.id))) = b at rewritten now ⊢
      refine ((leave_left (w := ⟨b, w₁.notes⟩) rewritten.stands rewritten.once).weaken fun e other faulty =>
        other ⟨_, stands, id_mem_ids _, .leave (.refl _) stand apart walked now rewritten.stands faulty⟩).also ?_
      rintro r w₂ done ⟨later, t', same, whole, left⟩
      refine ⟨t', same, rewritten.trans whole, .cons walked written rewritten later whole left (.nil _), ?_⟩
      have marked : (kind.withChildren (ts'.map Tree.id)).isMarker = a.isMarked id := by
        rw [Arena.isMarked, first.held, Kind.isMarker_withChildren]
        rfl
      rw [leave_datasets (w := ⟨b, w₁.notes⟩) rewritten.stands done, counted, ids, List.countP_cons,
        Tree.kind_node, marked, Nat.add_assoc]
      cases a.isMarked id <;> rfl

theorem recognize_error (stands : t.StandsIn w.arena) (once : t.ids.Nodup) (failed : recognize t.id w = .error e w') :
    (∃ s : Tree, s.StandsIn w.arena ∧ s.id ∈ t.ids ∧ Stopped w.arena s e) ∨ ∃ r node member,
    (Visitor.leaving leave).walk t.id () w = .ok r w' ∧ e = .uncalled node member := by
  obtain failed | ⟨r, w₁, walked, failed⟩ := bind_eq_error failed
  · exact .inl (not_not.1 ((visits w.arena _ t ((stands.height_le_size once).trans (Nat.le_succ _)) stands stands once).error failed))
  · rw [bind_of_ok (Pass.arena_run w₁)] at failed
    cases found : firstIntent? w₁.arena r with
    | none =>
      simp only [found] at failed
      cases failed
    | some intent =>
      simp only [found] at failed
      cases failed
      exact .inr ⟨r, _, _, walked, rfl⟩

end Rows

end DerivedTables
