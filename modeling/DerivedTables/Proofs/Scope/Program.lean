import DerivedTables.Proofs.Scope.Items

/-!
Resolution binds the names of a program as `Tree.resolveProgram` says, and fails just where it does.
-/

namespace DerivedTables

namespace Resolution

open Pass Scopes Tree

variable {t : Tree} {a : Arena}

theorem symbol?_initial (id : ScopeId) (name : String) : Scopes.initial.symbol? id name = none := by
  obtain _ | id := id
  · simp [Scopes.symbol?, Scopes.scope?, Scopes.initial]
  · rfl

theorem sane_initial (a : Arena) : Sane a Scopes.initial where
  ordered id p found := by
    obtain _ | id := id <;> cases found
  inner inside below := absurd below (Nat.not_lt.2 inside)
  named found := by cases (symbol?_initial ..).symm.trans found
  lets found := by cases (symbol?_initial ..).symm.trans found
  tables found := by cases (symbol?_initial ..).symm.trans found

structure Bound (a : Arena) (t t' : Tree) (w' : Workspace Notes) : Prop where
  stands : t'.StandsIn w'.arena
  same : t'.id = t.id ∧ t'.ids = t.ids
  kept : ∀ x ∉ t.ids, w'.arena.kind? x = a.kind? x
  names : Names a w'.arena
  sane : Sane w'.arena w'.notes.result.scopes
  entered : ∀ x ∈ t.ids, ∃ i : ScopeId, w'.notes.result.recorded[x]? = some i ∧ i < w'.notes.result.scopes.size
  top : ∀ name, (w'.notes.result.scopes.symbol? outermost name).map Symbol.node = (declaredNames t.parts).lookup name

theorem declaration?_expression (expression : t.Expression) : declaration? t.kind = none := by
  cases expression with
  | @atom _ kind atom => cases kind <;> first | rfl | cases atom
  | @compound _ kind _ compound => cases kind <;> first | rfl | cases compound
  | access | binding | function => rfl

theorem resolveItem_expression (expression : t.Expression) (view : View) : t.resolveItem view = t.resolve view := by
  obtain ⟨id, kind, parts⟩ := t
  rw [resolveItem]
  rintro _ name properties _ ⟨⟩
  cases declaration?_expression expression

theorem declaredNames_items (last : t.Expression) (ts : List Tree) : declaredNames (ts ++ [t]) = declaredNames ts := by
  simp [declaredNames, declaration?_expression last]

theorem resolveNames_eq_tour (stands : t.StandsIn a) (once : t.ids.Nodup) (n : Notes) :
    resolveNames t.id ⟨a, n⟩ = (do t.tour visitor [] outermost; return t.id : Resolving NodeId) ⟨a, n⟩ := by
  rw [resolveNames, Visitor.walk, bind_of_ok (Pass.arena_run _)]
  exact visitor_quiet.visit_eq_tour ((stands.height_le_size once).trans (Nat.le_succ _)) stands.shapes

theorem resolveNames_program (program : t.IsProgram) (stands : t.StandsIn a) (once : t.ids.Nodup) :
    match t.resolveProgram with
    | some t' => ∃ w', resolveNames t.id ⟨a, ⟨.initial, ∅⟩⟩ = .ok t.id w' ∧ Bound a t t' w'
    | none => ∃ e w', resolveNames t.id ⟨a, ⟨.initial, ∅⟩⟩ = .error e w' := by
  cases program with
  | @root id definitions assignments e tables values last =>
    generalize grouped : definitions ++ assignments = items at *
    have each : ∀ t ∈ items, t.IsItem := by
      rw [← grouped]
      exact List.forall_mem_append.2 ⟨tables, values⟩
    have held := stands.held
    obtain ⟨new, once'⟩ := List.nodup_cons.1 once
    obtain ⟨once_items, once_last, disjoint⟩ := List.nodup_append.1 (idsOf_append items [e] ▸ once')
    rw [idsOf_singleton] at once_last disjoint
    have stand : ∀ t ∈ items, t.StandsIn a := fun t part => stands.child (by simp [part])
    have nothing (x : NodeId) : ¬ Scopes.initial.Binds x := by
      rintro ⟨i, name, symbol, found, -⟩
      cases (symbol?_initial i name).symm.trans found
    have entered : enter id [] outermost ⟨a, ⟨.initial, ∅⟩⟩ = (do
        (items.map Tree.id).forM (declare outermost)
        return .keep : Resolving (Entry ScopeId)) ⟨a, Notes.record ⟨.initial, ∅⟩ id outermost⟩ := by
      rw [enter_eq [] outermost (w := ⟨a, ⟨.initial, ∅⟩⟩) held, ← grouped, List.map_append]
      rfl
    have declarable : Declarable a outermost items := fun t part =>
      ⟨(stand t part).kind, (each t part).declares, fun _ => rfl⟩
    have there : outermost < (Notes.record ⟨.initial, ∅⟩ id outermost).result.scopes.size := Nat.zero_lt_one
    obtain ⟨succeeds, fails⟩ := declare_all there (sane_initial a) declarable (nodup_map_id once_items)
    rw [resolveNames_eq_tour stands once, resolveProgram, declaredNames_items last]
    by_cases distinct : ((declaredNames items).map Prod.fst).Nodup
    · rw [if_pos distinct]
      obtain ⟨n, declared, declares⟩ := succeeds ⟨distinct, fun x _ => symbol?_initial _ x⟩
      have ran := entered.trans (bind_of_ok declared)
      have apart {x : NodeId} (inside : x ∈ idsOf (items ++ [e])) : x ∉ [id] := by
        rw [List.mem_singleton]
        rintro rfl
        exact new inside
      have waiting {t : Tree} (part : t ∈ items) : Waiting ⟨a, n⟩ [id] outermost
          (View.with (fun _ => none) (declaredNames items)) t :=
        declares.waiting (sane_initial a) Nat.zero_lt_one (symbol?_initial _) stand once_items
          (fun x inside => apart (by simp [inside])) (fun x _ => Std.TreeMap.getElem?_emptyc)
          (fun x _ {_ _ _} _ => nothing x) (fun t part => (each t part).declares) (fun t _ shown => rfl) part
      -- The expressions of a program come last, in the outermost scope.
      have placed : Placed ⟨a, n⟩ [id] outermost (View.with (fun _ => none) (declaredNames items)) e := by
        have separate {x : NodeId} (inside : x ∈ e.ids) : x ∉ items.map Tree.id := fun listed => by
          obtain ⟨t, part, rfl⟩ := List.mem_map.1 listed
          exact disjoint _ (mem_idsOf.2 ⟨t, part, t.id_mem_ids⟩) _ inside rfl
        refine ⟨⟨stands.child (by simp), once_last, fun x inside => apart (by simp [inside]),
          fun x inside {_ _ _} _ now => ?_, lt_of_lt_of_le Nat.zero_lt_one declares.adds.size, declares.sane,
          fun shown => ?_⟩, fun x inside => ?_, by simp [Arena.isPropertyName, held]⟩
        · exact (declares.bound now).elim (separate inside) (nothing x)
        · exact declares.sees (sane_initial a) Nat.zero_lt_one (symbol?_initial _) stand
            (fun t part => (each t part).declares) rfl
        · exact (declares.other x (separate inside)).trans Std.TreeMap.getElem?_emptyc
      generalize View.with (fun _ => none) (declaredNames items) = view at *
      have quiet {i : Nat} : ¬ Own n e i := fun own => by
        cases (declaration?_expression last).symm.trans own.1.choose_spec
      have inwards {t : Tree} (part : t ∈ items ++ [e]) {i : Nat} (own : Own n t i) : outermost < i := by
        obtain part | part := List.mem_append.1 part
        · exact (waiting part).inwards own
        · exact absurd own (List.mem_singleton.1 part ▸ quiet)
      have below : OutcomeAll (outermost < ·) (items ++ [e]) ((items ++ [e]).mapM (resolveItem view)) ⟨a, n⟩
          (tourAll visitor [id] outermost (items ++ [e]) ⟨a, n⟩) := by
        refine tourAll_each (Own n)
          (fun w t => (t ∈ items ∧ Waiting w [id] outermost view t ∧ ∀ i, Own w.notes t i ↔ Own n t i) ∨
            t = e ∧ Placed w [id] outermost view e)
          (fun t _ {w} ready => ?_) (fun t _ {t'} found => (resolves_of_resolveItem found).ids_eq.2)
          (fun t listed u _ separate {w w'} first second advanced => ?_) (fun t part i => inwards part) ?_ once'
          declares.sane
        · obtain ⟨part, waiting, own⟩ | ⟨rfl, placed⟩ := ready
          · exact (item_result (each t part) waiting).mono fun i _ => (own i).1
          · rw [resolveItem_expression last]
            exact Expression.within last placed
        · obtain ⟨other, second⟩ | ⟨rfl, placed⟩ := second
          · obtain ⟨part, first⟩ | ⟨rfl, -⟩ := first
            · exact .inl ⟨other, declares.later part other separate first second advanced⟩
            · refine .inl ⟨other, second.1.later advanced separate (fun i own => absurd own quiet)
                (fun _ _ own => quiet own), fun i => ?_⟩
              rw [← second.2 i, Own, Own, advanced.declared _ (separate _ u.id_mem_ids)]
          · exact .inr ⟨rfl, placed.later advanced separate fun i => inwards listed⟩
        · refine List.forall_mem_append.2 ⟨fun t part => .inl ⟨part, waiting part, fun _ => .rfl⟩, ?_⟩
          exact List.forall_mem_singleton.2 (.inr ⟨rfl, placed⟩)
      cases found : (items ++ [e]).mapM (resolveItem view) with
      | none =>
        rw [found] at below
        obtain ⟨x, w', failed⟩ := below
        have before : visitor.before id [] outermost ⟨a, ⟨.initial, ∅⟩⟩ = _ := ran
        exact ⟨x, w', bind_of_error (by rw [tour, bind_of_ok before]; exact bind_of_error failed)⟩
      | some parts' =>
        rw [found] at below
        obtain ⟨w', toured, stand', advanced, inside⟩ := below
        have held' := (advanced.kept id new).trans held
        obtain ⟨slots, sameIds⟩ := Resolves.all_ids (resolves_mapM (fun _ _ _ => resolves_of_resolveItem) found)
        refine ⟨w', bind_of_ok (tour_of_ok ran toured held' (by simp)), .node held' ?_ stand', ⟨rfl, ?_⟩,
          fun x outside => advanced.kept x fun part => outside (.tail _ part), advanced.names, advanced.sane,
          fun x part => ?_, fun name => ?_⟩
        · rw [slots]
          exact stands.filled
        · simp [ids, sameIds]
        · have known : x ∈ w'.notes.result.recorded := by
            obtain rfl | part := List.mem_cons.1 part
            · exact advanced.earlier x (declares.recorded ▸ by simp [Notes.record])
            · exact inside x part
          rw [← Std.TreeMap.isSome_getElem?_iff_mem] at known
          obtain ⟨i, known⟩ := Option.isSome_iff_exists.1 known
          refine ⟨i, known, (advanced.recorded known).elim (fun before => ?_) fun below => below⟩
          have recorded : n.result.recorded = (∅ : ScopeMap).insert id outermost := declares.recorded
          rw [show Workspace.notes _ = n from rfl, recorded, Std.TreeMap.getElem?_insert] at before
          split at before
          · cases before
            exact placed.there.trans_le advanced.grows.size
          · cases Std.TreeMap.getElem?_emptyc.symm.trans before
        · have here : _ = (_ : Option NodeId).or ((Scopes.initial.symbol? outermost name).map Symbol.node) :=
            declares.adds.here name
          rw [symbol?_initial, Option.map_none, Option.or_none] at here
          rw [parts_node, declaredNames_items last, ← here]
          exact congrArg _ (advanced.grows.symbol placed.there (lt_irrefl _) name)
    · rw [if_neg distinct]
      obtain ⟨e, w', failed⟩ := fails fun ok => distinct ok.1
      have before : visitor.before id [] outermost ⟨a, ⟨.initial, ∅⟩⟩ = .error e w' :=
        entered.trans (bind_of_error failed)
      exact ⟨e, w', bind_of_error (by rw [tour, bind_of_error before])⟩

end Resolution

end DerivedTables
