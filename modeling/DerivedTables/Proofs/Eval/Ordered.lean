import DerivedTables.Proofs.Eval.Undisturbed

/-!
Evaluation that never comes back to where it has been.
-/

namespace DerivedTables

namespace Kind

variable {k : Kind} {x c : NodeId}

theorem entered_cases (x : NodeId) (part : c ∈ k.entered) :
    (∃ name params, k = .function name params c) ∨ ∃ run ∈ k.runs x, ∃ bound, (c, bound) ∈ run := by
  cases k with
  | function name params body =>
    obtain rfl := List.mem_singleton.1 part
    exact .inl ⟨name, params, rfl⟩
  | invoke callee args =>
    refine .inr ⟨_, List.mem_singleton.2 rfl, [], ?_⟩
    obtain rfl | given := List.mem_cons.1 part
    · simp
    · exact List.mem_append_left _ (List.mem_map.2 ⟨c, given, rfl⟩)
  | split read writes =>
    refine .inr ⟨_, List.mem_singleton.2 rfl, ?_⟩
    obtain written | rest := List.mem_append.1 part
    · obtain ⟨write, listed, rfl⟩ := List.mem_map.1 written
      exact ⟨_, List.mem_append_left _ (List.mem_map.2 ⟨write, listed, rfl⟩)⟩
    · obtain rfl := List.mem_singleton.1 rest
      exact ⟨[], by simp⟩
  | _ => simp_all [entered, isInert, children, runs] <;> grind

theorem mem_binds_of_step {run : List (NodeId × List NodeId)} {step : NodeId × List NodeId} {y : NodeId}
    (listed : run ∈ k.runs x) (part : step ∈ run) (bound : y ∈ step.2) : y ∈ k.binds x := by
  cases k <;> simp only [runs, List.mem_cons, List.not_mem_nil, or_false] at listed
  case binding | split => grind [binds]
  all_goals grind

end Kind

namespace Arena

variable {a : Arena} {start x y z : NodeId}

theorem FreeIn.append {before rest : List (NodeId × List NodeId)} (free : a.FreeIn rest y)
    (unbound : ∀ step ∈ before, y ∉ step.2) : a.FreeIn (before ++ rest) y := by
  induction before with
  | nil => exact free
  | cons step before ih =>
    rw [List.forall_mem_cons] at unbound
    exact (ih unbound.2).later unbound.1

structure Ordered (a : Arena) (start : NodeId) : Prop where
  closed : ∀ y, ¬ a.Free start y
  outside : ∀ {x t : NodeId} {name : String}, a.Reaches start x → a.kind? x = some (.reference t name) →
    t ∈ a.code t → ∀ y, ¬ a.Free t y
  acyclic : ∀ {x}, a.Reaches start x → ¬ Relation.TransGen a.Leads x x
  binder : ∀ {y z z' : NodeId} {k k' : Kind}, a.Reaches start z → a.Reaches start z' → a.kind? z = some k →
    a.kind? z' = some k' → y ∈ k.binds z → y ∈ k'.binds z' →
    z = z' ∨ a.Leads z' z ∨ (∀ u, a.Reaches start u → a.Leads u z' → u = z) ∧
      ∀ run ∈ k.runs z, ∀ bound, (z', bound) ∈ run → y ∈ bound

namespace Ordered

variable (ordered : a.Ordered start)

include ordered

theorem bound_before (reaches : a.Reaches start x) (free : a.Free x y) :
    ∃ z k, a.Reaches start z ∧ a.kind? z = some k ∧ y ∈ k.binds z ∧ Relation.TransGen a.Leads z x := by
  induction reaches with
  | refl => exact absurd free (ordered.closed y)
  | @tail w x before leads ih =>
    have outer (around : a.Free w y) :
        ∃ z k, a.Reaches start z ∧ a.kind? z = some k ∧ y ∈ k.binds z ∧ Relation.TransGen a.Leads z x := by
      obtain ⟨z, k, reached, held, bound, way⟩ := ih around
      exact ⟨z, k, reached, held, bound, way.tail leads⟩
    obtain ⟨k, held, part | ⟨target, name, rfl, code⟩⟩ := id leads
    · obtain ⟨name, params, rfl⟩ | ⟨run, listed, bound, step⟩ := Kind.entered_cases w part
      · by_cases param : y ∈ params
        · exact ⟨w, _, before, held, param, .single leads⟩
        · exact outer (.body held free param)
      · obtain ⟨front, back, rfl⟩ := List.append_of_mem step
        by_cases earlier : ∃ step ∈ front, y ∈ step.2
        · obtain ⟨step, inside, bound⟩ := earlier
          exact ⟨w, k, before, held, Kind.mem_binds_of_step listed (List.mem_append_left _ inside) bound,
            .single leads⟩
        · exact outer (.part held listed free fun step inside bound => earlier ⟨step, inside, bound⟩)
    · obtain ⟨shown, v, next, binding, lone⟩ | ⟨-, none_ | lone⟩ := a.code_cases target
      · obtain rfl := List.mem_singleton.1 (lone ▸ code)
        exact outer (.named held binding free)
      · cases none_ ▸ code
      · obtain rfl := List.mem_singleton.1 (lone ▸ code)
        exact absurd free (ordered.outside before held code y)

/-- A part that bound again what is read later would lead back to where it was bound. -/
theorem steady_step (reaches : a.Reaches start x) {k : Kind} (held : a.kind? x = some k) {c : NodeId}
    {bound : List NodeId} {before rest : List (NodeId × List NodeId)} (listed : before ++ (c, bound) :: rest ∈ k.runs x)
    (later : a.FreeIn rest y) (unbound : y ∉ bound) : ¬ a.Rebinds c y := by
  rintro ⟨z', k', way', held', bound'⟩
  have inside : (c, bound) ∈ before ++ (c, bound) :: rest := by simp
  have leads : a.Leads x c := .of_part held (mem_entered_of_runs listed inside)
  have reaches' : a.Reaches start z' := (reaches.tail leads).trans way'
  obtain ⟨z, l, reached, there, binds, way⟩ : ∃ z l, a.Reaches start z ∧ a.kind? z = some l ∧ y ∈ l.binds z ∧
      a.Reaches z x := by
    by_cases earlier : ∃ step ∈ before, y ∈ step.2
    · obtain ⟨step, listed', bound⟩ := earlier
      exact ⟨x, k, reaches, held, Kind.mem_binds_of_step listed (List.mem_append_left _ listed') bound, .refl⟩
    · have here : a.FreeIn ((c, bound) :: rest) y := later.later unbound
      have free : a.Free x y := free_of_run held listed
        (here.append fun step listed' bound => earlier ⟨step, listed', bound⟩)
      obtain ⟨z, l, reached, there, binds, way⟩ := ordered.bound_before reaches free
      exact ⟨z, l, reached, there, binds, way.to_reflTransGen⟩
  have back (again : a.Reaches c z) : False :=
    ordered.acyclic reaches (.head' leads (again.trans way))
  obtain rfl | direct | ⟨only, part⟩ := ordered.binder reached reaches' there held' binds bound'
  · exact back way'
  · exact back (way'.tail direct)
  · obtain rfl | ⟨u, further, last⟩ := Relation.ReflTransGen.cases_tail way'
    · obtain rfl := only x reaches leads
      cases there.symm.trans held
      exact unbound (part _ listed bound inside)
    · obtain rfl := only u ((reaches.tail leads).trans further) last
      exact back further

theorem steady (reaches : a.Reaches start x) {k : Kind} (held : a.kind? x = some k)
    {run : List (NodeId × List NodeId)} (listed : run ∈ k.runs x) : a.Steady run := by
  have along (before rest : List (NodeId × List NodeId)) (whole : before ++ rest ∈ k.runs x) : a.Steady rest := by
    induction rest generalizing before with
    | nil => trivial
    | cons step rest ih =>
      refine ⟨fun y later unbound => ordered.steady_step reaches held whole later unbound, ?_⟩
      exact ih (before ++ [step]) (by simpa using whole)
  exact along [] run listed

theorem undisturbed : a.Undisturbed start :=
  fun _ _ reaches held _ listed => ordered.steady reaches held listed

end Ordered

end Arena

end DerivedTables
