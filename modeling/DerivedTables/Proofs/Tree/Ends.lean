import DerivedTables.Proofs.Tree.Tour

/-!
How a run can end. A pass that follows the slots and links of a tree that stands never asks for a
node that is not there; it succeeds, or fails for a reason of its own.
-/

namespace DerivedTables

variable {ε ω α β : Type} {bad : ε → Prop}

def Dangling [OfTreeError ε] (e : ε) : Prop := ∃ node, e = OfTreeError.ofTreeError (.dangling node)

namespace Pass

variable {m : Pass ε ω α} {f : α → Pass ε ω β} {w w₁ : Workspace ω}

structure Ends (bad : ε → Prop) (m : Pass ε ω α) (w : Workspace ω) (post : α → Workspace ω → Prop) : Prop where
  ok : ∀ {x w'}, m w = .ok x w' → post x w'
  error : ∀ {e w'}, m w = .error e w' → ¬ bad e

namespace Ends

variable {mid : α → Workspace ω → Prop} {post post' : β → Workspace ω → Prop}

theorem of_ok {n : Pass ε ω β} {y : β} (ran : n w = .ok y w₁) (here : post y w₁) : Ends bad n w post where
  ok done := by
    cases ran.symm.trans done
    exact here
  error failed := by cases ran.symm.trans failed

theorem of_error {n : Pass ε ω β} {e : ε} (ran : n w = .error e w₁) (other : ¬ bad e) :
    Ends bad n w post where
  ok done := by cases ran.symm.trans done
  error failed := by
    cases ran.symm.trans failed
    exact other

theorem bind (first : Ends bad m w mid) (second : ∀ x w', mid x w' → Ends bad (f x) w' post) :
    Ends bad (m >>= f) w post := by
  cases ran : m w with
  | error e w' => exact .of_error (bind_of_error ran) (first.error ran)
  | ok x w' =>
    have rest := second x w' (first.ok ran)
    exact ⟨fun done => rest.ok ((bind_of_ok ran).symm.trans done),
      fun failed => rest.error ((bind_of_ok ran).symm.trans failed)⟩

theorem pure {y : β} (here : post y w) : Ends bad (pure y : Pass ε ω β) w post := .of_ok rfl here

theorem throw {e : ε} (other : ¬ bad e) : Ends bad (throw e : Pass ε ω β) w post := .of_error rfl other

theorem mono {n : Pass ε ω β} (ends : Ends bad n w post) (weaker : ∀ y w', post y w' → post' y w') :
    Ends bad n w post' :=
  ⟨fun done => weaker _ _ (ends.ok done), ends.error⟩

theorem weaken {bad' : ε → Prop} {n : Pass ε ω β} (ends : Ends bad n w post) (fewer : ∀ e, bad' e → bad e) : Ends bad' n w post :=
  ⟨ends.ok, fun failed isBad => ends.error failed (fewer _ isBad)⟩

theorem also {n : Pass ε ω β} (ends : Ends bad n w post)
    (more : ∀ y w', n w = .ok y w' → post y w' → post' y w') : Ends bad n w post' :=
  ⟨fun done => more _ _ done (ends.ok done), ends.error⟩

theorem congr {n : Pass ε ω β} {n' : Pass ε ω β} (same : n w = n' w₁) (ends : Ends bad n' w₁ post) : Ends bad n w post :=
  ⟨fun done => ends.ok (same.symm.trans done), fun failed => ends.error (same.symm.trans failed)⟩

theorem step {x : α} (ran : m w = .ok x w₁) (rest : Ends bad (f x) w₁ post) : Ends bad (m >>= f) w post :=
  have first : Ends bad m w fun y w' => y = x ∧ w' = w₁ := .of_ok ran ⟨rfl, rfl⟩
  first.bind fun y w' same => by rwa [same.1, same.2]

theorem arena {f : Arena → Pass ε ω β} (rest : Ends bad (f w.arena) w post) :
    Ends bad (Pass.arena >>= f) w post := .step (arena_run w) rest

theorem kind [OfTreeError ε] {f : Kind → Pass ε ω β} {x : NodeId} {k : Kind} (held : w.arena.kind? x = some k)
    (rest : Ends bad (f k) w post) : Ends bad (Pass.kind x >>= f) w post := .step (kind_of_some held) rest

theorem ofExcept {e : Except ε α} (error : ∀ err, e = .error err → ¬ bad err)
    (rest : ∀ x, e = .ok x → Ends bad (f x) w post) : Ends bad (Pass.ofExcept e >>= f) w post := by
  cases e with
  | ok x => exact rest x rfl
  | error err => exact .of_error rfl (error err rfl)

end Ends

end Pass

namespace Visitor

variable {σ : Type} {v : Visitor ε ω σ} {fits : Workspace ω → NodeId → Prop}

structure Careful (bad : ε → Prop) (v : Visitor ε ω σ) (fits : Workspace ω → NodeId → Prop) : Prop where
  before : ∀ {id lineage state w}, fits w id →
    Pass.Ends bad (v.before id lineage state) w fun _ w' => ∀ x, fits w x → fits w' x
  after : ∀ {id lineage state w}, fits w id →
    Pass.Ends bad (v.after id lineage state) w fun _ w' => ∀ x, fits w x → fits w' x

theorem Careful.tourAll_ends {ts : List Tree} (each : ∀ t ∈ ts, ∀ {lineage state w}, (∀ x ∈ t.ids, fits w x) →
      Pass.Ends bad (t.tour v lineage state) w fun _ w' => ∀ x, fits w x → fits w' x)
    {lineage : Lineage} {state : σ} {w : Workspace ω} (fit : ∀ x ∈ Tree.idsOf ts, fits w x) :
    Pass.Ends bad (Tree.tourAll v lineage state ts) w fun _ w' => ∀ x, fits w x → fits w' x := by
  induction ts generalizing w with
  | nil => exact .pure fun x fit => fit
  | cons t rest ih =>
    rw [List.forall_mem_cons] at each
    rw [Tree.idsOf, List.forall_mem_append] at fit
    refine (each.1 fit.1).bind fun _ w₁ later => (ih each.2 fun x there => later x (fit.2 x there)).mono ?_
    exact fun _ _ last x fit => last x (later x fit)

theorem Careful.tour_ends (careful : v.Careful bad fits) {t : Tree} {lineage : Lineage} {state : σ} {w : Workspace ω}
    (fit : ∀ x ∈ t.ids, fits w x) : Pass.Ends bad (t.tour v lineage state) w fun _ w' => ∀ x, fits w x → fits w' x := by
  induction t generalizing lineage state w with
  | node id kind parts ih =>
    rw [Tree.ids, List.forall_mem_cons] at fit
    rw [Tree.tour]
    refine (careful.before fit.1).bind fun entry w₁ entered => ?_
    refine (tourAll_ends (fun t part {_ _ _} => ih t part) fun x there => entered x (fit.2 x there)).bind
      fun _ w₂ inside => ?_
    refine (careful.after (inside id (entered id fit.1))).bind fun _ w₃ left => .pure ?_
    exact fun x fit => left x (inside x (entered x fit))

theorem Quiet.walk_ends [OfTreeError ε] (quiet : v.Quiet) (careful : v.Careful bad fits) {t : Tree} {state : σ} {w : Workspace ω}
    (stands : t.StandsIn w.arena) (once : t.ids.Nodup) (fit : ∀ x ∈ t.ids, fits w x) :
    Pass.Ends bad (v.walk t.id state) w fun _ w' => ∀ x, fits w x → fits w' x := by
  have enough := (stands.height_le_size once).trans (Nat.le_succ _)
  exact .arena (.congr (quiet.visit_eq_tour enough stands.shapes)
    ((careful.tour_ends fit).bind fun _ _ later => .pure later))

end Visitor

/-- A visitor that only looks back: the children first, then the node written back, then the hook. -/
theorem Visitor.leaving_ends {σ : Type} [OfTreeError ε] {leave : NodeId → Lineage → σ → Pass ε ω (Option NodeId)}
    {fuel : Nat} {id : NodeId} {lineage : Lineage} {state : σ} {w : Workspace ω} {k : Kind}
    {mid : List NodeId → Workspace ω → Prop} {post : NodeId → Workspace ω → Prop}
    (held : w.arena.kind? id = some k)
    (visiting : Pass.Ends bad (k.children.mapM fun child =>
      (Visitor.leaving leave).visit fuel child (id :: lineage) state) w mid)
    (left : ∀ children w', mid children w' → Pass.Ends bad (leave id lineage state)
      { w' with arena := if children = k.children then w'.arena
          else w'.arena.setKind id (k.withChildren children) } fun r w'' => post (r.getD id) w'') :
    Pass.Ends bad ((Visitor.leaving leave).visit (fuel + 1) id lineage state) w post := by
  have entered : (Visitor.leaving leave).before id lineage state w = .ok .keep w := rfl
  refine .congr (visit_kept held entered rfl held) (visiting.bind fun children w' here => ?_)
  have rest := (left children w' here).bind (f := fun r => (pure (r.getD id) : Pass ε ω NodeId))
    fun r w'' there => .pure there
  by_cases kept : children = k.children
  · rw [if_neg (not_not_intro kept)]
    rw [if_pos kept] at rest
    exact rest
  · rw [if_pos kept]
    rw [if_neg kept] at rest
    exact .step rfl rest

end DerivedTables
