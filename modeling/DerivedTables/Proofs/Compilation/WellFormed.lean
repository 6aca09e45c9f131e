import DerivedTables.Proofs.Rows.Recognized
import DerivedTables.Proofs.Storage.Divided
import DerivedTables.Proofs.Typing.Accepted

/-!
Every stage leaves a tree whose slots and links stay inside it, and none of them asks for a node
that is not there.
-/

namespace DerivedTables

open Tree

theorem Expr.Violates.not_dangling {e : Expr} {fault : TreeError} (violates : e.Violates fault) : ¬ Dangling fault := by
  induction violates with
  | stray | early => rintro ⟨_, ⟨⟩⟩
  | _ => assumption

theorem Program.Violates.not_dangling {program : Program} {fault : TreeError} (violates : program.Violates fault) :
    ¬ Dangling fault := by
  obtain ⟨statement, -, violates⟩ | violates := violates
  · cases statement with
    | definition name members span =>
      obtain ⟨⟨name, ⟨base, isArray⟩ | context, span⟩ | ⟨name, expr, span⟩ | ⟨name, params, body, span⟩, -, violates⟩ := violates
      · cases violates
      · cases violates
        rintro ⟨_, ⟨⟩⟩
      all_goals exact Expr.Violates.not_dangling violates
    | assignment => exact Expr.Violates.not_dangling violates
    | expression => cases violates
  · exact violates.not_dangling

theorem Resolution.visitor_calm {p : Prop} : visitor.Calm p := by
  refine ⟨fun id lineage state => .of_reads (enter_reads id lineage state), fun id lineage state =>
    ⟨fun only left => ⟨?_, rfl⟩⟩⟩
  obtain ⟨-, rfl | ⟨name, symbol, -, rfl⟩⟩ := leave_cases left
  · exact only
  · exact only.setKind (by simp [Kind.isSplit])

theorem Alias.visitor_calm {p : Prop} : (Visitor.entering enter).Calm p := by
  refine ⟨fun id lineage state => ⟨fun only entered => ⟨?_, rfl⟩⟩, fun _ _ _ => .pure _⟩
  obtain ⟨_, _, _, _, _, -, -, -, rfl⟩ | ⟨_, _, _, -, -, -, rfl⟩ | ⟨-, rfl⟩ := enter_cases lineage entered
  · exact only
  · exact only.setKind (by simp [Kind.isSplit])
  · exact only

def Arena.Filled (a : Arena) (x : NodeId) : Prop :=
  ∃ k, a.kind? x = some k ∧ ∀ y ∈ k.children, ∃ l, a.kind? y = some l

theorem Arena.Filled.congr {a b : Arena} {x : NodeId} (filled : a.Filled x) (same : a.SameSlots b) : b.Filled x := by
  have there {y : NodeId} {k : Kind} (held : a.kind? y = some k) :
      ∃ l, b.kind? y = some l ∧ l.children = k.children := by
    have slots := same y
    rw [held] at slots
    exact Option.map_eq_some_iff.1 slots
  obtain ⟨k, held, parts⟩ := filled
  obtain ⟨l, held', children⟩ := there held
  refine ⟨l, held', fun y child => ?_⟩
  obtain ⟨m, held⟩ := parts y (children ▸ child)
  exact (there held).imp fun _ both => both.1

theorem Tree.StandsIn.arena_filled {a : Arena} {t : Tree} (stands : t.StandsIn a) {x : NodeId} (inside : x ∈ t.ids) :
    a.Filled x := by
  obtain ⟨s, rfl, standing⟩ := stands.exists_at inside
  refine ⟨s.kind, standing.kind, fun y child => ?_⟩
  rw [standing.slots] at child
  obtain ⟨u, part, rfl⟩ := List.mem_map.1 child
  exact ⟨u.kind, (standing.child part).kind⟩

namespace Resolution

open Pass

variable {w : Workspace Notes}

theorem bind_ends (scope : ScopeId) (name : String) (node : NodeId) (leaf : Bool) :
    Ends Dangling (bind scope name node leaf) w fun _ w' => w'.arena = w.arena := by
  refine .step rfl ?_
  split
  · exact .of_ok rfl rfl
  · exact .throw (by rintro ⟨_, same⟩; cases same)

theorem forM_ends {f : NodeId → Resolving Unit} {xs : List NodeId}
    (each : ∀ x ∈ xs, ∀ {w' : Workspace Notes}, w'.arena = w.arena → Ends Dangling (f x) w' fun _ w'' => w''.arena = w.arena) :
    Ends Dangling (xs.forM f) w fun _ w' => w'.arena = w.arena := by
  have all : ∀ {w' : Workspace Notes}, w'.arena = w.arena → Ends Dangling (xs.forM f) w' fun _ w'' => w''.arena = w.arena := by
    induction xs with
    | nil => exact fun same => .pure same
    | cons x xs ih =>
      rw [List.forall_mem_cons] at each
      exact fun same => (each.1 same).bind fun _ _ same => ih each.2 same
  exact all rfl

theorem declare_ends (scope : ScopeId) {node : NodeId} {k : Kind} (held : w.arena.kind? node = some k) :
    Ends Dangling (declare scope node) w fun _ w' => w'.arena = w.arena := by
  refine .kind held ?_
  split
  · exact (bind_ends ..).bind fun _ _ same => .of_ok rfl same
  · exact .pure rfl

theorem bindParams_ends (scope : ScopeId) {params : List NodeId} (there : ∀ x ∈ params, ∃ k, w.arena.kind? x = some k) :
    Ends Dangling (bindParams scope params) w fun _ w' => w'.arena = w.arena := by
  refine forM_ends fun x listed w' same => ?_
  obtain ⟨k, held⟩ := there x listed
  rw [← same] at held ⊢
  refine .kind held ?_
  split
  · exact (bind_ends ..).bind fun _ _ same => .pure same
  · exact .pure rfl

theorem enter_ends {node : NodeId} (lineage : Lineage) (scope : ScopeId) (filled : w.arena.Filled node) :
    Ends Dangling (enter node lineage scope) w fun _ _ => True := by
  obtain ⟨k, held, parts⟩ := filled
  have declares (scope : ScopeId) {xs : List NodeId} {w' : Workspace Notes} (same : w'.arena = w.arena)
      (inside : ∀ x ∈ xs, x ∈ k.children) : Ends Dangling (xs.forM (declare scope)) w' fun _ w'' => w''.arena = w'.arena := by
    refine forM_ends fun x listed w'' same' => ?_
    obtain ⟨l, held⟩ := parts x (inside x listed)
    rw [← same'] at same ⊢
    exact declare_ends scope (by rwa [same])
  have closes {m : Resolving ScopeId} {w' : Workspace Notes} (ends : Ends Dangling m w' fun _ w'' => w''.arena = w'.arena) :
      Ends Dangling (m >>= fun inner => pure (Entry.withState inner)) w' fun _ _ => True :=
    ends.bind fun _ _ _ => .pure trivial
  refine .step rfl (.kind held (.step rfl ?_))
  split
  · refine .bind (declares scope rfl fun x listed => ?_) fun _ _ _ => .pure trivial
    exact List.mem_append_left _ listed
  · exact .bind (declares _ rfl fun x listed => listed) fun _ _ _ => .pure trivial
  · exact .pure trivial
  · exact closes (bind_ends ..)
  · exact closes (bind_ends ..)
  · exact closes (bind_ends ..)
  · exact .step rfl (closes (bind_ends ..))
  · exact closes (bind_ends ..)
  · rename_i name params body _
    have bound {m : Resolving ScopeId} {w' : Workspace Notes} (same : w'.arena = w.arena)
        (ends : Ends Dangling m w' fun _ w'' => w''.arena = w'.arena) :
        Ends Dangling (m >>= fun inner => do bindParams inner params; pure (Entry.withState inner)) w' fun _ _ => True := by
      refine ends.bind fun inner w'' same' => (bindParams_ends inner fun x listed => ?_).bind fun _ _ _ => .pure trivial
      rw [same', same]
      exact parts x (by simp [Kind.children, listed])
    split
    · exact bound rfl (bind_ends ..)
    · exact bound rfl (.of_ok rfl rfl)
  · exact .pure trivial

theorem leave_ends {node : NodeId} (lineage : Lineage) (scope : ScopeId) (filled : w.arena.Filled node) :
    Ends Dangling (leave node lineage scope) w fun _ _ => True := by
  obtain ⟨k, held, -⟩ := filled
  refine .kind held ?_
  split
  · refine .arena ?_
    split
    · exact .pure trivial
    · refine .step rfl ?_
      split
      · exact .of_ok rfl trivial
      · exact .of_error rfl (by rintro ⟨_, same⟩; cases same)
  · exact .pure trivial

theorem visitor_careful : visitor.Careful Dangling fun w x => w.arena.Filled x where
  before {_ lineage scope _} filled :=
    ⟨fun done _ filled => filled.congr (visitor_quiet.before done).2, (enter_ends lineage scope filled).error⟩
  after {_ lineage scope _} filled :=
    ⟨fun done _ filled => filled.congr (visitor_quiet.after done).2, (leave_ends lineage scope filled).error⟩

theorem resolveNames_ends {t : Tree} (stands : t.StandsIn w.arena) (once : t.ids.Nodup) :
    Ends Dangling (resolveNames t.id) w fun _ _ => True :=
  (visitor_quiet.walk_ends visitor_careful stands once fun _ inside => stands.arena_filled inside).mono
    fun _ _ _ => trivial

end Resolution

namespace Typing

open Pass

variable {env : Resolution} {a : Arena} {ids : List NodeId} {x : NodeId} {lineage : Lineage}

def Surrounded (a : Arena) (x : NodeId) : Prop :=
  ∃ k, a.kind? x = some k ∧ (∀ y ∈ k.children, ∃ l, a.kind? y = some l) ∧ ∀ y ∈ k.links, ∃ l, a.kind? y = some l

def Unfounded (env : Resolution) (a : Arena) (ids : List NodeId) (e : TypingError) : Prop :=
  Dangling e ∨ ∃ node name, e = .unknownType node name ∧
    (node ∉ ids ∨ ∃ i table, env.recorded[node]? = some i ∧ env.definition? a name i = some table)

theorem Unfounded.congr {b : Arena} {e : TypingError} (kinds : ∀ y, b.kind? y = a.kind? y)
    (unfounded : Unfounded env a ids e) : Unfounded env b ids e := by
  simpa only [Unfounded, Resolution.definition?, kinds] using unfounded

theorem founded {e : TypingError} (other : (∀ inner, e ≠ .tree inner) ∧ ∀ node name, e ≠ .unknownType node name) :
    ¬ Unfounded env a ids e := by
  rintro (⟨node, same⟩ | ⟨node, name, same, -⟩)
  · exact other.1 _ same
  · exact other.2 _ _ same

theorem Reason.founded {e : TypingError} (reason : Reason env a x lineage e) (inside : x ∈ ids) (near : Surrounded a x) :
    ¬ Unfounded env a ids e := by
  obtain ⟨k, held, parts, targets⟩ := near
  cases reason with
  | @missing y near gone =>
    have there : ∃ l, a.kind? y = some l := by
      obtain rfl | ⟨k', held', part | target⟩ := near
      · exact ⟨k, held⟩
      · cases held.symm.trans held'
        exact parts _ part
      · cases held.symm.trans held'
        exact targets _ target
    obtain ⟨l, there⟩ := there
    cases gone.symm.trans there
  | unexpected => rintro (⟨_, same⟩ | ⟨_, _, same, -⟩) <;> cases same
  | unknownType hidden =>
    rintro (⟨_, same⟩ | ⟨_, _, same, away | ⟨i, table, recorded, found⟩⟩) <;> cases same
    · exact away inside
    · rw [Resolution.scopeAt, ScopeMap.nearest?, List.findSome?_cons, recorded] at hidden
      exact absurd (found.symm.trans hidden) (by simp)
  | own other => exact Typing.founded ⟨other.1, other.2.1⟩

variable {w : Workspace Bool} {t : Tree}

structure Fits (a : Arena) (ids : List NodeId) (w : Workspace Bool) (x : NodeId) : Prop where
  kinds : ∀ y, w.arena.kind? y = a.kind? y
  inside : x ∈ ids
  near : Surrounded a x

theorem Fits.surrounded (fits : Fits a ids w x) : Surrounded w.arena x := by
  simpa only [Surrounded, fits.kinds] using fits.near

theorem retype_careful (env : Resolution) (a : Arena) (ids : List NodeId) :
    (Visitor.leaving (retype env)).Careful (Unfounded env a ids) (Fits a ids) where
  before _ := .pure fun _ fits => fits
  after {id lineage state w} fits := by
    refine ⟨fun done x fits => ?_, (?_ : Ends (Unfounded env a ids) (retype env id lineage ()) w fun _ _ => True).error⟩
    · obtain ⟨-, ty, -, rfl⟩ := retype_cases done
      exact ⟨fun y => (kind?_retyped ..).trans (fits.kinds y), fits.inside, fits.near⟩
    · refine .arena (.ofExcept (fun e failed unfounded => ?_) fun ty _ => ?_)
      · exact (infer_fails.failure e failed).founded fits.inside fits.surrounded (unfounded.congr fits.kinds)
      split
      · split
        · exact .of_ok rfl trivial
        · exact .pure trivial
      · exact .pure trivial

theorem requireComplete_careful (env : Resolution) (a : Arena) (ids : List NodeId) :
    (Visitor.leaving requireComplete).Careful (Unfounded env a ids) (Fits a ids) where
  before _ := .pure fun _ fits => fits
  after {id lineage state w} fits := by
    refine ⟨fun done x fits => ?_, (?_ : Ends (Unfounded env a ids) (requireComplete id lineage ()) w fun _ _ => True).error⟩
    · obtain ⟨-, rfl, -⟩ := requireComplete_cases lineage done
      exact fits
    · obtain ⟨k, held, -⟩ := fits.surrounded
      obtain ⟨n, found, rfl⟩ := Option.map_eq_some_iff.1 held
      refine .step (node_of_some found) ?_
      split
      · split
        · exact .pure trivial
        · exact .throw (founded (by simp))
      · exact .pure trivial
      · exact .throw (founded (by simp))

theorem settle_ends (stands : t.StandsIn a) (once : t.ids.Nodup) (fit : ∀ x ∈ t.ids, Fits a t.ids w x)
    (remaining passes : Nat) : Ends (Unfounded env a t.ids) (settle env t.id remaining passes) w fun _ w' => ∀ x ∈ t.ids, Fits a t.ids w' x := by
  induction remaining generalizing w passes with
  | zero => exact .throw (founded (by simp))
  | succ remaining ih =>
    have cleared : ∀ x ∈ t.ids, Fits a t.ids ⟨w.arena, false⟩ x := fun x inside =>
      ⟨(fit x inside).kinds, inside, (fit x inside).near⟩
    have standing : t.StandsIn (Workspace.mk w.arena false).arena :=
      stands.congr fun x _ => (fit _ t.id_mem_ids).kinds x
    have walked : Ends (Unfounded env a t.ids) (discard ((Visitor.leaving (retype env)).walk t.id ())) ⟨w.arena, false⟩ fun _ w' =>
        ∀ x ∈ t.ids, Fits a t.ids w' x :=
      ((retype_quiet env).walk_ends (retype_careful env a t.ids) standing once cleared).bind fun _ _ later =>
        .pure fun x inside => later x (cleared x inside)
    refine .step rfl (walked.bind fun _ w₁ fit => .step rfl ?_)
    split
    · exact ih fit _
    · exact .pure fit

theorem assignTypes_ends (stands : t.StandsIn w.arena) (once : t.ids.Nodup) (near : ∀ x ∈ t.ids, Surrounded w.arena x)
    (limit : Nat) : Ends (Unfounded env w.arena t.ids) (assignTypes env t.id limit) w fun _ _ => True := by
  refine (settle_ends stands once (fun x inside => ⟨fun _ => rfl, inside, near x inside⟩) _ 0).bind fun _ w₁ fit => ?_
  have standing : t.StandsIn w₁.arena := stands.congr fun x _ => (fit _ t.id_mem_ids).kinds x
  have walked : Ends (Unfounded env w.arena t.ids) (discard ((Visitor.leaving requireComplete).walk t.id ())) w₁ fun _ _ => True :=
    (requireComplete_quiet.walk_ends (requireComplete_careful env w.arena t.ids) standing once fit).bind fun _ _ _ => .pure trivial
  exact walked.bind fun _ _ _ => .pure trivial

end Typing

def CompileError.Missing : CompileError → Prop
  | .tree e => Dangling e
  | .scope e _ => Dangling e
  | .typing e _ => Dangling e
  | .rows e _ => Dangling e

structure Compiles {α : Type} (r : Except CompileError α) (post : α → Prop) : Prop where
  ok : ∀ {x}, r = .ok x → post x
  error : ∀ {e}, r = .error e → ¬ e.Missing

namespace Compiles

variable {α β ε ω : Type} {post : β → Prop}

theorem bind {r : Except CompileError α} {f : α → Except CompileError β} {mid : α → Prop}
    (first : Compiles r mid) (second : ∀ x, mid x → Compiles (f x) post) : Compiles (r >>= f) post := by
  cases r with
  | error e =>
    refine ⟨fun done => ?_, fun failed => ?_⟩
    · cases done
    · cases failed
      exact first.error rfl
  | ok x => exact second x (first.ok rfl)

theorem pure {y : β} (here : post y) : Compiles (pure y) post := by
  refine ⟨fun done => ?_, fun failed => ?_⟩
  · cases done
    exact here
  · cases failed

theorem mono {r : Except CompileError β} {mid : β → Prop} (first : Compiles r mid)
    (stronger : ∀ y, r = .ok y → post y) : Compiles r post :=
  ⟨fun done => stronger _ done, first.error⟩

theorem traced {r : Except CompileError β} (first : Compiles r post) : Compiles r fun y => r = .ok y ∧ post y :=
  ⟨fun done => ⟨done, first.ok done⟩, first.error⟩

theorem placed [OfTreeError ε] {m : Pass ε ω α} {a : Arena} {notes : ω} {place : ε → Arena → CompileError}
    {post : α → Workspace ω → Prop} (ends : Pass.Ends Dangling m ⟨a, notes⟩ post)
    (named : ∀ e b, (place e b).Missing → Dangling e) : Compiles (m.placed a notes place) fun r => post r.1 r.2 := by
  refine ⟨fun done => ends.ok (Pass.placed_eq_ok.1 done), fun {e} failed => ?_⟩
  obtain ⟨err, w, ran, rfl⟩ := Pass.placed_eq_error failed
  exact fun missing => ends.error ran (named err w.arena missing)

end Compiles

namespace Compilation

variable {c : Compilation} {program : Program}

def Early (c : Compilation) : Prop := c.arena.Unsplit ∧ ∃ t : Tree, c.Holds t

def Late (c : Compilation) : Prop := ∃ t : Tree, t.id = c.root ∧ t.Linked c.arena

def Whole (c : Compilation) : Prop := c.arena.Unsplit ∧ ∃ t : Tree, t.id = c.root ∧ t.Linked c.arena ∧ t.Layered c.arena

theorem Early.late (early : c.Early) : c.Late := by
  obtain ⟨-, t, held⟩ := early
  exact ⟨t, held.root.symm, held.grounded.linked held.stands held.once (by simp)⟩

theorem lower_compiles : Compiles (lower program) Early := by
  have judged := Lowering.lowerProgram_judged program
  have made : Compiles ((Lowering.lowerProgram program).placed .empty 0 fun e _ => .tree e) fun r => r.2.arena.Unsplit :=
    .placed ⟨fun done => ((judged _).ok done).1.2 .empty, fun failed => ((judged _).accepts.2 _ _ failed).not_dangling⟩
      fun _ _ missing => missing
  have done : Compiles (lower program) fun c => c.arena.Unsplit := made.bind fun _ unsplit => .pure unsplit
  refine ⟨fun lowered => ⟨done.ok lowered, ?_⟩, done.error⟩
  obtain ⟨t, -, held⟩ := lower_holds lowered
  exact ⟨t, held⟩

theorem resolve_unsplit {c' : Compilation} (unsplit : c.arena.Unsplit) (done : c.resolve = .ok c') : c'.arena.Unsplit := by
  obtain ⟨⟨root, w⟩, ran, rest⟩ := except_bind_eq_ok.1 done
  obtain ⟨⟨root', w'⟩, ran', last⟩ := except_bind_eq_ok.1 rest
  cases last
  have named := ((Resolution.visitor_calm.walk _ _).run unsplit (Pass.placed_eq_ok.1 ran)).1
  exact ((Alias.visitor_calm.walk _ _).run named (Pass.placed_eq_ok.1 ran')).1

theorem resolve_compiles (lowered : lower program = .ok c) (early : c.Early) : Compiles c.resolve Early := by
  obtain ⟨t, lowers, held⟩ := lower_holds lowered
  refine ⟨fun resolved => ⟨resolve_unsplit early.1 resolved, ?_⟩, fun {e} failed => ?_⟩
  · exact resolved_holds (except_bind_eq_ok.2 ⟨c, lowered, resolved⟩)
  have named : Compiles ((Resolution.resolveNames c.root).placed c.arena ⟨.initial, ∅⟩ scopeError) fun _ => True := by
    rw [held.root]
    exact .placed (Resolution.resolveNames_ends held.stands held.once) fun _ _ missing => missing
  obtain unnamed | ⟨⟨r, w⟩, ran, -⟩ := except_bind_eq_error failed
  · exact named.error unnamed
  · -- With its names bound, a program loses its renamings without fail.
    have outcome := Resolution.resolveNames_program lowers.isProgram held.stands held.once
    have whole := resolve_program lowers.isProgram held.stands held.once held.root
    rw [Pass.placed_eq_ok, held.root] at ran
    cases bound : t.resolveProgram with
    | none =>
      rw [bound] at outcome
      obtain ⟨_, _, unnamed⟩ := outcome
      cases ran.symm.trans unnamed
    | some t' =>
      rw [bound] at whole
      obtain ⟨_, resolved, -⟩ := whole
      cases failed.symm.trans resolved

theorem assignTypes_founded {t : Tree} (held : c.Holds t) (limit : Nat) : Pass.Ends (Typing.Unfounded c.resolution
    c.arena t.ids) (Typing.assignTypes c.resolution c.root limit) ⟨c.arena, false⟩ fun _ _ => True := by
  have linked := held.grounded.linked held.stands held.once (by simp)
  have near : ∀ x ∈ t.ids, Typing.Surrounded c.arena x := by
    intro x inside
    obtain ⟨k, there, filled⟩ := held.stands.arena_filled inside
    refine ⟨k, there, filled, fun y link => ?_⟩
    exact Arena.exists_kind?_of_lt (held.stands.lt_size y (linked.links inside there y link))
  rw [held.root]
  exact Typing.assignTypes_ends (w := ⟨c.arena, false⟩) held.stands held.once near limit

theorem assignTypes_compiles {limit : Nat} (early : c.Early) : Compiles (c.assignTypes limit) Early := by
  obtain ⟨unsplit, t, held⟩ := early
  have ends := assignTypes_founded held limit
  have typed : Compiles ((Typing.assignTypes c.resolution c.root limit).placed c.arena false typingError)
      fun _ => True :=
    .placed ⟨ends.ok, fun failed missing => ends.error failed (.inl missing)⟩ fun _ _ missing => missing
  have done : Compiles (c.assignTypes limit) fun _ => True := typed.bind fun _ _ => .pure trivial
  exact done.mono fun c' typed =>
    ⟨unsplit.of_kinds (assignTypes_kind? typed), t, assignTypes_holds held typed⟩

theorem recognizeRows_compiles (early : c.Early) : Compiles c.recognizeRows Whole := by
  obtain ⟨unsplit, t, held⟩ := early
  have grounded : t.Grounded t.ownTables ∅ := held.grounded.mono_tables (by simp)
  have ends : Pass.Ends Dangling (Rows.recognize t.id) ⟨c.arena, .empty⟩ fun _ w' =>
      w'.arena.Unsplit ∧ ∃ t' : Tree, t'.id = t.id ∧ t'.Linked w'.arena ∧ t'.Layered w'.arena := by
    have ends := Rows.recognize_ends (w := ⟨c.arena, .empty⟩) held.formed held.role held.stands held.once grounded
    refine ⟨fun ran => ⟨((Rows.recognize_calm _).run unsplit ran).1, ?_⟩, ends.error⟩
    obtain ⟨t', same, stands, once, grounded, tables, -, laid, -⟩ := ends.ok ran
    exact ⟨t', same, grounded.linked stands once tables, laid.layered stands⟩
  have recognized : Compiles ((Rows.recognize c.root).placed c.arena .empty rowsError)
      fun r => r.2.arena.Unsplit ∧ ∃ t' : Tree, t'.id = t.id ∧ t'.Linked r.2.arena ∧ t'.Layered r.2.arena := by
    rw [held.root]
    exact .placed ends fun _ _ missing => missing
  refine recognized.bind fun r live => .pure ?_
  obtain ⟨unsplit, t', same, rest⟩ := live
  exact ⟨unsplit, t', same.trans held.root.symm, rest⟩

theorem Whole.late (whole : c.Whole) : c.Late := by
  obtain ⟨-, t, root, linked, -⟩ := whole
  exact ⟨t, root, linked⟩

theorem splitColumns_compiles (whole : c.Whole) : Compiles c.splitColumns Late := by
  obtain ⟨-, t, root, linked, layered⟩ := whole
  have split : Compiles ((Storage.splitAll c.root).placed c.arena ⟨0, 0⟩ rowsError)
      fun r => ∃ t' : Tree, t'.id = t.id ∧ t'.Linked r.2.arena := by
    obtain ⟨b, total, columns, ran, ⟨t', top, linked, -, -⟩, -⟩ := Storage.splitAll_runs layered linked ⟨0, 0⟩
    have ends : Pass.Ends Dangling (Storage.splitAll t.id) ⟨c.arena, ⟨0, 0⟩⟩ fun _ w => ∃ t' : Tree, t'.id = t.id ∧ t'.Linked w.arena :=
      .of_ok ran ⟨t', top, linked⟩
    rw [← root]
    exact .placed ends fun _ _ missing => missing
  refine split.bind fun r live => .pure ?_
  obtain ⟨t', same, linked⟩ := live
  exact ⟨t', same.trans root, linked⟩

end Compilation

structure Compilation.Splits (program : Program) (limit : Nat) (c₂ c : Compilation) : Prop where
  whole : c₂.Whole
  before : ∃ c₀ c₁, (lower program >>= resolve) = .ok c₀ ∧ c₀.assignTypes limit = .ok c₁ ∧ c₁.recognizeRows = .ok c₂
  split : c₂.splitColumns = .ok c

/-- What is compiled is a tree, and unless it comes from the split, nothing in it is split. -/
theorem compile_compiles (program : Program) (options : Options) : Compiles (compile program options) fun c => c.Late ∧
    (c.arena.Unsplit ∨ ∃ c₂, Compilation.Splits program options.maxTypePasses c₂ c) := by
  have final {c : Compilation} (early : c.Early) : Compiles (pure c : Except CompileError Compilation) fun c =>
      c.Late ∧ (c.arena.Unsplit ∨ ∃ c₂, Compilation.Splits program options.maxTypePasses c₂ c) :=
    .pure ⟨early.late, .inl early.1⟩
  refine Compilation.lower_compiles.traced.bind fun c ⟨lowered, early⟩ => ?_
  cases options.lastStage <;> simp only [Stage.route, List.foldlM_cons, List.foldlM_nil]
  case lowered => exact final early
  all_goals refine (Compilation.resolve_compiles lowered early).traced.bind fun c₀ ⟨resolved, early⟩ => ?_
  case resolved => exact final early
  all_goals refine (Compilation.assignTypes_compiles early).traced.bind fun c₁ ⟨typed, early⟩ => ?_
  case typed => exact final early
  all_goals refine (Compilation.recognizeRows_compiles early).traced.bind fun c₂ ⟨recognized, whole⟩ => ?_
  case pipelines => exact .pure ⟨whole.late, .inl whole.1⟩
  case split =>
    refine (Compilation.splitColumns_compiles whole).traced.bind fun c₃ ⟨split, late⟩ => .pure ⟨late, .inr ⟨c₂, whole, ?_, split⟩⟩
    exact ⟨c₀, c₁, except_bind_eq_ok.2 ⟨c, lowered, resolved⟩, typed, recognized⟩

/-- The nodes that the root of a compilation leads to. -/
def Compilation.live (c : Compilation) : List NodeId := c.arena.descendants c.root

/-- What the root leads to is a tree inside the arena, and it points nowhere but at itself. -/
structure Compilation.WellFormed (c : Compilation) : Prop where
  inside : ∀ {x k}, x ∈ c.live → c.arena.kind? x = some k → ∀ y ∈ k.children ++ k.links, y < c.arena.size
  exists_kind : ∀ {x}, x ∈ c.live → ∃ k, c.arena.kind? x = some k
  once : c.live.Nodup
  -- No node is held twice, by one node or by two.
  slots : ∀ {x k}, x ∈ c.live → c.arena.kind? x = some k → k.children.Nodup
  owner : ∀ {x y k l z}, x ∈ c.live → y ∈ c.live → c.arena.kind? x = some k → c.arena.kind? y = some l →
    z ∈ k.children → z ∈ l.children → x = y
  acyclic : ∀ {x k}, x ∈ c.live → c.arena.kind? x = some k → ∀ y ∈ k.children, x ∉ c.arena.descendants y
  links : ∀ {x k}, x ∈ c.live → c.arena.kind? x = some k → ∀ y ∈ k.links, y ∈ c.live

namespace Tree

variable {a : Arena} {t s s' u : Tree}

theorem StandsIn.not_below (once : t.ids.Nodup) (part : u ∈ t.parts) : t.id ∉ u.ids := by
  obtain ⟨id, kind, parts⟩ := t
  exact fun inside => (List.nodup_cons.1 once).1 (mem_idsOf.2 ⟨u, part, inside⟩)

end Tree

theorem Compilation.Late.wellFormed {c : Compilation} (late : c.Late) : c.WellFormed := by
  obtain ⟨t, root, linked⟩ := late
  have live : c.live = t.ids := by
    rw [Compilation.live, ← root, linked.stands.descendants_eq linked.once]
  have found {x : NodeId} {k : Kind} (inside : x ∈ c.live) (held : c.arena.kind? x = some k) :
      ∃ s : Tree, s.id = x ∧ s.kind = k ∧ s.StandsIn c.arena ∧ s.ids.Sublist t.ids := by
    rw [live] at inside
    obtain ⟨s, rfl, stands⟩ := linked.stands.exists_at inside
    exact ⟨s, rfl, Option.some_injective _ (stands.kind.symm.trans held), stands,
      linked.stands.sublist_within stands inside⟩
  refine ⟨fun {x k} inside held y listed => ?_, fun {x} inside => ?_, live ▸ linked.once, fun {x k} inside held => ?_,
    fun {x y k l z} inside inside' held held' slot slot' => ?_, fun {x k} inside held y slot => ?_,
    fun {x k} inside held y link => ?_⟩
  · obtain slot | link := List.mem_append.1 listed
    · obtain ⟨s, rfl, rfl, stands, -⟩ := found inside held
      obtain ⟨u, part, rfl⟩ := stands.child_at held slot
      exact Arena.lt_size_of_kind? (stands.child part).kind
    · exact linked.stands.lt_size y (linked.links (live ▸ inside) held y link)
  · exact Arena.exists_kind?_of_lt (linked.stands.lt_size x (live ▸ inside))
  · obtain ⟨⟨_, _, parts⟩, rfl, rfl, stands, within⟩ := found inside held
    rw [stands.slots]
    exact nodup_map_id (List.nodup_cons.1 (within.nodup linked.once)).2
  · exact linked.stands.parent_unique linked.once (live ▸ inside) (live ▸ inside') held held' slot slot'
  · obtain ⟨s, rfl, rfl, stands, within⟩ := found inside held
    obtain ⟨u, part, rfl⟩ := stands.child_at held slot
    have once := within.nodup linked.once
    have onceBelow : u.ids.Nodup := by
      obtain ⟨_, _, parts⟩ := s
      exact nodup_of_mem (List.nodup_cons.1 once).2 part
    rw [(stands.child part).descendants_eq onceBelow]
    exact StandsIn.not_below once part
  · exact live ▸ linked.links (live ▸ inside) held y link

/-- `T { a: number, m(k: number) = T[].include((r: T) => r.a == k) }` -/
def rowsWithKey : Program :=
  ⟨[.definition "T" [.property "a" (.named "number" false) none,
    .method "m" [⟨"k", some (.named "number" false), none⟩]
      (.call none (.member none (.rows none (.identifier none "T")) "include")
        [.lambda none [⟨"r", some (.named "T" false), none⟩]
          (.binary none .eq (.member none (.identifier none "r") "a") (.identifier none "k"))])
      none] none]⟩

end DerivedTables
