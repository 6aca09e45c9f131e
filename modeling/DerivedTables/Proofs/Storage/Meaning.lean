import DerivedTables.Proofs.Storage.Reading
import Mathlib.Algebra.Order.BigOperators.Group.List
import Mathlib.Algebra.Order.Group.Nat

/-!
A split keeps what columns mean.
-/

namespace DerivedTables

attribute [local simp] Kind.entered Kind.isInert Kind.children

variable {N : Type}

namespace Arena

variable {a : Arena} {x v rest z : NodeId} {name : String}

theorem Free.value (held : a.kind? x = some (.binding name v rest)) (free : a.Free v z) : a.Free x z :=
  .part held (show [] ++ (v, [x]) :: [(rest, [])] ∈ Kind.runs x _ from List.mem_cons_self) free (by simp)

theorem Free.next (held : a.kind? x = some (.binding name v rest)) (free : a.Free rest z) (other : z ≠ x) : a.Free x z :=
  .part held (show [(v, [x])] ++ (rest, []) :: [] ∈ Kind.runs x _ from List.mem_cons_self) free (by simpa using other)

end Arena

namespace Storage

variable {a b : Arena} {t : Tree} {u : NodeId → Value N}

structure Ready (a b : Arena) (t : Tree) (u : NodeId → Value N) (q y : NodeId) (σ σ' : Bindings N) : Prop where
  agree : ∀ z, a.Free y z → σ[z]? = σ'[z]?
  plain : a.Plain σ
  plain' : b.Plain σ'
  pending : ∀ {c : Cut}, c.In a b t → LeftTo a c.derivation q → ∀ w ∈ c.writes.map Prod.snd, σ'[w]? = some (u w)

variable [Arithmetic N] {context : List (String × Value N)} {start : NodeId} {limit : Nat}

def Valued (a b : Arena) (t : Tree) (context : List (String × Value N)) (u : NodeId → Value N) (limit : Nat) : Prop :=
  ∀ {c : Cut}, c.In a b t → ∀ w ∈ c.writes.map Prod.snd, ∀ m, limit ≤ m → ∀ σ : Bindings N, b.Plain σ →
    (Setting.mk b context).scopedWithin m w σ = .ok (u w) σ

structure Carries (a b : Arena) (t : Tree) (context : List (String × Value N)) (u : NodeId → Value N) (limit : Nat)
    (start : NodeId) (n : Nat) : Prop where
  eval : ∀ {x : NodeId} {m : Nat} {σ σ' : Bindings N}, a.Reaches start x → Ready a b t u x x σ σ' → 3 * n + limit ≤ m →
    Follows (At σ σ') Eq ((Setting.mk a context).scopedWithin n x) ((Setting.mk b context).scopedWithin m x)
  call : ∀ {q y r : NodeId} {k : Kind} {m : Nat} {σ σ' : Bindings N} (args : List (Value N)), q ∈ t.ids →
    a.kind? q = some k → y ∈ k.children → Turns a b t q y r →
    (∀ c : Cut, c.In a b t → q = c.property → r = c.split) → a.Reaches start y → Ready a b t u q y σ σ' →
    3 * n + limit + 2 ≤ m → Follows (At σ σ') Eq ((Setting.mk a context).scopedCallWithin n y args)
      ((Setting.mk b context).scopedCallWithin m r args)
  callee : ∀ {x f : NodeId} {m : Nat} {σ σ' σ₁ : Bindings N} (i j : NodeId), a.Reaches start x → Ready a b t u x x σ σ' →
    3 * n + limit ≤ m → (Setting.mk a context).scopedCalleeWithin n i x σ = .ok f σ₁ →
    ∃ σ₁', (Setting.mk b context).scopedCalleeWithin m j x σ' = .ok f σ₁' ∧ a.Reaches start f ∧ Ready a b t u f f σ₁ σ₁'
  -- A let is entered by name, past its own node.
  named : ∀ {q v next f : NodeId} {name : String} {m : Nat} {σ σ' σ₁ : Bindings N} (i j : NodeId), q ∈ t.ids →
    a.kind? q = some (.binding name v next) → a.Reaches start v → Ready a b t u q v σ σ' → 3 * n + limit ≤ m →
    (Setting.mk a context).scopedCalleeWithin n i q σ = .ok f σ₁ →
    ∃ σ₁', (Setting.mk b context).scopedCalleeWithin m j q σ' = .ok f σ₁' ∧ a.Reaches start f ∧ Ready a b t u f f σ₁ σ₁'

namespace Separated

variable {c root : Cut} {q x y r w : NodeId} {m n : Nat} {k l : Kind} {σ σ' : Bindings N} (sep : Separated a b t)

include sep

omit [Arithmetic N] in
/-- Under a property nothing is ready before the split is entered; anywhere else a part is ready with its node. -/
theorem ready_part (live : q ∈ t.ids) (held : a.kind? q = some k) (child : y ∈ k.children)
    (slot : ∀ c : Cut, c.In a b t → q = c.property → y = c.split) (ready : Ready a b t u q y σ σ') :
    Ready a b t u y y σ σ' := by
  refine ⟨ready.agree, ready.plain, ready.plain', fun {c} cut left => ?_⟩
  refine ready.pending cut (cut.left_parent left (fun top => ?_) live held child)
  subst top
  have new := slot c cut (cut.only_slot live held child)
  exact absurd (new ▸ cut.beyond) (sep.not_new cut.top_mem)

omit [Arithmetic N] in
theorem ready_written (cut : c.In a b t) (written : w ∈ c.writes.map Prod.snd) (plain : a.Plain σ) (plain' : b.Plain σ') :
    Ready a b t u w w σ σ' := by
  have early := (cut.written_cases written).1
  have live := cut.written_live written
  exact ⟨fun z free => absurd (sep.staged.late_of_free live free) early, plain, plain',
    fun cut' left => absurd (cut'.left_reached left).2.2 early⟩

omit [Arithmetic N] in
theorem plain_written (cut : c.In a b t) (written : w ∈ c.writes.map Prod.snd) (plain : b.Plain σ) (v : Value N) :
    b.Plain (σ.insert w v) := by
  refine plain.insert v fun l held => ?_
  obtain ⟨k, there, refilled, -⟩ := sep.old_kind (cut.written_live written) held
  rw [refilled.isGlobal]
  exact cut.written_local written there

theorem writes_bound (stored : Valued a b t context u limit) (cut : c.In a b t) (enough : limit ≤ m)
    (ws : List (String × NodeId)) (subset : ∀ write ∈ ws, write ∈ c.writes) (plain : b.Plain σ) : ∃ σ',
    (ws.forM fun (_, write) => do Setting.bind write (← (Setting.mk b context).scopedWithin m write)) σ = .ok () σ' ∧
    b.Plain σ' ∧ ∀ w, (σ[w]? = some (u w) ∨ w ∈ ws.map Prod.snd) → σ'[w]? = some (u w) := by
  induction ws generalizing σ with
  | nil => exact ⟨σ, rfl, plain, fun w held => by simpa using held⟩
  | cons write ws ih =>
    rw [List.forall_mem_cons] at subset
    have written : write.2 ∈ c.writes.map Prod.snd := List.mem_map_of_mem subset.1
    have value := stored cut write.2 written m enough σ plain
    obtain ⟨σ', ran, plain', held⟩ := ih subset.2 (sep.plain_written cut written plain (u write.2))
    refine ⟨σ', ?_, plain', fun w there => held w ?_⟩
    · have first : (do Setting.bind write.2 (← (Setting.mk b context).scopedWithin m write.2)) σ =
          .ok () (σ.insert write.2 (u write.2)) := (bind_of_ok value).trans rfl
      exact (bind_of_ok first).trans ran
    · rw [Std.TreeMap.getElem?_insert]
      split
      · rename_i same
        obtain rfl : write.2 = w := by simpa using same
        exact .inl rfl
      · rename_i other
        refine there.imp_right fun listed => ?_
        rw [List.map_cons, List.mem_cons] at listed
        exact listed.resolve_left fun same => other (by simpa using same.symm)

omit [Arithmetic N] in
theorem ready_derivation (cut : c.In a b t) (plain : a.Plain σ) (plain' : b.Plain σ')
    (held : ∀ w ∈ c.writes.map Prod.snd, σ'[w]? = some (u w)) : Ready a b t u c.derivation.id c.derivation.id σ σ' := by
  refine ⟨fun z free => absurd free (sep.derivation_closed cut), plain, plain', fun cut' left => ?_⟩
  obtain rfl := cut.apart cut' c.derivation.id_mem_ids left.mem_ids
  exact held

section Step

variable (stored : Valued a b t context u limit) (carries : Carries a b t context u limit start n)

include stored carries

theorem stored_value (cut : c.In a b t) (written : w ∈ c.writes.map Prod.snd) (reached : a.Reaches start w)
    (plain : a.Plain σ) {v : Value N} {ρ : Bindings N}
    (done : (Setting.mk a context).scopedWithin n w σ = .ok v ρ) : ρ = σ ∧ v = u w := by
  have empty : b.Plain (∅ : Bindings N) := .empty
  obtain ⟨rfl, done'⟩ := (carries.eval reached (sep.ready_written cut written plain empty) le_rfl).at_elim done
  have value := stored cut w written (3 * n + limit) (by omega) ∅ empty
  cases done'.symm.trans value
  exact ⟨rfl, rfl⟩

theorem read_stored (cut : c.In a b t) (written : w ∈ c.writes.map Prod.snd) (reached : a.Reaches start w)
    (plain : a.Plain σ) {name : String} (held : b.kind? r = some (.reference w name)) (there : σ'[w]? = some (u w))
    (enough : n ≤ m) :
    Follows (At σ σ') Eq ((Setting.mk a context).scopedWithin n w) ((Setting.mk b context).scopedWithin m r) := by
  refine .at_intro fun v ρ done => ?_
  obtain ⟨rfl, rfl⟩ := sep.stored_value stored carries cut written reached plain done
  refine ⟨rfl, ?_⟩
  cases m with
  | zero =>
    obtain rfl := Nat.le_zero.1 enough
    rw [Setting.scopedWithin] at done
    cases done
  | succ m =>
    simp only [Setting.scopedWithin, Setting.kind_of_kind? (s := ⟨b, context⟩) held, pure_bind]
    refine (bind_of_ok (m := MonadState.get) rfl).trans ?_
    simp only [there]
    rfl

theorem eval_turned (live : q ∈ t.ids) (held : a.kind? q = some k) (child : y ∈ k.children)
    (turns : Turns a b t q y r) (slot : ∀ c : Cut, c.In a b t → q = c.property → r = c.split)
    (reached : a.Reaches start y) (ready : Ready a b t u q y σ σ') (enough : 3 * n + limit + 2 ≤ m) :
    Follows (At σ σ') Eq ((Setting.mk a context).scopedWithin n y) ((Setting.mk b context).scopedWithin m r) := by
  cases turns with
  | same =>
    exact carries.eval reached (sep.ready_part live held child slot ready)
      (by omega)
  | stored cut left written beyond there =>
    have written := List.mem_map_of_mem (f := Prod.snd) written
    exact sep.read_stored stored carries cut written reached ready.plain there (ready.pending cut left _ written) (by omega)
  | @split c cut here same =>
    subst same
    refine .at_intro fun v ρ done => ?_
    obtain ⟨m, rfl⟩ := Nat.exists_eq_add_of_le' (show 1 ≤ m by omega)
    obtain ⟨σ'', ran, plain'', bound⟩ := sep.writes_bound stored cut (show limit ≤ m by omega) c.writes
      (fun _ listed => listed) ready.plain'
    have bound (w : NodeId) (written : w ∈ c.writes.map Prod.snd) : σ''[w]? = some (u w) := bound w (.inr written)
    have follows : Follows (At σ σ'') Eq ((Setting.mk a context).scopedWithin n c.derivation.id)
        ((Setting.mk b context).scopedWithin m c.read) := by
      obtain ⟨-, same⟩ | ⟨-, -, shown, only, there⟩ := cut.reads
      · rw [same]
        exact carries.eval reached (sep.ready_derivation cut ready.plain plain'' bound) (by omega)
      · have written : c.derivation.id ∈ c.writes.map Prod.snd := by simp [only]
        exact sep.read_stored stored carries cut written reached ready.plain there (bound _ written) (by omega)
    obtain ⟨rfl, done'⟩ := follows.at_elim done
    refine ⟨rfl, ?_⟩
    simp only [Setting.scopedWithin, Setting.kind_of_kind? (s := ⟨b, context⟩) cut.halves, pure_bind]
    refine (bind_of_ok (m := MonadState.get) rfl).trans ?_
    refine (bind_of_ok ((bind_of_ok ran).trans done')).trans (bind_of_ok rfl)

omit stored in
theorem callee_stored (cut : c.In a b t) (written : w ∈ c.writes.map Prod.snd) (reached : a.Reaches start w)
    (plain : a.Plain σ) (plain' : b.Plain σ') {name : String} (held : b.kind? r = some (.reference w name))
    (enough : 3 * n + limit + 1 ≤ m) {f i j : NodeId} {σ₁ : Bindings N}
    (done : (Setting.mk a context).scopedCalleeWithin n i w σ = .ok f σ₁) :
    ∃ σ₁', (Setting.mk b context).scopedCalleeWithin m j r σ' = .ok f σ₁' ∧ a.Reaches start f ∧
      Ready a b t u f f σ₁ σ₁' := by
  obtain ⟨m, rfl⟩ := Nat.exists_eq_add_of_le' (show 1 ≤ m by omega)
  have enough : 3 * n + limit ≤ m := by omega
  simp only [Setting.scopedCalleeWithin, Setting.kind_of_kind? (s := ⟨b, context⟩) held, pure_bind]
  cases (Setting.mk b context).arena.isBinding w with
  | true => exact carries.callee i j reached (sep.ready_written cut written plain plain') enough done
  | false => exact carries.callee i j reached (sep.ready_written cut written plain .empty) enough done

theorem callee_turned (live : q ∈ t.ids) (held : a.kind? q = some k) (child : y ∈ k.children)
    (turns : Turns a b t q y r) (slot : ∀ c : Cut, c.In a b t → q = c.property → r = c.split)
    (reached : a.Reaches start y) (ready : Ready a b t u q y σ σ') (enough : 3 * n + limit + 2 ≤ m) {f i j : NodeId} {σ₁ : Bindings N}
    (done : (Setting.mk a context).scopedCalleeWithin n i y σ = .ok f σ₁) :
    ∃ σ₁', (Setting.mk b context).scopedCalleeWithin m j r σ' = .ok f σ₁' ∧ a.Reaches start f ∧
      Ready a b t u f f σ₁ σ₁' := by
  cases turns with
  | same =>
    exact carries.callee i j reached (sep.ready_part live held child slot ready)
      (by omega) done
  | stored cut left written beyond there =>
    exact sep.callee_stored carries cut (List.mem_map_of_mem written) reached ready.plain ready.plain' there
      (by omega) done
  | @split c cut here same =>
    subst same
    obtain ⟨m, rfl⟩ := Nat.exists_eq_add_of_le' (show 1 ≤ m by omega)
    obtain ⟨σ'', ran, plain'', bound⟩ := sep.writes_bound stored cut (show limit ≤ m by omega) c.writes
      (fun _ listed => listed) ready.plain'
    have ready' := sep.ready_derivation cut ready.plain plain'' fun w written => bound w (.inr written)
    simp only [Setting.scopedCalleeWithin, Setting.kind_of_kind? (s := ⟨b, context⟩) cut.halves, pure_bind]
    rw [bind_of_ok ran]
    obtain ⟨-, same⟩ | ⟨-, -, shown, only, there⟩ := cut.reads
    · rw [same]
      exact carries.callee i j reached ready' (by omega) done
    · exact sep.callee_stored carries cut (by simp [only]) reached ready.plain plain'' there (by omega) done

end Step

omit [Arithmetic N] in
theorem ready_target {target : NodeId} {name : String} (ready : Ready a b t u x x σ σ') (live : x ∈ t.ids)
    (held : a.kind? x = some (.reference target name)) : σ[target]? = σ'[target]? := by
  have named := sep.staged.links live held target (List.mem_singleton.2 rfl)
  obtain ⟨k, there⟩ := Arena.exists_kind?_of_lt (sep.lt_size named)
  cases global : k.isGlobal with
  | true =>
    obtain ⟨l, there', refilled⟩ := sep.refilled named there
    rw [ready.plain target k there global, ready.plain' target l there' (refilled.isGlobal.trans global)]
  | false =>
    refine ready.agree target (.read held fun l there' => ?_)
    cases there.symm.trans there'
    exact global

omit [Arithmetic N] in
theorem turns_name {source property property' : NodeId} {field : String} (live : x ∈ t.ids)
    (held : a.kind? x = some (.access source property)) (there : a.kind? property = some (.identifier field))
    (turns : Turns a b t x property property') : b.kind? property' = some (.identifier field) := by
  have child : property ∈ (Kind.access source property).children := by simp
  cases turns with
  | same =>
    obtain ⟨l, there', filled, -, rfl⟩ := sep.refilled (sep.staged.child_mem live held child) there
    exact there'
  | stored cut left written =>
    obtain ⟨-, top | ⟨s, part, -, stands, listed, same, storable⟩⟩ := cut.written written
    · have above := cut.only_slot live held (top ▸ child)
      cases held.symm.trans (above ▸ cut.slot)
    · have there' := (stands.child listed).kind
      rw [same, there] at there'
      have worth := storable.worth
      rw [← Option.some_injective _ there'] at worth
      cases worth
  | split cut above => cases held.symm.trans (above ▸ cut.slot)

omit [Arithmetic N] sep in
theorem slot_of_layer (held : a.kind? q = some k) (layer : k.layer ≠ .property) (c : Cut) (cut : c.In a b t)
    (here : q = c.property) : r = c.split := by
  subst here
  cases held.symm.trans cut.slot
  exact absurd rfl layer

omit [Arithmetic N] sep in
theorem ready_value (ready : Ready a b t u x x σ σ') (reads : ∀ {z}, a.Free y z → a.Free x z) :
    Ready a b t u x y σ σ' :=
  ⟨fun z free => ready.agree z (reads free), ready.plain, ready.plain', ready.pending⟩

omit [Arithmetic N] in
theorem ready_next {name : String} {v next : NodeId} (ready : Ready a b t u x x σ σ') (live : x ∈ t.ids)
    (held : a.kind? x = some (.binding name v next)) (value : Value N) :
    Ready a b t u x next (σ.insert x value) (σ'.insert x value) := by
  refine ⟨fun z free => ?_, ready.plain.insert value fun l there => ?_, ready.plain'.insert value fun l there => ?_,
    fun {c} cut left w written => ?_⟩
  · rw [Std.TreeMap.getElem?_insert, Std.TreeMap.getElem?_insert]
    split
    · rfl
    · rename_i other
      exact ready.agree z (.next held free fun same => other (by simpa using same.symm))
  · cases held.symm.trans there
    rfl
  · obtain ⟨k, there', refilled, -⟩ := sep.old_kind live there
    cases held.symm.trans there'
    exact refilled.isGlobal
  · rw [Std.TreeMap.getElem?_insert, if_neg]
    · exact ready.pending cut left w written
    · intro same
      obtain rfl : x = w := by simpa using same
      exact (cut.written_cases written).1 (cut.left_reached left).2.2

omit [Arithmetic N] in
theorem ready_body {name : Option String} {params : List NodeId} {body : NodeId} (ready : Ready a b t u x x σ σ')
    (live : x ∈ t.ids) (held : a.kind? x = some (.function name params body)) {args : List (Value N)}
    (count : params.length = args.length) :
    Ready a b t u x body (Setting.bound params args σ) (Setting.bound params args σ') := by
  refine ⟨fun z free => bound_agree count fun unbound => ready.agree z (.body held free unbound),
    ready.plain.bound fun p param l there => ?_, ready.plain'.bound fun p param l there => ?_,
    fun {c} cut left w written => ?_⟩
  · obtain ⟨shown, declared, leaf⟩ := sep.staged.params live held p param
    cases there.symm.trans leaf
    rfl
  · obtain ⟨shown, declared, leaf⟩ := sep.staged.params live held p param
    obtain ⟨k, there', refilled, -⟩ :=
      sep.old_kind (sep.staged.child_mem live held (List.mem_append_left _ param)) there
    cases leaf.symm.trans there'
    exact refilled.isGlobal
  · rw [Setting.bound_of_not_mem, ready.pending cut left w written]
    intro param
    obtain ⟨shown, declared, leaf⟩ := sep.staged.params live held w param
    exact cut.not_written_of_param leaf written

section Node

variable (cut : root.In a b t) (stored : Valued a b t context u limit)
  (carries : Carries a b t context u limit root.property n)

include cut stored carries

theorem item_follows {target value value' : NodeId} {name : String} (way : a.Reaches root.property x)
    (held : a.kind? x = some (.reference target name)) (self : target ∈ a.code target) (there : a.kind? target = some k)
    (part : value ∈ k.entered) (turns : Turns a b t target value value')
    (slot : ∀ c : Cut, c.In a b t → target = c.property → value' = c.split) (enough : 3 * n + limit + 2 ≤ m) :
    Follows (At σ σ') Eq
      (Setting.restoring do
        set (∅ : Bindings N)
        (Setting.mk a context).scopedWithin n value)
      (Setting.restoring do
        set (∅ : Bindings N)
        (Setting.mk b context).scopedWithin m value') := by
  have way' : a.Reaches root.property target := way.tail (.of_name held self)
  refine .restoring fun v ρ done => ?_
  have done : (Setting.mk a context).scopedWithin n value ∅ = .ok v ρ := done
  have ready : Ready a b t u target value (∅ : Bindings N) ∅ :=
    ⟨fun _ _ => rfl, .empty, .empty, fun cut' left => absurd left (sep.named_not_left cut way held self cut')⟩
  obtain ⟨rfl, done'⟩ := (sep.eval_turned stored carries (sep.staged.reaches_mem cut.live way') there
    (Kind.mem_children_of_entered part) turns slot (way'.tail (.of_part there part)) ready enough).at_elim done
  exact ⟨∅, done'⟩

theorem eval_succ (way : a.Reaches root.property x) (ready : Ready a b t u x x σ σ') (enough : 3 * (n + 1) + limit ≤ m)
    : Follows (At σ σ') Eq ((Setting.mk a context).scopedWithin (n + 1) x)
    ((Setting.mk b context).scopedWithin m x) := by
  obtain ⟨m, rfl⟩ := Nat.exists_eq_add_of_le' (show 1 ≤ m by omega)
  have enough : 3 * n + limit + 2 ≤ m := by omega
  have live := sep.staged.reaches_mem cut.live way
  obtain ⟨k, held⟩ := Arena.exists_kind?_of_lt (sep.lt_size live)
  obtain ⟨l, held', refilled⟩ := sep.refilled live held
  have alike := sep.resembles live held refilled
  -- A part in its slot, with bindings that are ready for it.
  have part {p r : NodeId} {τ τ' : Bindings N} (entered : p ∈ k.entered) (turns : Turns a b t x p r)
      (slot : ∀ c : Cut, c.In a b t → x = c.property → r = c.split) (ready : Ready a b t u x p τ τ') :
      Follows (At τ τ') Eq ((Setting.mk a context).scopedWithin n p) ((Setting.mk b context).scopedWithin m r) :=
    sep.eval_turned stored carries live held (Kind.mem_children_of_entered entered) turns slot
      (way.tail (.of_part held entered)) ready enough
  by_cases flat : k.isFlat = true ∧ l.isFlat = true
  · rw [Setting.scopedWithin_flat (s := ⟨a, context⟩) held flat.1, Setting.scopedWithin_flat (s := ⟨b, context⟩) held' flat.2]
    refine .flatly alike flat.1 rfl (Faults.any_near x x) (fun _ => Faults.any_near _ _) (fun entered entered' turns => ?_) ?_
      fun _ => .inl fun _ _ => trivial
    · refine part entered turns (fun c cut' here => ?_) (ready_value ready fun free => .of_entered held ?_ entered free)
      · subst here
        cases held'.symm.trans cut'.held
        simpa using entered'
      · cases k <;> first | rfl | cases flat.1
    · rintro v p v' p' rfl - property
      refine Follows.member fun field there => ?_
      exact sep.turns_name live held there property
  simp only [Setting.scopedWithin, Setting.kind_of_kind? (s := ⟨a, context⟩) held,
    Setting.kind_of_kind? (s := ⟨b, context⟩) held', pure_bind]
  cases alike with
  | param => exact absurd (Arena.role?_of_kind? held) (sep.reaches_solid cut way)
  | function => exact Follows.throw
  | inert _ inert => cases k <;> first | exact Follows.throw | cases inert
  | handed _ _ idle => exact idle.elim
  | split => exact absurd rfl (sep.staged.layered.unsplit live held)
  | @binding _ _ v v' next next' _ value rest =>
    apply (part (by simp) value (slot_of_layer held (by simp [Kind.layer]))
      (ready_value ready fun free => .value held free)).bind
    rintro w _ rfl
    refine Follows.restoring fun v ρ done => ?_
    have done : (Setting.mk a context).scopedWithin n next (σ.insert x w) = .ok v ρ := done
    obtain ⟨-, done'⟩ := (part (by simp) rest
      (slot_of_layer held (by simp [Kind.layer])) (sep.ready_next ready live held w)).at_elim done
    exact ⟨_, done'⟩
  | @reference _ _ target _ _ =>
    cases refilled.reference
    apply Couples.get
    rintro σ σ' ⟨rfl, rfl⟩
    rw [← sep.ready_target ready live held]
    cases found : σ[target]? with
    | some value => exact .pure rfl
    | none =>
      have named := sep.staged.links live held target (List.mem_singleton.2 rfl)
      obtain ⟨kt, there⟩ := Arena.exists_kind?_of_lt (sep.lt_size named)
      obtain ⟨lt, there', refilled⟩ := sep.refilled named there
      have alike := sep.resembles named there refilled
      dsimp only
      rw [Setting.kind_of_kind? (s := ⟨a, context⟩) there, Setting.kind_of_kind? (s := ⟨b, context⟩) there']
      simp only [pure_bind]
      cases alike with
      | column column => exact .columnValue rfl (Faults.any_near x x) trivial column
      | derived _ _ value =>
        refine sep.item_follows cut stored carries way held (by simp [Arena.code, there]) there
          (by simp) value (fun c cut' here => ?_) enough
        subst here
        cases there'.symm.trans cut'.held
        rfl
      | assignment _ _ value =>
        exact sep.item_follows cut stored carries way held (by simp [Arena.code, there]) there
          (by simp) value (slot_of_layer there (by simp [Kind.layer])) enough
      | inert _ inert => cases kt <;> first | exact Follows.throw | cases inert
      | handed _ _ idle => exact idle.elim
      | _ => exact Follows.throw
  | @invoke f f' args args' callee given =>
    have ready' {p : NodeId} (entered : p ∈ f :: args) : Ready a b t u x p σ σ' :=
      ready_value ready fun free => .of_entered held rfl entered free
    have each : List.Forall₂ (fun p r => Follows (At σ σ') Eq ((Setting.mk a context).scopedWithin n p)
        ((Setting.mk b context).scopedWithin m r)) args args' :=
      ((List.forall₂_and_left ..).2 ⟨fun _ listed => listed, given⟩).imp fun p r item =>
        part (.tail _ item.1) item.2 (slot_of_layer held (by simp [Kind.layer])) (ready' (.tail _ item.1))
    apply (Couples.mapM each).bind
    rintro vs _ rfl
    exact carries.call vs live held (by simp) callee (slot_of_layer held (by simp [Kind.layer]))
      (way.tail (.of_part held (by simp))) (ready' (by simp)) enough
  | _ => exact absurd ⟨rfl, rfl⟩ flat

theorem call_follows {f g : NodeId} (args : List (Value N)) (enough : 3 * n + limit + 2 ≤ m)
    (leads : ∀ h σ₁, (Setting.mk a context).scopedCalleeWithin n f f σ = .ok h σ₁ →
      ∃ σ₁', (Setting.mk b context).scopedCalleeWithin m g g σ' = .ok h σ₁' ∧ a.Reaches root.property h ∧
        Ready a b t u h h σ₁ σ₁') : Follows (At σ σ') Eq ((Setting.mk a context).scopedCallWithin (n + 1) f args)
      ((Setting.mk b context).scopedCallWithin (m + 1) g args) := by
  simp only [Setting.scopedCallWithin]
  refine .restoring fun v ρ done => ?_
  obtain ⟨h, σ₁, ran, done⟩ := bind_eq_ok.1 done
  obtain ⟨σ₁', ran', way, ready⟩ := leads h σ₁ ran
  rw [bind_of_ok ran']
  have live := sep.staged.reaches_mem cut.live way
  obtain ⟨k, held⟩ := Arena.exists_kind?_of_lt (sep.lt_size live)
  obtain ⟨l, held', refilled⟩ := sep.refilled live held
  have alike := sep.resembles live held refilled
  rw [Setting.kind_of_kind? (s := ⟨a, context⟩) held, pure_bind] at done
  rw [Setting.kind_of_kind? (s := ⟨b, context⟩) held', pure_bind]
  cases alike with
  | @function _ _ params _ body body' same turns =>
    obtain rfl : params = _ := List.forall₂_eq_eq_eq ▸ same
    by_cases count : params.length = args.length
    · simp only [count, ne_eq, not_true_eq_false, if_false] at done ⊢
      rw [bind_of_ok (Setting.bindAll params args σ₁)] at done
      rw [bind_of_ok (Setting.bindAll params args σ₁')]
      obtain ⟨-, done'⟩ := (sep.eval_turned stored carries live held (by simp) turns
        (slot_of_layer held (by simp [Kind.layer])) (way.tail (.of_part held (List.mem_singleton.2 rfl)))
        (sep.ready_body ready live held count) enough).at_elim done
      exact ⟨_, done'⟩
    · simp only [count, ne_eq, not_false_eq_true, if_true] at done
      cases done
  | inert _ inert => cases k <;> first | cases done | cases inert
  | handed _ _ idle => exact idle.elim
  | _ => cases done

theorem callee_succ {f i j : NodeId} {σ₁ : Bindings N} (way : a.Reaches root.property x)
    (ready : Ready a b t u x x σ σ') (enough : 3 * (n + 1) + limit ≤ m)
    (done : (Setting.mk a context).scopedCalleeWithin (n + 1) i x σ = .ok f σ₁) :
    ∃ σ₁', (Setting.mk b context).scopedCalleeWithin m j x σ' = .ok f σ₁' ∧ a.Reaches root.property f ∧
      Ready a b t u f f σ₁ σ₁' := by
  obtain ⟨m, rfl⟩ := Nat.exists_eq_add_of_le' (show 1 ≤ m by omega)
  have enough : 3 * n + limit + 2 ≤ m := by omega
  have live := sep.staged.reaches_mem cut.live way
  obtain ⟨k, held⟩ := Arena.exists_kind?_of_lt (sep.lt_size live)
  obtain ⟨l, held', refilled⟩ := sep.refilled live held
  have alike := sep.resembles live held refilled
  simp only [Setting.scopedCalleeWithin, Setting.kind_of_kind? (s := ⟨a, context⟩) held, pure_bind] at done
  simp only [Setting.scopedCalleeWithin, Setting.kind_of_kind? (s := ⟨b, context⟩) held', pure_bind]
  have part {p r : NodeId} (entered : p ∈ k.entered) (turns : Turns a b t x p r)
      (slot : ∀ c : Cut, c.In a b t → x = c.property → r = c.split) (ready : Ready a b t u x p σ σ')
      (done : (Setting.mk a context).scopedCalleeWithin n i p σ = .ok f σ₁) :=
    sep.callee_turned (j := j) stored carries live held (Kind.mem_children_of_entered entered) turns slot
      (way.tail (.of_part held entered)) ready enough done
  cases alike with
  | function =>
    cases done
    exact ⟨σ', rfl, way, ready⟩
  | derived _ _ value =>
    refine part (by simp) value (fun c cut' here => ?_)
      (ready_value ready fun free => .of_entered held rfl (by simp) free) done
    subst here
    cases held'.symm.trans cut'.held
    rfl
  | assignment _ _ value =>
    exact part (by simp) value (slot_of_layer held (by simp [Kind.layer]))
      (ready_value ready fun free => .of_entered held rfl (by simp) free) done
  | binding _ _ _ value =>
    exact part (by simp) value (slot_of_layer held (by simp [Kind.layer]))
      (ready_value ready fun free => .value held free) done
  | @reference _ _ target _ _ =>
    cases refilled.reference
    have named := sep.staged.links live held target (List.mem_singleton.2 rfl)
    have done := (Setting.scopedCallee_named (s := ⟨a, context⟩) target i σ).symm.trans done
    suffices result : ∃ σ₁', (Setting.mk b context).scopedCalleeWithin m j target (if b.isBinding target then σ' else ∅) =
        .ok f σ₁' ∧ a.Reaches root.property f ∧ Ready a b t u f f σ₁ σ₁' by
      obtain ⟨σ₁', ran, rest⟩ := result
      exact ⟨σ₁', (Setting.scopedCallee_named (s := ⟨b, context⟩) target j σ').trans ran, rest⟩
    have lets : b.isBinding target = a.isBinding target := by
      obtain ⟨kt, there⟩ := Arena.exists_kind?_of_lt (sep.lt_size named)
      obtain ⟨lt, there', filled, -, rfl⟩ := sep.refilled named there
      rw [Arena.isBinding_eq there, Arena.isBinding_eq there', Kind.isLet_withChildren]
    obtain ⟨shown, v, next, there, code⟩ | ⟨other, code | code⟩ := a.code_cases target
    · have isLet : a.isBinding target = true := by simp [Arena.isBinding, there]
      simp only [lets, isLet, if_true] at done ⊢
      have outer := sep.staged.reaches_unmaintained cut.live cut.property_free way
      have ready : Ready a b t u target v σ σ' :=
        ⟨fun z free => ready.agree z (.named held there free), ready.plain, ready.plain',
          fun cut' left => ready.pending cut' (sep.left_of_named cut' left live outer held there)⟩
      exact carries.named i j named there (way.tail (.of_name held (code ▸ List.mem_singleton.2 rfl))) ready (by omega) done
    · obtain ⟨fault, -, failed⟩ := Setting.callee_stuck (s := ⟨a, context⟩) code i σ
        (if a.isBinding target then σ else ∅)
      cases failed.symm.trans done
    · have self : target ∈ a.code target := code ▸ List.mem_singleton.2 rfl
      simp only [lets, other, Bool.false_eq_true, if_false] at done ⊢
      have ready : Ready a b t u target target (∅ : Bindings N) ∅ :=
        ⟨fun _ _ => rfl, .empty, .empty, fun cut' left => absurd left (sep.named_not_left cut way held self cut')⟩
      exact carries.callee i j (way.tail (.of_name held self)) ready (by omega) done
  | split => exact absurd rfl (sep.staged.layered.unsplit live held)
  | inert _ inert =>
    cases k with
    | root | definition | rows | filter | pipeline | intent | reduce | dataset => cases done
    | _ => cases inert
  | handed _ _ idle => exact idle.elim
  | _ => cases done

omit carries in
/-- Evaluation after the split goes along with evaluation before, however deep. -/
theorem goes_along : Carries a b t context u limit root.property n := by
  induction n with
  | zero =>
    constructor
    · intros
      simp only [Setting.scopedWithin]
      exact .throw
    · intros
      simp only [Setting.scopedCallWithin]
      exact .throw
    · intro x f m σ σ' σ₁ i j _ _ _ done
      rw [Setting.scopedCalleeWithin] at done
      cases done
    · intro q v next f name m σ σ' σ₁ i j _ _ _ _ _ done
      rw [Setting.scopedCalleeWithin] at done
      cases done
  | succ n ih =>
    refine ⟨fun way ready enough => sep.eval_succ cut stored ih way ready enough,
      fun {q y r k m σ σ'} args live held child turns slot reached ready enough => ?_,
      fun i j way ready enough done => sep.callee_succ cut stored ih way ready enough done,
      fun {q v next f name m σ σ' σ₁} i j live held reached ready enough done => ?_⟩
    · obtain ⟨m, rfl⟩ := Nat.exists_eq_add_of_le' (show 1 ≤ m by omega)
      exact sep.call_follows cut stored ih args (by omega) fun h σ₁ done =>
        sep.callee_turned stored ih live held child turns slot reached ready (by omega) done
    · obtain ⟨m, rfl⟩ := Nat.exists_eq_add_of_le' (show 1 ≤ m by omega)
      obtain ⟨l, held', refilled⟩ := sep.refilled live held
      have alike := sep.resembles live held refilled
      simp only [Setting.scopedCalleeWithin, Setting.kind_of_kind? (s := ⟨a, context⟩) held, pure_bind] at done
      cases alike with
      | binding _ _ _ value =>
        simp only [Setting.scopedCalleeWithin, Setting.kind_of_kind? (s := ⟨b, context⟩) held', pure_bind]
        exact sep.callee_turned stored ih live held (by simp) value
          (slot_of_layer held (by simp [Kind.layer])) reached ready (by omega) done
      | inert _ inert => cases inert

end Node

theorem written_value (cut : c.In a b t) (written : w ∈ c.writes.map Prod.snd) {v : Value N}
    (value : (Setting.mk b context).Evaluates ∅ w v) :
    ∃ depth, ∀ m, depth ≤ m → ∀ σ : Bindings N, b.Plain σ → (Setting.mk b context).scopedWithin m w σ = .ok v σ := by
  obtain ⟨depth, ρ, done⟩ := value
  have reached : b.Reaches c.property w := .tail (.single (.of_part cut.held
    (by simp))) (.of_part cut.halves (List.mem_append_left _ written))
  have live := cut.written_live written
  refine ⟨depth, fun m enough σ plain => ?_⟩
  have sees : Sees b (b.Free w) (fun _ => True) (∅ : Bindings N) σ :=
    ⟨fun y free => absurd (sep.reads_of_free free (.old live) (sep.written_free cut written))
      (sep.written_closed cut written), .empty, plain, trivial⟩
  have agrees : (Setting.mk b context).Agrees (b.Reaches c.property) m := Setting.agrees (sep.sound_after cut)
  have stable : b.Stable w fun _ : Bindings N => True := fun _ _ _ _ _ => trivial
  obtain ⟨_, σ', ran, rfl, rfl, -⟩ := (agrees.eval reached stable σ).run ⟨rfl, sees⟩ (Setting.evalWithin_mono enough done)
  exact ran

theorem exists_valued (values : ∀ {c : Cut}, c.In a b t → ∀ w ∈ c.writes.map Prod.snd,
    ∃ v, (Setting.mk b context).Evaluates ∅ w v) :
    ∃ (u : NodeId → Value N) (limit : Nat), Valued a b t context u limit := by
  classical
  have each (w : NodeId) : ∃ (v : Value N) (depth : Nat), ∀ {c : Cut}, c.In a b t → w ∈ c.writes.map Prod.snd →
      ∀ m, depth ≤ m → ∀ σ : Bindings N, b.Plain σ → (Setting.mk b context).scopedWithin m w σ = .ok v σ := by
    by_cases written : ∃ c : Cut, c.In a b t ∧ w ∈ c.writes.map Prod.snd
    · obtain ⟨c, cut, written⟩ := written
      obtain ⟨v, value⟩ := values cut w written
      obtain ⟨depth, settled⟩ := sep.written_value cut written value
      exact ⟨v, depth, fun _ _ => settled⟩
    · exact ⟨.null, 0, fun {c} cut here => absurd ⟨c, cut, here⟩ written⟩
  choose u depth settled using each
  refine ⟨u, (t.ids.map depth).sum, fun {c} cut w written m enough => settled w cut written m (le_trans ?_ enough)⟩
  have live := cut.written_live written
  exact List.le_sum_of_mem (List.mem_map_of_mem live)

omit [Arithmetic N] sep in
theorem ready_fresh (cut : root.In a b t) : Ready a b t u root.property root.property (∅ : Bindings N) ∅ :=
  ⟨fun _ _ => rfl, .empty, .empty, fun cut' left => absurd left.mem_ids (cut'.property_outside cut)⟩

theorem evaluates (cut : root.In a b t) (stored : Valued a b t context u limit) {v : Value N}
    (value : (Setting.mk a context).Evaluates ∅ root.property v) :
    (Setting.mk b context).Evaluates ∅ root.property v := by
  obtain ⟨depth, ρ, done⟩ := (Setting.evaluates_iff (s := ⟨a, context⟩) (sep.sound_before cut) .refl).1 value
  obtain ⟨-, done'⟩ := ((sep.goes_along cut stored).eval .refl (ready_fresh cut) le_rfl).at_elim done
  exact (Setting.evaluates_iff (s := ⟨b, context⟩) (sep.sound_after cut) .refl).2 ⟨_, ∅, done'⟩

theorem calls (cut : root.In a b t) (stored : Valued a b t context u limit) {args : List (Value N)} {v : Value N}
    (value : (Setting.mk a context).Calls root.property args v) : (Setting.mk b context).Calls root.property args v := by
  obtain ⟨depth, ρ, done⟩ := (Setting.calls_iff (s := ⟨a, context⟩) (sep.sound_before cut) .refl).1 value
  cases depth with
  | zero =>
    rw [Setting.scopedCallWithin] at done
    cases done
  | succ depth =>
    have along : Carries a b t context u limit root.property depth := sep.goes_along cut stored
    obtain ⟨-, done'⟩ := (sep.call_follows cut stored along args le_rfl fun h σ₁ ran =>
      along.callee _ root.property .refl (ready_fresh cut) (by omega) ran).at_elim done
    exact (Setting.calls_iff (s := ⟨b, context⟩) (sep.sound_after cut) .refl).2 ⟨_, ∅, done'⟩

end Separated

end Storage

end DerivedTables
