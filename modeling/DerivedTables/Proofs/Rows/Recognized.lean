import DerivedTables.Proofs.Rows.Inward
import DerivedTables.Proofs.Rows.Stopping
import DerivedTables.Proofs.Scope.Grounded

/-!
Recognizing what is done with rows leaves a tree, and the tree is grounded as before.
-/

namespace DerivedTables

open Tree

variable {tables known known' : Set NodeId} {a b c d : Arena} {t t' : Tree} {ts ts' : List Tree}

namespace Rows

theorem Walked.becomes (walked : Walked a ts ts' b) : ∀ p ∈ ts.zip ts', p.1.Becomes p.2 := by
  induction walked with
  | nil => simp
  | cons below _ _ _ _ left _ ihBelow ihRest =>
    rw [List.zip_cons_cons, List.forall_mem_cons]
    exact ⟨.node below.length_eq.symm ihBelow left.turned, ihRest⟩

theorem Walked.id_of_kept (walked : Walked a [t] [t'] b) (kept : t.kind.isReplaced = false) : t'.id = t.id :=
  (walked.becomes (t, t') (List.mem_singleton.2 rfl)).id_of_kept kept

end Rows

theorem Tree.Grounded.copy {redirects : Redirects} (grounded : t.Grounded tables known) (stands : t.StandsIn a) (copied
    : t.Copy a d redirects t') (maps : ∀ x ∈ known, x ∉ t.ids ∧ ((redirects[x]?).map Redirect.target).getD x ∈ known') :
    t'.Grounded tables known' := by
  obtain ⟨f, copied, rfl⟩ := copied
  refine grounded.renamed copied.rendered stands (fun _ inside => inside) fun x listed => ?_
  obtain ⟨apart, there⟩ := maps x listed
  cases found : redirects[x]? with
  | none =>
    rw [copied.other x apart found]
    simpa [found] using there
  | some r =>
    rw [copied.redirect x r found]
    simpa [found] using there

theorem Assembled.grounded {L : Type} {leaf : L → Ty → Tree → Prop} {φ : Formula L} {ty : Ty}
    (assembled : Assembled d leaf φ ty t) (leaves : ∀ l ty t, leaf l ty t → t.Grounded tables known) : t.Grounded tables known := by
  induction assembled with
  | leaf here => exact leaves _ _ _ here
  | number => exact .plain rfl (by simp)
  | binary _ _ _ _ left right => exact .plain rfl (by simpa using ⟨left, right⟩)
  | conditional _ _ _ _ asked first second => exact .plain rfl (by simpa using ⟨asked, first, second⟩)

namespace Slot

theorem Use.grounded {slot : Slot} (use : slot.Use d t) (there : slot.id ∈ known) : t.Grounded tables known := by
  obtain ⟨_, rfl, -⟩ := use
  exact .reference there

theorem FunctionOver.grounded {slots : List Slot} {body : Tree} (wraps : FunctionOver d slots body t)
    (inside : body.Grounded tables (known ∪ roots (slots.map leaf))) : t.Grounded tables known := by
  obtain ⟨name, shape⟩ := wraps.shape
  have params : slots.map Slot.id = (slots.map leaf).map Tree.id := by simp [leaf, Function.comp_def]
  rw [shape, params]
  exact .function (by simpa using fun slot _ => slot.leaf_isParam) inside

end Slot

namespace Fold

variable {fold : Fold} {p q s forward inverse view : Tree} {ty : Ty}

structure Rooted (a : Arena) (tables known : Set NodeId) (fold : Fold) (p q s : Tree) : Prop where
  planted : fold.Planted a p q s
  inside : s.Grounded tables (known ∪ {x | x ∈ [fold.accumulator, fold.row]})
  apart : ∀ x ∈ known, x ∉ s.ids

section

variable (rooted : fold.Rooted a tables known p q s)
include rooted

theorem OperandCopy.grounded {row : Slot} {step : FoldStep} (listed : step ∈ fold.steps) (copied : fold.OperandCopy a d
    row step t) (there : row.id ∈ known') (larger : known ⊆ known') : t.Grounded tables known' := by
  obtain ⟨o, same, standing, copied⟩ := copied
  obtain ⟨o', same', standing', part, grounded, free⟩ :=
    rooted.planted.spine.operand rooted.planted.body rooted.planted.body_stands rooted.inside step listed
  obtain rfl := standing'.unique standing (same'.trans same.symm)
  rw [Free, standing.descendants_eq (part.nodup rooted.planted.body_once)] at free
  refine (grounded.without standing free).copy standing copied ?_
  rintro x ⟨outer | param, other⟩
  · refine ⟨fun here => rooted.apart x outer (part.subset here), ?_⟩
    rw [getElem?_single]
    split
    · exact there
    · exact larger outer
  · obtain rfl : x = fold.row := by simpa [show x ≠ fold.accumulator from other] using param
    refine ⟨fun here => rooted.planted.row_not_mem (part.subset here), ?_⟩
    rw [getElem?_single, if_pos rfl]
    exact there

theorem Reworked.grounded {operands : Ty} {φ : Formula Leaf} (reworked : fold.Reworked a d operands φ t) : t.Grounded tables known := by
  obtain ⟨acc, row, body, -, -, wraps, assembled⟩ := reworked
  refine wraps.grounded (assembled.grounded ?_)
  rintro _ _ _ (used | ⟨listed, copied⟩)
  · exact used.grounded (mem_slots (by simp))
  · exact copied.grounded rooted listed (mem_slots (by simp)) Set.subset_union_left

theorem Repeated.grounded (repeated : fold.Repeated a d t) : t.Grounded tables known := by
  obtain ⟨acc, row, s', body, -, -, wraps, same, standing, copied⟩ := repeated
  obtain rfl := rooted.planted.body_stands.unique standing (rooted.planted.body.trans same.symm)
  refine wraps.grounded (rooted.inside.copy standing copied ?_)
  have seen : acc.id ∈ known ∪ roots ([acc, row].map Slot.leaf) := mem_slots (by simp)
  have seenRow : row.id ∈ known ∪ roots ([acc, row].map Slot.leaf) := mem_slots (by simp)
  intro x listed
  have outside : x ∉ s.ids := by
    obtain outer | param := listed
    · exact rooted.apart x outer
    · obtain rfl | rfl : x = fold.accumulator ∨ x = fold.row := by simpa using param
      · exact rooted.planted.accumulator_not_mem
      · exact rooted.planted.row_not_mem
  refine ⟨outside, ?_⟩
  rw [getElem?_params]
  split
  · exact seenRow
  split
  · exact seen
  · rename_i notRow notAcc
    obtain outer | param := listed
    · exact .inl outer
    · obtain rfl | rfl : x = fold.accumulator ∨ x = fold.row := by simpa using param
      · exact absurd rfl notAcc
      · exact absurd rfl notRow

end

theorem Shown.grounded {φ : Formula Unit} (shown : Shown d φ ty t) : t.Grounded tables known := by
  obtain ⟨acc, body, -, wraps, assembled⟩ := shown
  refine wraps.grounded (assembled.grounded ?_)
  rintro _ _ _ ⟨-, use⟩
  exact use.grounded (mem_slots (by simp))

theorem Functions.grounded (functions : fold.Functions a d forward inverse view ty) (rooted : fold.Rooted a tables known
    p q s) : forward.Grounded tables known ∧ inverse.Grounded tables known ∧ view.Grounded tables known := by
  cases functions with
  | numeric _ first second third => exact ⟨first.grounded rooted, second.grounded rooted, third.grounded⟩
  | boolean _ first second third => exact ⟨first.grounded rooted, second.grounded rooted, third.grounded⟩

end Fold

namespace Rows

variable {function source initial : Tree}

theorem Aggregated.grounded (aggregated : Aggregated a d function source initial t') (stands : function.StandsIn a)
    (apart : ∀ x ∈ known, x ∉ function.ids) (below : source.Grounded tables known)
    (inside : function.Grounded tables known) (first : initial.Grounded tables known) : t'.Grounded tables known := by
  obtain ⟨fold, p, q, s, start, forward, inverse, view, ty, made, node, planted, listed, -, functions, started, -, rfl⟩ :=
    aggregated
  obtain ⟨name, standing⟩ := planted.stands
  obtain rfl := stands.unique standing node.symm
  have rooted : fold.Rooted a tables known p q s := by
    refine ⟨planted, ?_, fun x outer here => apart x outer ?_⟩
    · have inside : (Tree.node fold.node (.function name ([p, q].map Tree.id) s.id) ([p, q] ++ [s])).Grounded tables known := by
        simpa [planted.accumulator, planted.row, planted.body] using inside
      simpa [roots, planted.accumulator, planted.row] using inside.body
    · rw [listed]
      exact .tail _ (mem_idsOf.2 ⟨s, by simp, here⟩)
  obtain ⟨forward', inverse', view'⟩ := functions.grounded rooted
  have start' : start.Grounded tables known := by
    cases started with
    | number => exact first
    | boolean counted =>
      refine counted.grounded ?_
      rintro _ _ _ ⟨-, rfl⟩
      exact first
  exact .plain rfl (by simpa using ⟨below, start', forward', inverse', view'⟩)

theorem Filtered.grounded {node : NodeId} {predicate : Tree} (filtered : Filtered a d node source predicate t')
    (below : source.Grounded tables known) (inside : predicate.Grounded tables known) : t'.Grounded tables known := by
  have stage (id : NodeId) : (Tree.node id (.filter predicate.id) [predicate]).Grounded tables known :=
    .plain rfl (by simpa using inside)
  cases filtered with
  | first => exact .plain rfl (by simpa using ⟨below, stage _⟩)
  | next joins =>
    obtain ⟨sid, kind, parts⟩ := source
    obtain rfl : kind = _ := joins
    exact .plain rfl (List.forall_mem_append.2 ⟨below.parts rfl, by simpa using stage _⟩)

theorem AnyRow.grounded {param body fold : Tree} (asked : AnyRow a d param body fold) (stands : body.StandsIn a)
    (inside : body.Grounded tables (known ∪ roots [param])) (apart : ∀ x ∈ known ∪ roots [param], x ∉ body.ids) :
    fold.Grounded tables known := by
  obtain ⟨acc, row, use, holds, id, -, -, wraps, used, copied, -⟩ := asked
  have holds' : holds.Grounded tables (known ∪ roots ([acc, row].map Slot.leaf)) := by
    refine inside.copy stands copied fun x listed => ⟨apart x listed, ?_⟩
    rw [Fold.getElem?_single]
    split
    · exact Fold.mem_slots (by simp)
    · rename_i other
      refine .inl (listed.resolve_right fun own => other ?_)
      simpa [roots, eq_comm] using own
  have use' : use.Grounded tables (known ∪ roots ([acc, row].map Slot.leaf)) :=
    used.grounded (Fold.mem_slots (.head _))
  exact wraps.grounded (.plain rfl (by simpa using ⟨use', holds'⟩))

theorem Called.grounded {node : NodeId} {member : RowMember} {args : List Tree}
    (called : Called a d node source member args t') (stand : ∀ t ∈ args, t.StandsIn a) (once : (idsOf args).Nodup)
    (there : ∀ x ∈ known, x < a.size) (apart : ∀ x ∈ known, x ∉ idsOf args) (below : source.Grounded tables known)
    (each : ∀ t ∈ args, t.Grounded tables known) : t'.Grounded tables known := by
  have outside {s : Tree} (part : s ∈ args) : ∀ x ∈ known, x ∉ s.ids := fun x outer here =>
    apart x outer (mem_idsOf.2 ⟨s, part, here⟩)
  cases called with
  | filter made => exact made.grounded below (each _ (by simp))
  | @includes _ id _ name param body fold _ asked first stands fresh _ made =>
    have function : (Tree.node id (.function name ([param].map Tree.id) body.id) ([param] ++ [body])).Grounded tables known :=
      each _ (by simp)
    have once := nodup_of_mem once (List.mem_singleton.2 rfl)
    have stands' := (stand _ (List.mem_singleton.2 rfl)).child (s := body) (by simp)
    refine made.grounded stands (fun x outer here => (there x outer).not_ge (fresh x here)) below
      (asked.grounded stands' function.body ?_) (.plain rfl (by simp))
    rintro x (outer | param') here
    · exact outside (List.mem_singleton.2 rfl) x outer (by simp [ids, idsOf, here])
    · rw [ids, List.nodup_cons, idsOf, idsOf_singleton, List.nodup_append] at once
      obtain rfl : x = param.id := by simpa [roots] using param'
      exact once.2.2.2 _ param.id_mem_ids _ here rfl
  | reduce made =>
    exact made.grounded (stand _ (by simp)) (outside (by simp)) below (each _ (by simp)) (each _ (by simp))

end Rows

def Kind.isTable : Kind → Bool
  | definition .. => true
  | _ => false

theorem Kind.isReplaced_of_table {k : Kind} (table : k.isTable = true) : k.isReplaced = false := by
  cases k <;> first | rfl | cases table

namespace Tree

variable {id : NodeId} {kind : Kind} {parts : List Tree} {s : Tree}

def ownTables (t : Tree) : Set NodeId := {x | ∃ s ∈ t.parts, s.id = x ∧ s.kind.isTable = true}

structure Seen (a : Arena) (tables known : Set NodeId) (t : Tree) : Prop where
  there : ∀ x ∈ known, x < a.size
  apart : ∀ x ∈ known, x ∉ idsOf t.parts
  table : ∀ x ∈ known, ∀ {name}, a.tableName? x = some name → x ∈ tables

namespace Seen

theorem later (seen : t.Seen a tables known) (preserves : a.Preserves b) (apart : ∀ x ∈ known, x ∉ idsOf s.parts) :
    s.Seen b tables known where
  there x listed := (seen.there x listed).trans_le preserves.size
  apart := apart
  table x listed _ named := seen.table x listed ((preserves.table (seen.there x listed)).symm.trans named)

theorem part {shown : Set NodeId} (seen : (node id kind parts).Seen a tables known) (part : s ∈ parts)
    (there : ∀ x ∈ shown, x < a.size) (apart : ∀ x ∈ shown, x ∉ idsOf s.parts)
    (table : ∀ x ∈ shown, ∀ {name}, a.tableName? x = some name → x ∈ tables) : s.Seen a tables (known ∪ shown) where
  there x listed := listed.elim (seen.there x) (there x)
  apart x listed := by
    obtain outer | inner := listed
    · intro inside
      exact seen.apart x outer (mem_idsOf.2 ⟨s, part, s.ids_eq ▸ List.mem_cons_of_mem _ inside⟩)
    · exact apart x inner
  table x listed := listed.elim (fun outer => seen.table x outer) fun inner => table x inner

theorem below (seen : (node id kind parts).Seen a tables known) (part : s ∈ parts) : s.Seen a tables known := by
  have inner : s.Seen a tables (known ∪ ∅) := seen.part part (by simp) (by simp) (by simp)
  rwa [Set.union_empty] at inner

theorem siblings {shown : Set NodeId} (seen : (node id kind parts).Seen a tables known) (stands : (node id kind
    parts).StandsIn a) (once : (node id kind parts).ids.Nodup) (part : s ∈ parts) (among : ∀ x ∈ shown, ∃ u ∈ parts,
    u.id = x ∧ (u.kind.isTable = true → x ∈ tables)) : s.Seen a tables (known ∪ shown) := by
  refine seen.part part ?_ ?_ ?_
  · intro x listed
    obtain ⟨u, sibling, rfl, -⟩ := among x listed
    exact Arena.lt_size_of_kind? (stands.child sibling).kind
  · intro x listed
    obtain ⟨u, sibling, rfl, -⟩ := among x listed
    exact roots_apart (List.nodup_cons.1 once).2 part u.id (mem_roots sibling)
  · intro x listed name named
    obtain ⟨u, sibling, rfl, table⟩ := among x listed
    obtain ⟨properties, held⟩ := Arena.tableName?_eq_some.1 named
    refine table ?_
    rw [Option.some_injective _ ((stands.child sibling).kind.symm.trans held)]
    rfl

end Seen

theorem Becomes.keeps {fixed : Set NodeId} (becomes : t.Becomes t') (kept : t.id ∈ fixed → t.kind.isReplaced = false) :
    Kept fixed t t' where
  leaf := by
    rintro ⟨id, name, declared, rfl⟩
    have head := becomes.sameHead rfl
    obtain ⟨_, kind, parts⟩ := t'
    obtain rfl : parts = [] := List.length_eq_zero_iff.1 head.parts
    obtain rfl : kind = .param name declared := head.kind
    exact ⟨_, name, declared, rfl⟩
  id visible := becomes.id_of_kept (kept visible)
  function visible function := by
    rw [(becomes.sameHead (kept visible)).kind]
    cases kind : t.kind <;> simp_all [Kind.isFunction, Kind.withChildren]

end Tree

namespace Rows

variable {id : NodeId} {kind : Kind} {parts : List Tree} {s s' : Tree}

theorem Left.grounded (left : Left a d t t') (stands : t.StandsIn a) (once : t.ids.Nodup)
    (grounded : t.Grounded tables known) (seen : t.Seen a tables known) : t'.Grounded tables known := by
  cases left with
  | idle => exact grounded
  | @dataset id operand made definition parts name table ty =>
    obtain ⟨s, rfl, rfl⟩ := List.map_eq_singleton_iff.1 stands.filled.symm
    have standing := (stands.child (s := s) (by simp)).kind
    refine .dataset ?_
    unfold Arena.definitionOf? at table
    split at table
    · rename_i held
      split at table
      · rename_i defined
        cases table
        obtain ⟨sid, skind, sparts⟩ := s
        obtain rfl : skind = _ := Option.some_injective _ (standing.symm.trans held)
        have shown := (grounded.parts rfl _ (List.mem_singleton.2 rfl)).target
        exact seen.table _ shown (Arena.tableName?_eq_some.2 ⟨_, defined⟩)
      · cases table
    · cases table
  | intent => exact .plain rfl (by simpa using grounded.parts rfl _ (.head _))
  | @call id callee source t' args member called =>
    have each := grounded.parts rfl
    have below := (each _ (.head _)).parts rfl source (by simp)
    have apart := (List.nodup_cons.1 once).2
    rw [idsOf, List.nodup_append] at apart
    refine called.grounded (fun s part => stands.child (.tail _ part)) apart.2.1 seen.there
      (fun x outer inner => seen.apart x outer ?_) below fun s part => each s (.tail _ part)
    exact List.mem_append_right _ inner

structure Regrounds (tables known : Set NodeId) (t : Tree) : Prop where
  walked : ∀ {a b : Arena} {t' : Tree}, Walked a [t] [t'] b → t.StandsIn a → t.ids.Nodup → t.Formed →
    t.Seen a tables known → (t.kind.role = .program → t.ownTables ⊆ tables) → t'.Grounded tables known

structure Regrounded (a : Arena) (tables known : Set NodeId) (id : NodeId) (kind : Kind) (parts parts' : List Tree) :
    Prop where
  stands : (Tree.node id kind parts).StandsIn a
  once : (Tree.node id kind parts).ids.Nodup
  formed : (Tree.node id kind parts).Formed
  seen : (Tree.node id kind parts).Seen a tables known
  owns : kind.role = .program → (Tree.node id kind parts).ownTables ⊆ tables
  walked : ∃ d, Walked a parts parts' d

namespace Regrounded

variable {parts' : List Tree} (whole : Regrounded a tables known id kind parts parts')
include whole

theorem length_eq : parts'.length = parts.length := by
  obtain ⟨_, walked⟩ := whole.walked
  exact walked.length_eq

theorem becomes : ∀ p ∈ parts.zip parts', p.1.Becomes p.2 := by
  obtain ⟨_, walked⟩ := whole.walked
  exact walked.becomes

theorem pair (pair : (s, s') ∈ parts.zip parts') (regrounds : Regrounds tables known' s)
    (seen : s.Seen a tables known') : s'.Grounded tables known' := by
  obtain ⟨_, walked⟩ := whole.walked
  obtain ⟨c, d, preserves, standing, once, walked⟩ :=
    walked.at_pair (fun s part => whole.stands.child part) (List.nodup_cons.1 whole.once).2 pair
  have part := (List.of_mem_zip pair).1
  refine regrounds.walked walked standing once (whole.formed.each s part) (seen.later preserves seen.apart) fun program => ?_
  have listed : s.slot ∈ kind.takes := whole.formed.slots ▸ List.mem_map_of_mem part
  exact absurd program (Kind.ne_program_of_takes listed)

end Regrounded

theorem Regrounds.node (whole : ∀ {a : Arena} {parts' : List Tree}, Regrounded a tables known id kind parts parts' →
    (Tree.node id (kind.withChildren (parts'.map Tree.id)) parts').Grounded tables known) : Regrounds tables known
    (.node id kind parts) := by
  refine ⟨fun {a b t'} walked stands once formed seen owns => ?_⟩
  have stand : ∀ s ∈ parts, s.StandsIn a := fun s part => stands.child part
  have apart := (List.nodup_cons.1 once).2
  cases walked with
  | @cons _ d c _ _ _ _ _ parts' _ _ _ below written done later _ left rest =>
    cases rest
    have rewritten := (below.standing (motive := fun _ _ _ _ => True) (fun _ => trivial) (by intros; trivial) stand apart).2
    have preserves := preserves_written stands once rewritten (below.preserves stand apart) written
    refine left.grounded done.stands done.once (whole ⟨stands, once, formed, seen, owns, _, below⟩)
      (seen.later preserves fun x outer inner => ?_)
    exact (rewritten.origin inner).elim (seen.apart x outer) fun beyond => (seen.there x outer).not_ge beyond

theorem regrounds_binding {name : String} {v k : NodeId} {value next : Tree} (bound : Regrounds tables known value)
    (follows : Regrounds tables (insert id known) next) :
    Regrounds tables known (.node id (.binding name v k) [value, next]) := by
  refine .node fun {a parts'} whole => ?_
  obtain ⟨value', next', rfl⟩ := List.length_eq_two.1 whole.length_eq
  refine .binding (whole.pair (by simp) bound (whole.seen.below (by simp))) (whole.pair (by simp) follows ?_)
  rw [← Set.union_singleton]
  refine whole.seen.part (by simp) ?_ ?_ ?_
  · rintro x rfl
    exact Arena.lt_size_of_kind? whole.stands.held
  · rintro x rfl inside
    exact (List.nodup_cons.1 whole.once).1 (mem_idsOf.2 ⟨next, by simp, next.ids_eq ▸ List.mem_cons_of_mem _ inside⟩)
  · rintro x rfl name named
    obtain ⟨_, held⟩ := Arena.tableName?_eq_some.1 named
    cases held.symm.trans whole.stands.held

theorem regrounds_over (sees : Tree.Sees tables known parts kind)
    (each : ∀ t ∈ parts, Regrounds tables (known ∪ shown parts kind) t) : Regrounds tables known (.node id kind parts) := by
  refine .node fun {a parts'} whole => ?_
  have kept : List.Forall₂ (Kept (shown parts kind)) parts parts' := by
    refine List.forall₂_iff_zip.2 ⟨whole.length_eq.symm, fun {s s'} pair => (whole.becomes _ pair).keeps fun visible => ?_⟩
    obtain ⟨k, held, fixed⟩ := (whole.formed.cast whole.stands).shown whole.stands visible
    rw [← Option.some_injective _ (held.symm.trans (whole.stands.child (List.of_mem_zip pair).1).kind)]
    cases k <;> first | rfl | cases fixed rfl
  refine .other (by simpa using sees.kept kept) fun t' part' => ?_
  rw [← List.map_snd_zip whole.length_eq.le] at part'
  obtain ⟨⟨t, _⟩, pair, rfl⟩ := List.mem_map.1 part'
  have part := (List.of_mem_zip pair).1
  refine (whole.pair pair (each t part) (whole.seen.siblings whole.stands whole.once part fun x visible => ?_)).mono
    (Set.union_subset_union_right _ (by simpa using shown_subset kept))
  obtain ⟨u, sibling, rfl⟩ := mem_of_shown visible
  refine ⟨u, sibling, rfl, fun table => whole.owns ?_ ⟨u, sibling, rfl, table⟩⟩
  -- Only a program has tables among its parts.
  have takes : (u.id, .item) ∈ kind.takes := by
    have role : u.kind.role = .item := by cases kind : u.kind <;> simp_all [Kind.role, Kind.isTable]
    exact role ▸ whole.formed.slots ▸ List.mem_map_of_mem sibling
  cases kind <;> simp_all [Kind.takes, Kind.role]

theorem regrounds (grounded : t.Grounded tables known) : Regrounds tables known t := by
  induction grounded with
  | binding _ _ bound follows => exact regrounds_binding bound follows
  | other sees _ each => exact regrounds_over sees each

theorem not_intent (stands : t.StandsIn a) (once : t.ids.Nodup)
    (nothing : ∀ node member, firstIntent? a t.id = some (node, member) → False) {x source : NodeId} {member : RowMember}
    (inside : x ∈ t.ids) : a.kind? x ≠ some (.intent member source) := by
  intro held
  have missing : firstIntent? a t.id = none :=
    Option.eq_none_iff_forall_ne_some.2 fun found there => nothing found.1 found.2 there
  rw [firstIntent?, stands.descendants_eq once, List.findSome?_eq_none_iff] at missing
  have here := missing x inside
  rw [held] at here
  cases here

theorem recognize_ends {w : Workspace RowsSummary} (formed : t.Formed) (role : t.kind.role = .program) (stands : t.StandsIn w.arena) (once :
    t.ids.Nodup) (grounded : t.Grounded t.ownTables ∅) : Pass.Ends Dangling (recognize t.id) w fun _ w' => ∃ t' : Tree,
    t'.id = t.id ∧ t'.StandsIn w'.arena ∧ t'.ids.Nodup ∧ t'.Grounded t.ownTables ∅ ∧ (∀ x ∈ t.ownTables, x ∈ t'.ids) ∧
    t.Becomes t' ∧ t'.Laid ∧ ∀ x ∈ t'.ids, ∀ member source, w'.arena.kind? x ≠ some (.intent member source) := by
  have walking : Pass.Ends Dangling ((Visitor.leaving leave).walk t.id ()) w _ :=
    .arena ((visits w.arena _ t ((stands.height_le_size once).trans (Nat.le_succ _)) stands stands once).weaken
      fun e dangling ⟨_, _, _, stopped⟩ => stopped.not_dangling dangling)
  refine walking.bind ?_
  rintro _ w₁ ⟨t', rfl, rewritten, walked, -⟩
  have becomes : t.Becomes t' := walked.becomes _ (List.mem_singleton.2 rfl)
  have laid : t'.Laid := (walked.laid (t, t') (List.mem_singleton.2 rfl)).2 formed.laid
  have head := becomes.sameHead (by cases kind : t.kind <;> simp_all [Kind.role, Kind.isReplaced])
  have result := (regrounds grounded).walked walked stands once formed ⟨by simp, by simp, by simp⟩
    fun _ => subset_rfl
  refine .arena ?_
  split
  · exact .throw (by rintro ⟨_, ⟨⟩⟩)
  · rename_i nothing
    refine .pure ⟨t', head.id, rewritten.stands, rewritten.once, result, ?_, becomes, laid, ?_⟩
    · rintro x ⟨s, part, rfl, table⟩
      have part := roots_subset_ids (head.items s part (Kind.isReplaced_of_table table))
      exact t'.ids_eq ▸ List.mem_cons_of_mem _ part
    · exact fun x inside member source => not_intent rewritten.stands rewritten.once nothing inside

end Rows

end DerivedTables
