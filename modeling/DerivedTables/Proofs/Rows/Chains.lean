import DerivedTables.Proofs.Rows.ByName

/-!
Chains of filters over the rows of a table.
-/

namespace DerivedTables

open Tree

variable {a b c d : Arena} {t t' s : Tree} {ts ts' : List Tree} {table : NodeId} {name : String} {predicates : List NodeId}

namespace Arena

def IsLambda (a : Arena) (arity : Nat) (x : NodeId) : Prop :=
  ∃ name params body, a.kind? x = some (.function name params body) ∧ params.length = arity

/-- The node calls the member of `source` with a function of rows, and of an accumulator for `reduce`. -/
structure RowCall (a : Arena) (member : RowMember) (source : NodeId) (args : List NodeId) (x : NodeId) : Prop where
  calls : a.Calls member.name source args x
  count : args.length = Rows.arity member
  lambda : ∀ function ∈ args.head?, a.IsLambda (if member = .reduce then 2 else 1) function

/-- The node is `T[].filter(p₁)` and so on, for the table and these predicates. -/
inductive Chain (a : Arena) (table : NodeId) : List NodeId → NodeId → Prop
  | rows {x operand : NodeId} {shown : String} (marked : a.kind? x = some (.rows operand))
    (named : a.kind? operand = some (.reference table shown)) : Chain a table [] x
  | filter {x source predicate : NodeId} {predicates : List NodeId} (chain : Chain a table predicates source)
    (call : a.RowCall .filter source [predicate] x) : Chain a table (predicates ++ [predicate]) x

/-- The node stands for the rows of the table of which the predicates hold. -/
inductive Flat (a : Arena) (table : NodeId) (name : String) : List NodeId → NodeId → Prop
  | rows {x : NodeId} (held : a.kind? x = some (.dataset name table)) : Flat a table name [] x
  | stages {x source : NodeId} {stages predicates : List NodeId} (nonempty : predicates ≠ [])
    (held : a.kind? x = some (.pipeline source stages)) (rows : a.kind? source = some (.dataset name table))
    (each : stages.map a.kind? = predicates.map fun predicate => some (.filter predicate)) :
    Flat a table name predicates x

/-- In the slots where `x` was in `a` there is something of the kind in `b`. -/
def Replaces (a b : Arena) (root x : NodeId) (fits : NodeId → Prop) : Prop :=
  ∀ p ∈ a.descendants root, ∀ k, a.kind? p = some k → ∀ i : Nat, k.children[i]? = some x →
    ∃ filled r, b.kind? p = some (k.withChildren filled) ∧ filled[i]? = some r ∧ fits r

end Arena

namespace Tree

inductive Flat (table : NodeId) (name : String) : List NodeId → Tree → Prop
  | rows {id : NodeId} : Flat table name [] (node id (.dataset name table) [])
  | stages {id source : NodeId} {stages : List (NodeId × Tree)} (nonempty : stages ≠ []) :
    Flat table name (stages.map fun stage => stage.2.id) (node id (.pipeline source (stages.map Prod.fst))
      (node source (.dataset name table) [] :: stages.map fun stage => node stage.1 (.filter stage.2.id) [stage.2]))

namespace Flat

theorem isCollection (flat : t.Flat table name predicates) : t.kind.isCollection = true := by
  cases flat <;> rfl

theorem not_aggregate (flat : t.Flat table name predicates) : t.kind.isAggregate = false := by
  cases flat <;> rfl

theorem held (flat : t.Flat table name predicates) (stands : t.StandsIn a) : a.Flat table name predicates t.id := by
  cases flat with
  | rows => exact .rows stands.held
  | @stages id source stages nonempty =>
    refine .stages (by simpa using nonempty) stands.held (stands.child (.head _)).held ?_
    rw [List.map_map, List.map_map]
    refine List.map_congr_left fun stage listed => ?_
    exact (stands.child (.tail _ (List.mem_map_of_mem listed))).held

theorem filtered {node : NodeId} {predicate : Tree} (flat : s.Flat table name predicates)
    (filtered : Rows.Filtered a d node s predicate t') : t'.Flat table name (predicates ++ [predicate.id]) := by
  cases flat with
  | rows =>
    cases filtered with
    | @first made stage => exact @stages _ _ _ _ [(stage, predicate)] (by simp)
    | next joins => cases joins
  | @stages id source stages nonempty =>
    cases filtered with
    | first other => exact absurd rfl (other _ _)
    | @next made stage _ _ joins =>
      cases joins
      have whole := @Flat.stages table name made source (stages ++ [(stage, predicate)]) (by simp)
      simpa using whole

end Flat

structure Yields (a : Arena) (fits : Tree → Prop) (t : Tree) : Prop where
  walked : ∀ {c d : Arena} {t' : Tree}, a.Preserves c → t.StandsIn c → t.ids.Nodup → Rows.Walked c [t] [t'] d → fits t'

theorem Becomes.lambda {n : Nat} (becomes : t.Becomes t') (stands : t.StandsIn a) (lambda : a.IsLambda n t.id) :
    t'.id = t.id ∧ ∃ name params body, t'.kind = .function name params body ∧ params.length = n := by
  obtain ⟨name, params, body, held, count⟩ := lambda
  have function : t.kind = .function name params body := Option.some_injective _ (stands.kind.symm.trans held)
  have head := becomes.sameHead (by rw [function]; rfl)
  refine ⟨head.id, name, _, _, head.kind.trans (by rw [function]; rfl), ?_⟩
  have whole := congrArg List.length stands.slots
  rw [function] at whole
  simp only [Kind.children, List.length_append, List.length_singleton, List.length_map] at whole
  rw [List.length_take, List.length_map, head.parts, ← whole, count]
  exact Nat.min_eq_left (Nat.le_succ n)

end Tree

namespace Rows

variable {fits : Tree → Prop} {src : Tree} {rest parts' : List Tree} {callee property x : NodeId} {member : RowMember} {e : RowsError}

theorem Left.of_rows (left : Left a d t t') (marked : t.kind = .rows x) : ∃ made definition name,
    a.definitionOf? x = some (definition, name) ∧ t' = .node made (.dataset name definition) [] := by
  cases left with
  | idle idle => exact absurd marked (idle.unmarked _)
  | dataset table =>
    cases marked
    exact ⟨_, _, _, table, rfl⟩
  | intent | call => cases marked

theorem Left.of_access (left : Left a d t t') (accessed : t.kind = .access x property) (parts : t.parts = src :: rest)
    (collection : src.kind.isCollection = true) : ∃ made member,
      RowMember.ofName? ((a.identifier? property).getD "") = some member ∧ t' = .node made (.intent member src.id) [src] := by
  cases left with
  | idle idle => cases collection.symm.trans (idle.member _ _ accessed src (by rw [parts]; rfl)).1
  | dataset | call => cases accessed
  | intent _ named =>
    cases accessed
    cases parts
    exact ⟨_, _, named, rfl⟩

theorem Left.of_call {args : List NodeId} (left : Left a d t t') (called : t.kind = .invoke callee args)
    (parts : t.parts = .node x (.intent member src.id) [src] :: rest) : Called a d t.id src member rest t' := by
  cases left with
  | idle idle => exact absurd rfl (idle.callee _ _ called _ (by rw [parts]; rfl) _ _)
  | dataset | intent => cases called
  | call made =>
    simp only [Tree.parts, List.cons.injEq, Tree.node.injEq, Kind.intent.injEq] at parts
    obtain ⟨⟨-, ⟨rfl, -⟩, rfl, -⟩, rfl⟩ := parts
    exact made

structure Given (a : Arena) (args : List NodeId) (given : List Tree) : Prop where
  become : ∃ ts : List Tree, (∀ u ∈ ts, u.StandsIn a) ∧ ts.map Tree.id = args ∧ given.length = ts.length ∧
    ∀ p ∈ ts.zip given, p.1.Becomes p.2

namespace Given

variable {args : List NodeId} {given : List Tree} {n : Nat}

theorem length_eq (whole : Given a args given) : given.length = args.length := by
  obtain ⟨ts, -, rfl, count, -⟩ := whole
  rw [count, List.length_map]

theorem first (whole : Given a (x :: args) given) (lambda : a.IsLambda n x) : ∃ u' rest', given = u' :: rest' ∧
    u'.id = x ∧ ∃ name params body, u'.kind = .function name params body ∧ params.length = n := by
  obtain ⟨ts, stand, same, count, become⟩ := whole
  obtain ⟨u, rest, rfl, rfl, -⟩ := List.map_eq_cons_iff.1 same
  obtain ⟨u', rest', rfl⟩ := List.exists_cons_of_length_pos (by rw [count]; exact Nat.succ_pos _)
  exact ⟨u', rest', rfl, (become (u, u') (.head _)).lambda (stand u (.head _)) lambda⟩

end Given

theorem Miscalled.of_rowCall {source node : NodeId} {args : List NodeId} {given : List Tree}
    (miscalled : Miscalled b node member given e) (call : a.RowCall member source args x) (whole : Given a args given) :
    member ≠ .filter ∧ e.isFoldError = true := by
  obtain ⟨-, count, lambda⟩ := call
  obtain ⟨function, rest, rfl⟩ : ∃ function rest, args = function :: rest :=
    List.exists_cons_of_length_pos (by rw [count]; cases member <;> decide)
  have count' := whole.length_eq.trans count
  obtain ⟨u', rest', rfl, -, name, params, body, kind, fits⟩ := whole.first (lambda function rfl)
  cases miscalled with
  | count wrong => exact absurd count' wrong
  | lambda other =>
    rw [kind] at other
    cases other
  | params wrong =>
    cases kind
    exact absurd fits wrong
  | row wrong other =>
    cases kind
    rw [if_neg other] at fits
    exact absurd fits wrong
  | fold other _ fault => exact ⟨other, fault⟩

theorem Walked.memberParts {shown : String} (walked : Walked c [src, .node property (.identifier shown) []] parts' d)
    (yields : src.Yields a fits) (before : a.Preserves c) (stands : src.StandsIn c) (once : src.ids.Nodup) :
    ∃ src', parts' = [src', .node property (.identifier shown) []] ∧ fits src' := by
  obtain ⟨src', more, _, rfl, first, more'⟩ := walked.uncons
  obtain ⟨label, none, _, rfl, second, last⟩ := more'.uncons
  obtain rfl := last.eq_nil
  obtain rfl := second.leaf rfl rfl
  exact ⟨src', rfl, yields.walked before stands once first⟩

theorem Walked.callParts (collection : ∀ s, fits s → s.kind.isCollection = true) (yields : src.Yields a fits) (walked :
    Walked c (.node callee (.access src.id property) [src, .node property (.identifier member.name) []] :: rest) parts'
    d) (before : a.Preserves c) (stands : (Tree.node callee (.access src.id property) [src, .node property (.identifier
    member.name) []]).StandsIn c) (once : (Tree.node callee (.access src.id property) [src, .node property (.identifier
    member.name) []]).ids.Nodup) : ∃ made src' rest' e, parts' = .node made (.intent member src'.id) [src'] :: rest' ∧
    fits src' ∧ Walked e rest rest' d := by
  obtain ⟨callee', rest', e, rfl, first, more⟩ := walked.uncons
  obtain ⟨parts, c', _, below, -, standing, left⟩ := first.left stands once
  have apart := nodup_of_mem (List.nodup_cons.1 once).2 (.head _)
  obtain ⟨src', rfl, fit⟩ := below.memberParts yields before (stands.child (.head _)) apart
  have named : c'.identifier? property = some member.name := by
    have label := (standing.child (.tail _ (List.mem_singleton_self _))).held
    rw [Arena.identifier?, label]
  obtain ⟨made, found, known, rfl⟩ := left.of_access rfl rfl (collection _ fit)
  dsimp only [Tree.id] at known
  rw [named, Option.getD_some, RowMember.ofName?_name] at known
  cases known
  exact ⟨made, src', rest', e, rfl, fit, more⟩

end Rows

namespace Arena

variable {source : NodeId} {args : List NodeId} {member : RowMember} {fits : Tree → Prop} {e : RowsError}

theorem Calls.yields (calls : a.Calls member.name source args t.id) (stands : t.StandsIn a) (collection : ∀ s, fits s →
    s.kind.isCollection = true) (yields : ∀ {s : Tree}, s.id = source → s.StandsIn a → s.Yields a fits) : t.Yields a fun
    t' => ∃ src' given c d, fits src' ∧ Rows.Given a args given ∧ Rows.Called c d t.id src' member given t' := by
  obtain ⟨callee, property, src, rest, rfl, given, -, shape⟩ := calls.eq_node stands
  refine ⟨fun {c d t'} before there once walked => ?_⟩
  generalize t.id = x at shape
  subst shape
  have standing := stands.child (.head _)
  obtain ⟨parts', c', _, below, -, -, left⟩ := walked.left there once
  have apart := nodup_of_mem (List.nodup_cons.1 once).2 (.head _)
  obtain ⟨made, src', rest', _, rfl, fit, more⟩ := below.callParts collection
    (yields rfl (standing.child (.head _))) before (there.child (.head _)) apart
  refine ⟨src', rest', c', d, fit, ⟨rest, fun u part => stands.child (.tail _ part), given,
    more.length_eq, more.becomes⟩, left.of_call rfl rfl⟩

theorem Calls.stopped (calls : a.Calls member.name source args t.id) (stands : t.StandsIn a) (once : t.ids.Nodup)
    (collection : ∀ s, fits s → s.kind.isCollection = true ∧ s.kind.isAggregate = false) (yields : ∀ {s : Tree}, s.id =
    source → s.StandsIn a → s.Yields a fits) (standing : s.StandsIn a) (inside : s.id ∈ t.ids) (stopped : Rows.Stopped a
    s e) : (∃ src : Tree, src.id = source ∧ src.StandsIn a ∧ src.ids.Nodup ∧ s.id ∈ src.ids) ∨ (∃ p ∈ args, s.id ∈
    a.descendants p) ∨ s.id = t.id ∧ ∃ given b, Rows.Given a args given ∧ Rows.Miscalled b t.id member given e := by
  obtain ⟨callee, property, src, rest, rfl, rfl, -, shape⟩ := calls.eq_node stands
  generalize t.id = x at shape
  subst shape
  have once' := (List.nodup_cons.1 once).2
  have called := stands.child (.head _)
  have onceCalled := nodup_of_mem once' (.head _)
  have sourced := called.child (.head _)
  have onceSource := nodup_of_mem (List.nodup_cons.1 onceCalled).2 (.head _)
  have yields := yields rfl sourced
  rw [ids, idsOf, List.mem_cons, List.mem_append] at inside
  rcases inside with here | inner | given
  · -- The call itself: its member is an intent by now.
    obtain rfl := standing.unique stands here
    refine .inr (.inr ⟨rfl, ?_⟩)
    obtain ⟨before, stand, apart, walked, -, -, faulty⟩ := stopped
    obtain ⟨made, src', rest', _, rfl, fit, more⟩ := walked.callParts (fun s fit => (collection s fit).1) yields before
      (stand _ (.head _)) onceCalled
    exact ⟨rest', _, ⟨rest, fun u part => stands.child (.tail _ part), rfl, more.length_eq, more.becomes⟩,
      faulty.of_call rfl rfl⟩
  · rw [ids, List.mem_cons, idsOf, List.mem_append, idsOf_singleton, ids, idsOf, List.mem_singleton] at inner
    rcases inner with here | inner | label
    · -- The member: it is known, and what it is a member of is rows.
      obtain rfl := standing.unique called here
      obtain ⟨before, stand, apart, walked, now, now', faulty⟩ := stopped
      obtain ⟨src', rfl, fit⟩ := walked.memberParts yields before (stand _ (.head _)) onceSource
      obtain ⟨-, unknown⟩ | aggregate := faulty.of_access rfl rfl
      · have label := (now'.child (.tail _ (List.mem_singleton_self _))).held
        dsimp only [Tree.id] at unknown
        rw [Arena.identifier?, label] at unknown
        simp at unknown
      · cases aggregate.symm.trans (collection _ fit).2
    · exact .inl ⟨src, rfl, sourced, onceSource, inner⟩
    · have leaf := called.child (.tail _ (List.mem_singleton_self _))
      obtain rfl := standing.unique leaf label
      obtain ⟨-, -, -, -, -, -, faulty⟩ := stopped
      cases faulty
  · obtain ⟨u, part, inner⟩ := mem_idsOf.1 given
    refine .inr (.inl ⟨u.id, List.mem_map_of_mem part, ?_⟩)
    rwa [(stands.child (.tail _ part)).descendants_eq (nodup_of_mem once' (.tail _ part))]

end Arena

namespace Arena

theorem definitionOf?_eq {operand : NodeId} {shown : String} (held : a.kind? operand = some (.reference table shown))
    (named : a.tableName? table = some name) : a.definitionOf? operand = some (table, name) := by
  obtain ⟨properties, defined⟩ := tableName?_eq_some.1 named
  rw [definitionOf?, held]
  dsimp only
  rw [defined]

theorem Preserves.tableName? (preserves : a.Preserves b) (named : a.tableName? table = some name) :
    b.tableName? table = some name := by
  obtain ⟨properties, defined⟩ := tableName?_eq_some.1 named
  exact (preserves.table (lt_size_of_kind? defined)).trans named

theorem eq_marker {operand : NodeId} {shown : String} (marked : a.kind? t.id = some (.rows operand))
    (named : a.kind? operand = some (.reference table shown)) (stands : t.StandsIn a) :
    t = .node t.id (.rows operand) [.node operand (.reference table shown) []] := by
  obtain ⟨id, kind, parts⟩ := t
  obtain rfl : kind = .rows operand := Option.some_injective _ (stands.held.symm.trans marked)
  obtain ⟨u, rfl, rfl⟩ := List.map_eq_singleton_iff.1 stands.filled.symm
  rw [(stands.child (List.mem_singleton_self _)).eq_leaf named rfl]
  rfl

namespace Chain

variable {x : NodeId} {e : RowsError}

/-- By induction on the chain: each filter puts its stage behind those that are there. -/
theorem yields (chain : a.Chain table predicates x) (named : a.tableName? table = some name) (same : t.id = x)
    (stands : t.StandsIn a) : t.Yields a (Tree.Flat table name predicates) := by
  induction chain generalizing t with
  | @rows x operand shown marked named' =>
    subst same
    have shape := eq_marker marked named' stands
    refine ⟨fun {c d t'} before there once walked => ?_⟩
    generalize t.id = x at shape
    subst shape
    obtain ⟨parts', c', _, below, now, standing, left⟩ := walked.left there once
    obtain ⟨u, none, _, rfl, first, last⟩ := below.uncons
    obtain rfl := last.eq_nil
    obtain rfl := first.leaf rfl rfl
    obtain ⟨made, definition, shown', found, rfl⟩ := left.of_rows rfl
    dsimp only [Tree.id] at found
    rw [definitionOf?_eq (standing.child (List.mem_singleton_self _)).held ((before.trans now).tableName? named)] at found
    cases found
    exact .rows
  | filter chain call ih =>
    subst same
    have yields := call.calls.yields stands (fun s flat => flat.isCollection) ih
    refine ⟨fun before there once walked => ?_⟩
    obtain ⟨src', given, _, _, flat, whole, called⟩ := yields.walked before there once walked
    obtain ⟨u', rest', rfl, rfl, -⟩ := whole.first (call.lambda _ rfl)
    cases called with
    | filter filtered => exact flat.filtered filtered

theorem stopped (chain : a.Chain table predicates x) (named : a.tableName? table = some name) (same : t.id = x)
    (stands : t.StandsIn a) (once : t.ids.Nodup) (standing : s.StandsIn a) (inside : s.id ∈ t.ids)
    (stopped : Rows.Stopped a s e) : ∃ p ∈ predicates, s.id ∈ a.descendants p := by
  induction chain generalizing t with
  | @rows x operand shown marked named' =>
    subst same
    have shape := eq_marker marked named' stands
    generalize t.id = x at shape
    subst shape
    rw [ids, idsOf_singleton, ids, idsOf, List.mem_cons, List.mem_singleton] at inside
    rcases inside with here | leaf
    · obtain rfl := standing.unique stands here
      obtain ⟨before, stand, apart, walked, now, now', faulty⟩ := stopped
      obtain ⟨u, none, _, rfl, first, last⟩ := walked.uncons
      obtain rfl := last.eq_nil
      obtain rfl := first.leaf rfl rfl
      have found := definitionOf?_eq (now'.child (List.mem_singleton_self _)).held (now.tableName? named)
      cases faulty with
      | rows missing => cases missing.symm.trans found
    · obtain rfl := standing.unique (stands.child (List.mem_singleton_self _)) leaf
      obtain ⟨-, -, -, -, -, -, faulty⟩ := stopped
      cases faulty
  | filter chain call ih =>
    subst same
    obtain ⟨src, same, sourced, onceSource, below⟩ | ⟨p, listed, below⟩ | ⟨-, given, _, whole, miscalled⟩ :=
      call.calls.stopped stands once (fun s flat => ⟨flat.isCollection, flat.not_aggregate⟩) (chain.yields named) standing
        inside stopped
    · obtain ⟨p, listed, below⟩ := ih same sourced onceSource below
      exact ⟨p, List.mem_append_left _ listed, below⟩
    · exact ⟨p, List.mem_append_right _ listed, below⟩
    · exact absurd rfl (miscalled.of_rowCall call whole).1

end Chain

namespace RowCall

variable {x y : NodeId} {args : List NodeId} {member : RowMember} {e : RowsError}

theorem yields (call : a.RowCall member x args y) (ends : member ≠ .filter) (chain : a.Chain table predicates x)
    (named : a.tableName? table = some name) (same : t.id = y) (stands : t.StandsIn a) : t.Yields a fun t' => ∃ made s
    start forward inverse view, Tree.Flat table name predicates s ∧ t' = .node made
    (.reduce s.id start.id forward.id inverse.id view.id) [s, start, forward, inverse, view] := by
  subst same
  have yields := call.calls.yields stands (fun s flat => flat.isCollection) (chain.yields named)
  refine ⟨fun before there once walked => ?_⟩
  obtain ⟨src', given, _, _, flat, -, called⟩ := yields.walked before there once walked
  cases called with
  | filter => exact absurd rfl ends
  | includes _ _ _ _ _ made | reduce made =>
    obtain ⟨_, _, _, _, start, forward, inverse, view, _, made, -, -, -, -, -, -, -, rfl⟩ := made
    exact ⟨made, src', start, forward, inverse, view, flat, rfl⟩

theorem stopped (call : a.RowCall member x args y) (chain : a.Chain table predicates x)
    (named : a.tableName? table = some name) (same : t.id = y) (stands : t.StandsIn a) (once : t.ids.Nodup)
    (standing : s.StandsIn a) (inside : s.id ∈ t.ids) (stopped : Rows.Stopped a s e) :
    (∃ p ∈ predicates ++ args, s.id ∈ a.descendants p) ∨ s.id = y ∧ e.isFoldError = true := by
  subst same
  obtain ⟨src, same, sourced, onceSource, below⟩ | ⟨p, listed, below⟩ | ⟨here, given, _, whole, miscalled⟩ :=
    call.calls.stopped stands once (fun s flat => ⟨flat.isCollection, flat.not_aggregate⟩) (chain.yields named) standing
      inside stopped
  · obtain ⟨p, listed, below⟩ := chain.stopped named same sourced onceSource standing below stopped
    exact .inl ⟨p, List.mem_append_left _ listed, below⟩
  · exact .inl ⟨p, List.mem_append_right _ listed, below⟩
  · exact .inr ⟨here, (miscalled.of_rowCall call whole).2⟩

end RowCall

end Arena

namespace Rows

variable {w w' : Workspace RowsSummary} {root x : NodeId} {fits : Tree → Prop}

structure ComesTo (w : Workspace RowsSummary) (root x : NodeId) (fits : Arena → NodeId → Prop)
    (elsewhere : NodeId → RowsError → Prop) : Prop where
  ok : ∀ w', recognize root w = .ok () w' → w.arena.Replaces w'.arena root x (fits w'.arena)
  error : ∀ e w', recognize root w = .error e w' → w.arena.Replaces w'.arena root x (fits w'.arena) ∨
    ∃ s : Tree, s.StandsIn w.arena ∧ s.id ∈ w.arena.descendants root ∧ Stopped w.arena s e ∧ elsewhere s.id e

theorem replaces_of_walk {r : NodeId} {holds : NodeId → Prop} (shaped : w.arena.TreeShaped root)
    (walking : (Visitor.leaving leave).walk root () w = .ok r w')
    (yields : ∀ {u : Tree}, u.id = x → u.StandsIn w.arena → u.Yields w.arena fits)
    (held : ∀ u : Tree, fits u → u.StandsIn w'.arena → holds u.id) : w.arena.Replaces w'.arena root x holds := by
  intro p inside k there i slot
  obtain ⟨filled, u, u', there', -, slot', rfl, standing, stands', _, _, before, now, once, walked⟩ :=
    walk_slot shaped walking inside there slot
  exact ⟨filled, u'.id, there', slot', held u' ((yields rfl standing).walked before now once walked) stands'⟩

theorem ComesTo.of_yields {holds : Arena → NodeId → Prop} {elsewhere : NodeId → RowsError → Prop}
    (shaped : w.arena.TreeShaped root) (inside : x ∈ w.arena.descendants root)
    (yields : ∀ {u : Tree}, u.id = x → u.StandsIn w.arena → u.Yields w.arena fits)
    (held : ∀ {b : Arena} {u : Tree}, fits u → u.StandsIn b → holds b u.id)
    (stopped : ∀ {u s : Tree} {e : RowsError}, u.id = x → u.StandsIn w.arena → u.ids.Nodup → s.StandsIn w.arena →
      s.id ∈ u.ids → Stopped w.arena s e → elsewhere s.id e) :
    ComesTo w root x holds fun s e => s ∈ w.arena.descendants x → elsewhere s e where
  ok w' done := by
    obtain ⟨_, walking, -⟩ := exists_walk_of_recognize done
    exact replaces_of_walk shaped walking yields fun u fit stands => held fit stands
  error e w' failed := by
    obtain ⟨t, rfl, stands, once, listed⟩ := shaped.exists_tree
    obtain ⟨s, standing, here, stop⟩ | ⟨_, _, _, walking, -⟩ := recognize_error stands once failed
    · refine .inr ⟨s, standing, listed ▸ here, stop, fun below => ?_⟩
      obtain ⟨u, rfl, there⟩ := stands.exists_at (listed ▸ inside)
      have once' := once.sublist (stands.sublist_within there (listed ▸ inside))
      exact stopped rfl there once' standing (there.descendants_eq once' ▸ below) stop
    · exact .inl (replaces_of_walk shaped walking yields fun u fit stands => held fit stands)

/-- A chain of filters on the rows of a table comes out as one pipeline on the dataset of the table, with a stage
for each predicate in the order of the source, or as the dataset itself where there is no filter. A `reduce` or an
`include` after it has that node for its source. Nothing of the chain can stop recognition, and the call after it
only by its fold. -/
theorem recognize_flattens (shaped : w.arena.TreeShaped root) (inside : x ∈ w.arena.descendants root) {table : NodeId}
    {name : String} {predicates : List NodeId} (named : w.arena.tableName? table = some name) (chain : w.arena.Chain
    table predicates x) : ComesTo w root x (fun b r => b.Flat table name predicates r) (fun s _ => s ∈
    w.arena.descendants x → ∃ p ∈ predicates, s ∈ w.arena.descendants p) ∧ ∀ member args y, member ≠ .filter → y ∈
    w.arena.descendants root → w.arena.RowCall member x args y → ComesTo w root y (fun b r => ∃ source start forward
    inverse view, b.kind? r = some (.reduce source start forward inverse view) ∧ b.Flat table name predicates source)
    (fun s e => s ∈ w.arena.descendants y → (∃ p ∈ predicates ++ args, s ∈ w.arena.descendants p) ∨ s = y ∧
    e.isFoldError = true) := by
  refine ⟨.of_yields shaped inside (chain.yields named) (fun flat stands => flat.held stands)
    (chain.stopped named), fun member args y ends inside' call => ?_⟩
  refine .of_yields shaped inside' (call.yields ends chain named) ?_ (call.stopped chain named)
  rintro b _ ⟨made, s, start, forward, inverse, view, flat, rfl⟩ stands
  exact ⟨_, _, _, _, _, stands.held, flat.held (stands.child (.head _))⟩

end Rows

/-- The filter on the payments, and the question whether one is paid that stands in its predicate. -/
theorem settledPayments_flattens : settledPayments.Chain 18 [16] 17 ∧ settledPayments.RowCall .includes 7 [14] 15 ∧
    Rows.recognize 19 ⟨settledPayments, .empty⟩ = .ok () settledRecognized ∧
    settledPayments.Replaces settledRecognized.arena 19 17 (settledRecognized.arena.Flat 18 "Payment" [16]) ∧
    settledPayments.Replaces settledRecognized.arena 19 15 fun r => ∃ source start forward inverse view,
      settledRecognized.arena.kind? r = some (.reduce source start forward inverse view) ∧
      settledRecognized.arena.Flat 18 "Payment" [] source := by
  have shaped : settledPayments.TreeShaped 19 := by decide +kernel
  have done : Rows.recognize 19 ⟨settledPayments, .empty⟩ = .ok () settledRecognized :=
    @Pass.run_eq_ok _ _ _ (Rows.recognize 19) ⟨settledPayments, .empty⟩ () (by decide +kernel)
  have chain : settledPayments.Chain 18 ([] ++ [16]) 17 :=
    .filter (.rows rfl rfl) ⟨⟨rfl, rfl, rfl⟩, rfl, fun _ first => by cases first; exact ⟨_, _, _, rfl, rfl⟩⟩
  have call : settledPayments.RowCall .includes 7 [14] 15 :=
    ⟨⟨rfl, rfl, rfl⟩, rfl, fun _ first => by cases first; exact ⟨_, _, _, rfl, rfl⟩⟩
  have filtered := Rows.recognize_flattens (w := ⟨settledPayments, .empty⟩) shaped (by decide +kernel) rfl chain
  have asked := Rows.recognize_flattens (w := ⟨settledPayments, .empty⟩) shaped (x := 7) (by decide +kernel) rfl
    (.rows rfl rfl)
  exact ⟨chain, call, done, filtered.1.ok _ done, (asked.2 _ _ 15 (by decide) (by decide +kernel) call).ok _ done⟩

end DerivedTables
