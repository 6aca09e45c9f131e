import DerivedTables.Proofs.Rows.NormalForm

/-!
Recognition goes by the expression, not by what it stands for.
-/

namespace DerivedTables

open Tree

variable {a b c : Arena} {t t' : Tree} {ts ts' : List Tree}

theorem Tree.StandsIn.eq_leaf {k : Kind} (stands : t.StandsIn a) (held : a.kind? t.id = some k) (leaf : k.children = []) :
    t = .node t.id k [] := by
  obtain ⟨id, kind, parts⟩ := t
  obtain rfl : kind = k := Option.some_injective _ (stands.held.symm.trans held)
  have none : parts = [] := List.map_eq_nil_iff.1 (stands.filled.symm.trans leaf)
  rw [none]
  rfl

namespace Rows

theorem Left.eq_of_idle (left : Left a b t t') (idle : t.Idle) : t' = t := by
  cases left with
  | idle => rfl
  | dataset => exact absurd rfl (idle.unmarked _)
  | intent collection => cases collection.symm.trans (idle.member _ _ rfl _ rfl).1
  | call => exact absurd rfl (idle.callee _ _ rfl _ rfl _ _)

theorem Walked.uncons {us : List Tree} (walked : Walked a (t :: ts) us b) :
    ∃ t' us' d, us = t' :: us' ∧ Walked a [t] [t'] d ∧ Walked d ts us' b := by
  cases walked with
  | cons below written done later whole left rest =>
    exact ⟨_, _, _, rfl, .cons below written done later whole left (.nil _), rest⟩

theorem Walked.eq_nil {us : List Tree} (walked : Walked a [] us b) : us = [] := by
  cases walked
  rfl

theorem Walked.leaf {id : NodeId} {k : Kind} (walked : Walked a [.node id k []] [t'] b) (leaf : k.children = [])
    (kept : k.isReplaced = false) : t' = .node id k [] := by
  cases walked with
  | cons below written done later whole left rest =>
    cases below
    have same : k.withChildren (([] : List Tree).map Tree.id) = k := by
      rw [List.map_nil, ← leaf, Kind.withChildren_children]
    rw [same] at left
    exact left.turned.eq_of_kept kept

end Rows

/-- The node is a call of a member of `source`. -/
inductive Arena.Calls (a : Arena) (member : String) (source : NodeId) (args : List NodeId) (x : NodeId) : Prop
  | intro {callee property : NodeId} (called : a.kind? x = some (.invoke callee args))
    (accessed : a.kind? callee = some (.access source property)) (named : a.kind? property = some (.identifier member))

theorem Arena.Calls.eq_node {member : String} {source : NodeId} {args : List NodeId}
    (calls : a.Calls member source args t.id) (stands : t.StandsIn a) : ∃ callee property s rest, s.id = source ∧
    rest.map Tree.id = args ∧ a.kind? t.id = some (.invoke callee args) ∧ t = .node t.id (.invoke callee args)
    (.node callee (.access source property) [s, .node property (.identifier member) []] :: rest) := by
  obtain ⟨held, accessed, named⟩ := calls
  rename_i callee property
  obtain ⟨id, kind, parts⟩ := t
  obtain rfl : kind = .invoke callee args := Option.some_injective _ (stands.held.symm.trans held)
  obtain ⟨c, rest, rfl, called, given⟩ := List.map_eq_cons_iff.1 stands.filled.symm
  have standing := stands.child (.head _)
  obtain ⟨cid, ckind, cparts⟩ := c
  obtain rfl : cid = callee := called
  obtain rfl : ckind = .access source property := Option.some_injective _ (standing.held.symm.trans accessed)
  obtain ⟨s, more, rfl, sourced, more'⟩ := List.map_eq_cons_iff.1 standing.filled.symm
  obtain ⟨label, rfl, labelled⟩ := List.map_eq_singleton_iff.1 more'
  have leaf := (standing.child (.tail _ (.head _))).eq_leaf (labelled ▸ named) rfl
  rw [labelled] at leaf
  subst leaf
  exact ⟨cid, property, s, rest, sourced, given, held, rfl⟩

/-- A call of a member of a name. -/
structure MemberCall where
  callee : NodeId
  args : List NodeId
  source : NodeId
  property : NodeId
  target : NodeId
  shown : String
  member : String
  deriving DecidableEq

/-- The call of a member of a name at the node, if it is one. -/
def Arena.memberCall? (a : Arena) (x : NodeId) : Option MemberCall :=
  match a.kind? x with
  | some (.invoke callee args) =>
    match a.kind? callee with
    | some (.access source property) =>
      match a.kind? source, a.kind? property with
      | some (.reference target shown), some (.identifier member) =>
        some ⟨callee, args, source, property, target, shown, member⟩
      | _, _ => none
    | _ => none
  | _ => none

namespace MemberCall

variable {call : MemberCall} {x : NodeId}

structure At (call : MemberCall) (a : Arena) (x : NodeId) : Prop where
  called : a.kind? x = some (.invoke call.callee call.args)
  member : a.kind? call.callee = some (.access call.source call.property)
  name : a.kind? call.source = some (.reference call.target call.shown)
  property : a.kind? call.property = some (.identifier call.member)

theorem at_iff : call.At a x ↔ a.memberCall? x = some call := by
  constructor
  · rintro ⟨held, member, name, property⟩
    simp only [Arena.memberCall?, held, member, name, property]
  · intro found
    unfold Arena.memberCall? at found
    split at found
    · split at found
      · split at found
        · cases found
          constructor <;> assumption
        · cases found
      · cases found
    · cases found

def calleeTree (call : MemberCall) : Tree :=
  .node call.callee (.access call.source call.property)
    [.node call.source (.reference call.target call.shown) [], .node call.property (.identifier call.member) []]

theorem At.eq_node (here : call.At a t.id) (stands : t.StandsIn a) :
    ∃ args, t = .node t.id (.invoke call.callee call.args) (call.calleeTree :: args) ∧ args.map Tree.id = call.args := by
  have calls : a.Calls call.member call.source call.args t.id := ⟨here.called, here.member, here.property⟩
  obtain ⟨callee, property, s, rest, sourced, given, held, shape⟩ := calls.eq_node stands
  generalize t.id = x at shape held here
  subst shape
  cases held.symm.trans here.called
  have standing := stands.child (.head _)
  cases standing.held.symm.trans here.member
  have leaf := (standing.child (.head _)).eq_leaf (sourced ▸ here.name) rfl
  rw [sourced] at leaf
  subst leaf
  exact ⟨rest, rfl, given⟩

theorem calleeTree_idle (call : MemberCall) : call.calleeTree.Idle where
  unmarked _ rows := by cases rows
  member _ _ _ s first := by
    cases first
    exact ⟨rfl, rfl⟩
  callee _ _ invoked := by cases invoked

theorem idle (call : MemberCall) (args : List Tree) :
    (Tree.node x (.invoke call.callee (args.map Tree.id)) (call.calleeTree :: args)).Idle where
  unmarked _ rows := by cases rows
  member _ _ accessed := by cases accessed
  callee _ _ _ s first _ _ intended := by
    cases first
    cases intended

end MemberCall

namespace Rows

variable {call : MemberCall} {w w' : Workspace RowsSummary}

theorem Walked.calleeTree (walked : Walked a [call.calleeTree] [t'] b) (stands : call.calleeTree.StandsIn a)
    (once : call.calleeTree.ids.Nodup) : t' = call.calleeTree := by
  obtain ⟨parts', _, _, below, -, -, left⟩ := walked.left stands once
  obtain ⟨source, rest, _, rfl, first, more⟩ := below.uncons
  obtain ⟨label, none, _, rfl, second, last⟩ := more.uncons
  obtain rfl := last.eq_nil
  obtain rfl := first.leaf rfl rfl
  obtain rfl := second.leaf rfl rfl
  exact left.eq_of_idle call.calleeTree_idle

theorem Turns.memberCall (turns : Turns a b t t') (stands : t.StandsIn a) (here : call.At a t.id) :
    ∃ args', t'.id = t.id ∧ args'.length = call.args.length ∧ MemberCall.At { call with args := args' } b t.id := by
  obtain ⟨args, shape, given⟩ := here.eq_node stands
  obtain ⟨stands', c, d, -, there, once, walked⟩ := turns
  generalize t.id = x at shape
  subst shape
  obtain ⟨parts', _, _, below, -, -, left⟩ := walked.left there once
  obtain ⟨callee, args', _, rfl, first, rest⟩ := below.uncons
  have apart := nodup_of_mem (List.nodup_cons.1 once).2 (.head _)
  obtain rfl := first.calleeTree (there.child (.head _)) apart
  obtain rfl := left.eq_of_idle (call.idle args')
  have callee := stands'.child (.head _)
  refine ⟨args'.map Tree.id, rfl, ?_, stands'.held, callee.held, (callee.child (.head _)).held,
    (callee.child (.tail _ (.head _))).held⟩
  rw [List.length_map, rest.length_eq, ← given, List.length_map]

theorem walk_slot {root r : NodeId} (shaped : w.arena.TreeShaped root)
    (walking : (Visitor.leaving leave).walk root () w = .ok r w') {p x : NodeId} {k : Kind} {i : Nat} (inside : p ∈ w.arena.descendants root) (held : w.arena.kind? p = some k) (slot : k.children[i]? = some x) :
    ∃ filled u u', w'.arena.kind? p = some (k.withChildren filled) ∧ filled.length = k.children.length ∧
      filled[i]? = some u'.id ∧ u.id = x ∧ u.StandsIn w.arena ∧ Turns w.arena w'.arena u u' := by
  obtain ⟨t, rfl, stands, once, listed⟩ := shaped.exists_tree
  have enough := (stands.height_le_size once).trans (Nat.le_succ _)
  obtain ⟨t', -, -, walked, -⟩ := (visits w.arena _ t enough stands stands once).ok walking
  obtain ⟨s, rfl, standing⟩ := stands.exists_at (listed ▸ inside)
  obtain rfl : s.kind = k := Option.some_injective _ (standing.kind.symm.trans held)
  rw [listed] at inside
  obtain ⟨s', filled⟩ := walked.filled (by simpa using stands) (by simpa using once) standing (by simpa using inside)
  rw [standing.slots, List.getElem?_map, Option.map_eq_some_iff] at slot
  obtain ⟨u, place, rfl⟩ := slot
  obtain ⟨u', place', turns⟩ := filled.slot place
  refine ⟨s'.parts.map Tree.id, u, u', ?_, ?_, ?_, rfl, standing.child (List.mem_of_getElem? place), turns⟩
  · rw [← filled.kind, ← filled.id]
    exact filled.stands.kind
  · obtain ⟨_, _, -, -, -, parts⟩ := filled.parts
    rw [standing.slots, List.length_map, List.length_map, parts.length_eq]
  · rw [List.getElem?_map, place', Option.map_some]

theorem exists_recognized {root expressions : NodeId} {definitions assignments : List NodeId}
    (shaped : w.arena.TreeShaped root) (held : w.arena.kind? root = some (.root definitions assignments expressions))
    (done : recognize root w = .ok () w') : ∃ t' : Tree, t'.id = root ∧ t'.StandsIn w'.arena ∧ t'.ids.Nodup ∧
      ∀ x ∈ t'.ids, w'.arena.isRecognized x = true := by
  obtain ⟨t, rfl, stands, once, -⟩ := shaped.exists_tree
  obtain ⟨r, walking, nothing⟩ := exists_walk_of_recognize done
  have enough := (stands.height_le_size once).trans (Nat.le_succ _)
  obtain ⟨t', rfl, rewritten, walked, -⟩ := (visits w.arena _ t enough stands stands once).ok walking
  have kept : t.kind.isReplaced = false := by
    rw [Option.some_injective _ (stands.kind.symm.trans held)]
    rfl
  refine ⟨t', walked.id_of_kept kept, rewritten.stands, rewritten.once, fun x inside => ?_⟩
  refine (walked.clean t' (by simp)).isRecognized rewritten.stands inside fun member source => ?_
  exact not_intent rewritten.stands rewritten.once (fun _ _ found => by rw [nothing] at found; cases found) inside

/-- After recognition no member is one of `T[]`, of a pipeline or of an aggregate, by whatever name it is
called. A call of a member of a name, whatever the name stands for, is left in its slot as it is. -/
theorem recognize_by_expression {root expressions : NodeId} {definitions assignments : List NodeId}
    (shaped : w.arena.TreeShaped root) (held : w.arena.kind? root = some (.root definitions assignments expressions))
    (done : recognize root w = .ok () w') :
    (∀ x ∈ w'.arena.descendants root, w'.arena.isRecognized x = true) ∧
      ∀ p ∈ w.arena.descendants root, ∀ k, w.arena.kind? p = some k → ∀ (i : Nat) (x : NodeId), k.children[i]? = some x →
        ∀ call, w.arena.memberCall? x = some call → ∃ filled args', w'.arena.kind? p = some (k.withChildren filled) ∧
          filled[i]? = some x ∧ args'.length = call.args.length ∧
          w'.arena.memberCall? x = some { call with args := args' } ∧
          (p ∈ w'.arena.descendants root → x ∈ w'.arena.descendants root) := by
  obtain ⟨t', same, stands, once, recognized⟩ := exists_recognized shaped held done
  subst same
  rw [stands.descendants_eq once]
  refine ⟨recognized, fun p inside k there i x slot call here => ?_⟩
  obtain ⟨_, walking, -⟩ := exists_walk_of_recognize done
  obtain ⟨filled, u, u', there', fits, slot', rfl, standing, turns⟩ := walk_slot shaped walking inside there slot
  obtain ⟨args', kept, count, here'⟩ := turns.memberCall standing (MemberCall.at_iff.2 here)
  refine ⟨filled, args', there', kept ▸ slot', count, MemberCall.at_iff.1 here', fun live => ?_⟩
  have child : u.id ∈ (k.withChildren filled).children := by
    rw [Kind.children_withChildren k filled fits, ← kept]
    exact List.mem_of_getElem? slot'
  rw [ids_eq]
  exact .tail _ (stands.child_mem live there' child)

end Rows

/-- `T { x: number }`, `d = T[]` and `e = d.filter((r: T) => r.x > 0)` -/
def namedRows : Program :=
  ⟨[.definition "T" [.property "x" (.named "number" false) none] none,
    .assignment "d" (.rows none (.identifier none "T")) none,
    .assignment "e" (.call none (.member none (.identifier none "d") "filter")
      [.lambda none [⟨"r", some (.named "T" false), none⟩]
        (.binary none .gt (.member none (.identifier none "r") "x") (.number none 0))]) none]⟩

/-- The rows of the table are recognized where they are named, and the filter of the name stays a call. -/
theorem namedRows_filter_stays : ∃ c c', compile namedRows ⟨.typed, 32, true⟩ = .ok c ∧ c.recognizeRows = .ok c' ∧
    c.arena.isAssignmentOf "d" 4 = true ∧ (c.arena.kind? 4).map Kind.children = some [3] ∧ c.arena.isMarked 3 = true ∧
    15 ∈ c'.arena.descendants c'.root ∧ c'.arena.memberCall? 15 = some ⟨7, [14], 5, 6, 4, "d", "filter"⟩ := by
  obtain ⟨c, compiled, found⟩ : ∃ c, compile namedRows ⟨.typed, 32, true⟩ = .ok c ∧
      c.recognizeRows.toOption.any (fun c' => decide (c.arena.isAssignmentOf "d" 4 = true ∧
        (c.arena.kind? 4).map Kind.children = some [3] ∧ c.arena.isMarked 3 = true ∧
        15 ∈ c'.arena.descendants c'.root ∧ c'.arena.memberCall? 15 = some ⟨7, [14], 5, 6, 4, "d", "filter"⟩)) = true :=
    except_any (by decide +kernel)
  obtain ⟨c', recognized, found⟩ := except_any found
  exact ⟨c, c', compiled, recognized, of_decide_eq_true found⟩

/-- The call is held by the assignment of `e` and stays there. -/
theorem namedRows_by_expression : ∃ c w', compile namedRows ⟨.typed, 32, true⟩ = .ok c ∧ c.arena.TreeShaped c.root ∧
    Rows.recognize c.root ⟨c.arena, .empty⟩ = .ok () w' ∧ c.arena.memberCall? 15 = some ⟨7, [14], 5, 6, 4, "d", "filter"⟩ ∧
    (∀ x ∈ w'.arena.descendants c.root, w'.arena.isRecognized x = true) ∧
    ∃ args', w'.arena.memberCall? 15 = some ⟨7, args', 5, 6, 4, "d", "filter"⟩ := by
  obtain ⟨c, compiled, found⟩ : ∃ c, compile namedRows ⟨.typed, 32, true⟩ = .ok c ∧
      ((Rows.recognize c.root).placed c.arena .empty Compilation.rowsError).toOption.any (fun _ =>
        decide (c.arena.TreeShaped c.root) && (c.arena.kind? c.root).any (fun k => k.name == "root") &&
        decide (16 ∈ c.arena.descendants c.root ∧ (c.arena.kind? 16).map Kind.children = some [15] ∧
          c.arena.memberCall? 15 = some ⟨7, [14], 5, 6, 4, "d", "filter"⟩)) = true :=
    except_any (by decide +kernel)
  obtain ⟨⟨⟨⟩, w'⟩, recognized, found⟩ := except_any found
  have recognized := Pass.placed_eq_ok.1 recognized
  simp only [Bool.and_eq_true, decide_eq_true_eq] at found
  obtain ⟨⟨shaped, top⟩, inside, slot, here⟩ := found
  obtain ⟨k, held, named⟩ := (Option.any_eq_true _ _).1 top
  obtain ⟨definitions, assignments, expressions, rfl⟩ : ∃ definitions assignments expressions,
      k = .root definitions assignments expressions := by
    cases k <;> simp_all [Kind.name]
  obtain ⟨l, there, children⟩ := Option.map_eq_some_iff.1 slot
  obtain ⟨all, calls⟩ := Rows.recognize_by_expression shaped held recognized
  obtain ⟨_, args', -, -, -, here', -⟩ := calls 16 inside l there 0 15 (by rw [children]; rfl) _ here
  exact ⟨c, w', compiled, shaped, recognized, here, all, args', here'⟩

end DerivedTables
