import DerivedTables.Proofs.Scope.Hooks
import DerivedTables.Proofs.Tree.Expression

/-!
Taking out the lets that only rename, said on trees.
-/

namespace DerivedTables

def Alias.follow (aliases : Alias.Aliases) (target : NodeId) (shown : String) : Alias :=
  aliases[target]?.getD ⟨target, shown⟩

def Alias.standsFor (aliases : Alias.Aliases) (id : NodeId) : NodeId :=
  (aliases[id]?.map Alias.target).getD id

theorem Alias.target_follow (aliases : Alias.Aliases) (id : NodeId) (shown : String) :
    (follow aliases id shown).target = standsFor aliases id := by
  rw [follow, standsFor]
  cases aliases[id]? <;> rfl

namespace Tree

open Alias

mutual
def unalias (aliases : Aliases) : Tree → Tree × Aliases
  | node id (.binding name v k) [value, next] =>
    match value.kind with
    | .reference target shown => next.unalias (aliases.insert id (follow aliases target shown))
    | _ =>
      let (value, aliases) := value.unalias aliases
      let (next, aliases) := next.unalias aliases
      (node id ((Kind.binding name v k).withChildren [value.id, next.id]) [value, next], aliases)
  | node id (.reference target shown) parts =>
    (node id (.reference (follow aliases target shown).target (follow aliases target shown).name) parts,
      aliases)
  | node id kind parts =>
    let (parts, aliases) := unaliasAll aliases parts
    (node id (kind.withChildren (parts.map Tree.id)) parts, aliases)
def unaliasAll (aliases : Aliases) : List Tree → List Tree × Aliases
  | [] => ([], aliases)
  | t :: rest =>
    let (t, aliases) := t.unalias aliases
    let (rest, aliases) := unaliasAll aliases rest
    (t :: rest, aliases)
end

theorem unalias_binding {aliases : Aliases} {id v k : NodeId} {name : String} {value next : Tree} (stays : ∀ target
    shown, value.kind ≠ .reference target shown) : (node id (.binding name v k) [value, next]).unalias aliases = (node
    id ((Kind.binding name v k).withChildren ((unaliasAll aliases [value, next]).1.map Tree.id)) (unaliasAll aliases
    [value, next]).1, (unaliasAll aliases [value, next]).2) := by
  rw [unalias]
  split
  · rename_i target shown held
    exact absurd held (stays target shown)
  · rfl

theorem unalias_other {aliases : Aliases} {id : NodeId} {kind : Kind} {parts : List Tree} (noReference : ∀ target shown,
    kind ≠ .reference target shown) (noLet : ∀ name value next, kind ≠ .binding name value next) : (node id kind
    parts).unalias aliases = (node id (kind.withChildren ((unaliasAll aliases parts).1.map Tree.id)) (unaliasAll aliases
    parts).1, (unaliasAll aliases parts).2) := by
  cases kind <;> first | rfl | exact absurd rfl (noReference _ _) | exact absurd rfl (noLet _ _ _)

theorem unaliasAll_params {aliases : Aliases} {params : List Tree} {body : Tree} (leaves : ∀ t ∈ params, t.IsParam) :
    unaliasAll aliases (params ++ [body]) = (params ++ [(body.unalias aliases).1], (body.unalias aliases).2) := by
  induction params with
  | nil => rfl
  | cons param rest ih =>
    rw [List.forall_mem_cons] at leaves
    obtain ⟨⟨id, name, declared, rfl⟩, leaves⟩ := leaves
    have here : (node id (.param name declared) []).unalias aliases = (node id (.param name declared) [], aliases) :=
      rfl
    rw [List.cons_append, unaliasAll, here]
    simp only [ih leaves, List.cons_append]

theorem unaliasAll_off {ts : List Tree} (each : ∀ t ∈ ts, ∀ aliases, ∀ x ∉ t.ids, (t.unalias aliases).2[x]? =
    aliases[x]?) (aliases : Aliases) : ∀ x ∉ idsOf ts, (unaliasAll aliases ts).2[x]? = aliases[x]? := by
  induction ts generalizing aliases with
  | nil => exact fun _ _ => rfl
  | cons t rest ih =>
    intro x outside
    rw [idsOf, List.mem_append, not_or] at outside
    simp only [List.forall_mem_cons] at each
    rw [unaliasAll]
    exact (ih each.2 _ x outside.2).trans (each.1 aliases x outside.1)

theorem unalias_off (t : Tree) (aliases : Aliases) : ∀ x ∉ t.ids, (t.unalias aliases).2[x]? = aliases[x]? := by
  induction t generalizing aliases with
  | node id kind parts ih =>
    intro x outside
    rw [ids, List.mem_cons, not_or] at outside
    unfold unalias
    split
    · rename_i name v k value next same
      cases same
      split
      · rw [ih next (by simp), Std.TreeMap.getElem?_insert, if_neg]
        · simpa using Ne.symm outside.1
        · exact fun inside => outside.2 (by simp [idsOf, inside])
      · exact unaliasAll_off ih aliases x outside.2
    · rfl
    · rename_i _ _ same
      cases same
      exact unaliasAll_off ih aliases x outside.2

end Tree

namespace Alias

open Tree

variable {w : Workspace Aliases} {id : NodeId} {kind : Kind} {lineage : Lineage} {fuel : Nat}
  {parts : List Tree} {t : Tree} {ts : List Tree}

theorem enter_alias {name shown : String} {value next target : NodeId} (lineage : Lineage) (held : w.arena.kind? id =
    some (.binding name value next)) (bound : w.arena.kind? value = some (.reference target shown)) : enter id lineage
    () w = .ok (.replace next) { w with notes := w.notes.insert id (follow w.notes target shown) } := by
  rw [enter, bind_of_ok (Pass.kind_of_some held)]
  simp only
  rw [bind_of_ok (Pass.kind_of_some bound)]
  rfl

theorem enter_let {name : String} {value next : NodeId} {k : Kind}
    (held : w.arena.kind? id = some (.binding name value next)) (bound : w.arena.kind? value = some k)
    (stays : ∀ target shown, k ≠ .reference target shown) : enter id lineage () w = .ok .keep w := by
  rw [enter, bind_of_ok (Pass.kind_of_some held)]
  simp only
  rw [bind_of_ok (Pass.kind_of_some bound)]
  cases k <;> first | rfl | exact absurd rfl (stays _ _)

theorem enter_other (held : w.arena.kind? id = some kind) (noReference : ∀ target shown, kind ≠ .reference target shown)
    (noLet : ∀ name value next, kind ≠ .binding name value next) : enter id lineage () w = .ok .keep w := by
  rw [enter, bind_of_ok (Pass.kind_of_some held)]
  cases kind <;> first | rfl | exact absurd rfl (noReference _ _) | exact absurd rfl (noLet _ _ _)

theorem enter_reference {target : NodeId} {shown : String} (lineage : Lineage)
    (held : w.arena.kind? id = some (.reference target shown)) : ∃ b, enter id lineage () w = .ok .keep ⟨b, w.notes⟩ ∧
    b.size = w.arena.size ∧ ∀ x, b.kind? x = if id = x then some
    (.reference (follow w.notes target shown).target (follow w.notes target shown).name) else w.arena.kind? x := by
  have read : (Pass.notes : Pass ScopeError Aliases Aliases) w = .ok w.notes w := rfl
  cases found : w.notes[target]? with
  | none =>
    refine ⟨w.arena, ?_, rfl, fun x => ?_⟩
    · rw [enter, bind_of_ok (Pass.kind_of_some held)]
      simp only
      rw [bind_of_ok read, found]
      rfl
    simp only [follow, found, Option.getD_none]
    split
    · rename_i same
      exact same ▸ held
    · rfl
  | some stood =>
    refine ⟨w.arena.setKind id (.reference stood.target stood.name), ?_, by simp [Arena.setKind], fun x => ?_⟩
    · rw [enter, bind_of_ok (Pass.kind_of_some held)]
      simp only
      rw [bind_of_ok read, found]
      rfl
    rw [Arena.kind?_setKind]
    simp only [follow, found, Option.getD_some]
    split
    · rename_i same
      rw [← same, held, Option.map_some]
    · rfl

def Unaliases (t : Tree) : Prop :=
  ∀ {fuel} (lineage : Lineage) {w}, t.height ≤ fuel → t.StandsIn w.arena → t.ids.Nodup →
    ∃ b, (Visitor.entering enter).visit fuel t.id lineage () w =
        .ok (t.unalias w.notes).1.id ⟨b, (t.unalias w.notes).2⟩ ∧
      Rewritten w.arena b t (t.unalias w.notes).1

theorem mapM_unalias (each : ∀ t ∈ ts, Unaliases t) (lineage : Lineage) (enough : heightOf ts ≤ fuel) (stand : ∀ t ∈ ts,
    t.StandsIn w.arena) (once : (idsOf ts).Nodup) : ∃ b, ((ts.map Tree.id).mapM fun child => (Visitor.entering
    enter).visit fuel child lineage ()) w = .ok ((unaliasAll w.notes ts).1.map Tree.id) ⟨b, (unaliasAll w.notes ts).2⟩ ∧
    RewrittenAll w.arena b ts (unaliasAll w.notes ts).1 := by
  induction ts generalizing w with
  | nil => exact ⟨w.arena, rfl, .nil _⟩
  | cons t rest ih =>
    simp only [heightOf, Nat.max_le] at enough
    simp only [List.forall_mem_cons] at each stand
    obtain ⟨once_here, once_there, disjoint⟩ := List.nodup_append.1 once
    obtain ⟨b, visited, rewritten⟩ := each.1 lineage enough.1 stand.1 once_here
    have untouched {s : Tree} (listed : s ∈ rest) : s.StandsIn b := by
      have stood := stand.2 s listed
      refine stood.congr fun x inside => rewritten.kept (stood.lt_size x inside) fun here => ?_
      exact disjoint x here x (mem_idsOf.2 ⟨s, listed, inside⟩) rfl
    obtain ⟨c, others, rewrittenAll⟩ := ih (w := ⟨b, (t.unalias w.notes).2⟩) each.2 enough.2
      (fun s listed => untouched listed) once_there
    refine ⟨c, ?_, .cons rewritten rewrittenAll ?_ ?_⟩
    · rw [List.map_cons, List.mapM_cons, bind_of_ok visited, bind_of_ok others]
      rfl
    · intro x listed
      obtain ⟨s, part, inside⟩ := mem_idsOf.1 listed
      exact (stand.2 s part).lt_size x inside
    · exact fun x here there => disjoint x here x there rfl

theorem length_unaliasAll (aliases : Aliases) (ts : List Tree) : ts.length = (unaliasAll aliases ts).1.length := by
  induction ts generalizing aliases with
  | nil => rfl
  | cons t rest ih => exact congrArg (· + 1) (ih _)

theorem visit_kept (each : ∀ t ∈ parts, Unaliases t) (lineage : Lineage) (enough : heightOf parts ≤ fuel)
    (stands : (node id kind parts).StandsIn w.arena) (once : (node id kind parts).ids.Nodup)
    (entered : enter id lineage () w = .ok .keep w) : ∃ b, (Visitor.entering enter).visit (fuel + 1) id lineage () w =
    .ok id ⟨b, (unaliasAll w.notes parts).2⟩ ∧ Rewritten w.arena b (node id kind parts)
    (node id (kind.withChildren ((unaliasAll w.notes parts).1.map Tree.id)) (unaliasAll w.notes parts).1) := by
  obtain ⟨b, visited, rewritten⟩ := mapM_unalias each (id :: lineage) enough
    (fun t part => stands.child part) (List.nodup_cons.1 once).2
  refine ⟨_, ?_, rewritten.node stands once (length_unaliasAll ..)⟩
  have before : (Visitor.entering enter).before id lineage () w = .ok .keep w := entered
  rw [Visitor.visit_children stands.held before rfl stands.held (by rw [stands.filled]; exact visited)]
  rfl

theorem visit_reference {target : NodeId} {shown : String} (lineage : Lineage)
    (stands : (node id (.reference target shown) []).StandsIn w.arena) : ∃ b, (Visitor.entering enter).visit (fuel + 1)
    id lineage () w = .ok id ⟨b, w.notes⟩ ∧ Rewritten w.arena b (node id (.reference target shown) [])
    (node id (.reference (follow w.notes target shown).target (follow w.notes target shown).name) []) := by
  obtain ⟨b, entered, size, kinds⟩ := enter_reference lineage stands.held
  have now := (kinds id).trans (if_pos rfl)
  refine ⟨b, ?_, size.ge, fun {x} _ outside => ?_, .node now rfl (by simp), by simp [ids, idsOf],
    fun listed => .inl listed⟩
  · have before : (Visitor.entering enter).before id lineage () w = .ok .keep ⟨b, w.notes⟩ := entered
    rw [Visitor.visit_children stands.held before rfl now rfl]
    rfl
  · simp only [ids, List.mem_cons, not_or] at outside
    exact (kinds x).trans (if_neg (Ne.symm outside.1))

theorem unaliases (t : Tree) : Unaliases t := by
  induction t with
  | node id kind parts ih =>
    intro fuel lineage w enough stands once
    obtain _ | fuel := fuel
    · simp [height] at enough
    simp only [height, Nat.add_le_add_iff_right] at enough
    by_cases reference : ∃ target shown, kind = .reference target shown
    · obtain ⟨target, shown, rfl⟩ := reference
      obtain rfl : parts = [] := by simpa [Kind.children] using stands.filled
      exact visit_reference lineage stands
    by_cases binding : ∃ name value next, kind = .binding name value next
    · obtain ⟨name, v, k, rfl⟩ := binding
      obtain ⟨value, next, rfl⟩ : ∃ value next, parts = [value, next] := by
        have slots := congrArg List.length stands.filled
        simp only [Kind.children, List.length_cons, List.length_nil, List.length_map] at slots
        exact List.length_eq_two.1 slots.symm
      have slots := stands.filled
      simp only [Kind.children, List.map_cons, List.map_nil, List.cons.injEq, and_true] at slots
      obtain ⟨rfl, rfl⟩ := slots
      have bound := (stands.child (s := value) (by simp)).kind
      by_cases renames : ∃ target shown, value.kind = .reference target shown
      · obtain ⟨target, shown, same⟩ := renames
        rw [same] at bound
        have other : next.id ≠ id := by
          rintro rfl
          exact (List.nodup_cons.1 once).1 (by simp [idsOf])
        have whole : (node id (.binding name value.id next.id) [value, next]).unalias w.notes =
            next.unalias (w.notes.insert id (follow w.notes target shown)) := by
          rw [unalias, same]
        have before : (Visitor.entering enter).before id lineage () w = _ :=
          enter_alias lineage stands.held bound
        have part : next.ids ⊆ (node id (.binding name value.id next.id) [value, next]).ids := by
          simp [ids, idsOf]
        obtain ⟨b, visited, rewritten⟩ := ih next (by simp) lineage
          (w := ⟨w.arena, w.notes.insert id (follow w.notes target shown)⟩)
          ((height_le_heightOf (by simp)).trans enough) (stands.child (by simp))
          (nodup_of_mem (List.nodup_cons.1 once).2 (by simp))
        rw [whole, id_node, Visitor.visit_replaced stands.held before rfl other]
        exact ⟨b, visited, rewritten.within part⟩
      · have stays : ∀ target shown, value.kind ≠ .reference target shown :=
          fun target shown same => renames ⟨target, shown, same⟩
        rw [unalias_binding stays]
        exact visit_kept ih lineage enough stands once (enter_let stands.held bound stays)
    · have noReference : ∀ target shown, kind ≠ .reference target shown :=
        fun target shown same => reference ⟨target, shown, same⟩
      have noLet : ∀ name value next, kind ≠ .binding name value next :=
        fun name value next same => binding ⟨name, value, next, same⟩
      rw [unalias_other noReference noLet]
      exact visit_kept ih lineage enough stands once (enter_other stands.held noReference noLet)

theorem removeAll_run (stands : t.StandsIn w.arena) (once : t.ids.Nodup) : ∃ b, removeAll t.id w = .ok
    (t.unalias w.notes).1.id ⟨b, (t.unalias w.notes).2⟩ ∧ Rewritten w.arena b t (t.unalias w.notes).1 := by
  rw [removeAll, Visitor.walk, bind_of_ok (Pass.arena_run w)]
  exact unaliases t [] ((stands.height_le_size once).trans (Nat.le_succ _)) stands once

end Alias

end DerivedTables
