import DerivedTables.Proofs.Eval.Ordered
import DerivedTables.Proofs.Scope.Sight

/-!
Programs without recursion. Names of lets lead up and back in the tree and everything else leads
down, so a way that comes back to its start passes a function, a derived column or an assignment;
where none of these comes back to itself, nothing does, and evaluation needs no more than one set of
bindings.
-/

namespace DerivedTables

/-- What is evaluated or called by name. -/
def Kind.isEntry : Kind → Bool
  | function .. | derived .. | assignment .. => true
  | _ => false

theorem Kind.derived_of_layer {k : Kind} (layer : k.layer = .property) : ∃ name derivation, k = .derived name derivation := by
  cases k <;> first | exact ⟨_, _, rfl⟩ | cases layer

/-- Evaluation that starts at the node may come back to it. -/
def Arena.Recurs (a : Arena) (x : NodeId) : Prop := Relation.TransGen a.Leads x x

def Arena.isRanked (a : Arena) (rank : NodeId → Nat) : Bool :=
  (List.range a.size).all fun x => (a.kind? x).all fun k => (k.entered ++ k.links.flatMap a.code).all (rank · < rank x)

theorem Arena.not_recurs_of_isRanked {a : Arena} {rank : NodeId → Nat} (ranked : a.isRanked rank = true) (x : NodeId) :
    ¬ a.Recurs x := by
  have step {x y : NodeId} (leads : a.Leads x y) : rank y < rank x := by
    obtain ⟨k, held, goes⟩ := leads
    have here := List.all_eq_true.1 ranked x (List.mem_range.2 (lt_size_of_kind? held))
    rw [held, Option.all_some, List.all_eq_true] at here
    refine of_decide_eq_true (here y (List.mem_append.2 (goes.imp_right ?_)))
    rintro ⟨target, name, rfl, code⟩
    exact List.mem_flatMap.2 ⟨target, List.mem_singleton.2 rfl, code⟩
  have way {x y : NodeId} (way : Relation.TransGen a.Leads x y) : rank y < rank x := by
    induction way with
    | single leads => exact step leads
    | tail _ leads ih => exact (step leads).trans ih
  exact fun recurs => absurd (way recurs) (lt_irrefl _)

theorem idxOf_lt_of_sublist {l : List NodeId} (once : l.Nodup) {x y : NodeId} (sub : [x, y].Sublist l) :
    l.idxOf x < l.idxOf y := by
  induction l with
  | nil => cases sub
  | cons z l ih =>
    obtain ⟨fresh, once⟩ := List.nodup_cons.1 once
    cases sub with
    | cons _ sub =>
      have first : x ≠ z := fun same => fresh (same ▸ sub.subset (by simp))
      have second : y ≠ z := fun same => fresh (same ▸ sub.subset (by simp))
      rw [List.idxOf_cons_ne _ first.symm, List.idxOf_cons_ne _ second.symm]
      exact Nat.succ_lt_succ (ih once sub)
    | cons_cons _ sub =>
      have second : y ≠ x := fun same => fresh (same ▸ sub.subset (by simp))
      rw [List.idxOf_cons_self, List.idxOf_cons_ne _ second.symm]
      exact Nat.succ_pos _

namespace Tree

variable {a : Arena} {t s : Tree} {x y z : NodeId} {k : Kind}

mutual
def finished : Tree → List NodeId
  | node id _ parts => finishedOf parts ++ [id]
def finishedOf : List Tree → List NodeId
  | [] => []
  | t :: rest => t.finished ++ finishedOf rest
end

theorem finishedOf_append (ts us : List Tree) : finishedOf (ts ++ us) = finishedOf ts ++ finishedOf us := by
  induction ts with
  | nil => rfl
  | cons t ts ih => simp [finishedOf, ih]

mutual
theorem finished_perm : (t : Tree) → t.finished.Perm t.ids
  | node id _ parts => by
    rw [finished, ids]
    exact (List.perm_append_singleton id _).trans ((finishedOf_perm parts).cons id)
theorem finishedOf_perm : (ts : List Tree) → (finishedOf ts).Perm (idsOf ts)
  | [] => .refl _
  | t :: rest => by
    rw [finishedOf, idsOf]
    exact (finished_perm t).append (finishedOf_perm rest)
end

theorem finished_sublist (part : s ∈ t.parts) : s.finished.Sublist (finishedOf t.parts) := by
  obtain ⟨before, after, same⟩ := List.append_of_mem part
  rw [same, finishedOf_append, finishedOf]
  exact (List.sublist_append_left _ _).trans (List.sublist_append_right _ _)

theorem StandsIn.finished_within (stands : t.StandsIn a) (standing : s.StandsIn a) (inside : s.id ∈ t.ids) :
    s.finished.Sublist t.finished := by
  induction t with
  | node id kind parts ih =>
    obtain top | below := List.mem_cons.1 inside
    · obtain rfl := standing.unique stands top
      exact .refl _
    · obtain ⟨u, part, below⟩ := mem_idsOf.1 below
      have inner : u.finished.Sublist (finishedOf parts) := finished_sublist (t := .node id kind parts) part
      exact ((ih u part (stands.child part) below).trans inner).trans (List.sublist_append_left _ _)

namespace Sighted

variable (sighted : t.Sighted a)

include sighted

theorem child_first (live : x ∈ t.ids) (held : a.kind? x = some k) (child : y ∈ k.children) :
    t.finished.idxOf y < t.finished.idxOf x := by
  obtain ⟨s, rfl, standing⟩ := sighted.stands.exists_at live
  obtain ⟨u, part, rfl⟩ := standing.child_at held child
  refine idxOf_lt_of_sublist ((finished_perm t).nodup_iff.2 sighted.once)
    (List.Sublist.trans ?_ (sighted.stands.finished_within standing live))
  obtain ⟨id, kind, parts⟩ := s
  have inner : u.id ∈ finishedOf parts := (finishedOf_perm parts).mem_iff.2 (mem_idsOf.2 ⟨u, part, u.id_mem_ids⟩)
  exact (List.singleton_sublist.2 inner).append (.refl [id])

theorem value_first {b v next : NodeId} {name shown : String} (live : x ∈ t.ids) (held : a.kind? x = some (.reference b
    shown)) (binding : a.kind? b = some (.binding name v next)) : t.finished.idxOf v < t.finished.idxOf x := by
  obtain ⟨above, s, rfl, standing, below⟩ := sighted.named_let live held binding
  obtain ⟨u, rfl, whole⟩ := sighted.stands.exists_at above
  refine idxOf_lt_of_sublist ((finished_perm t).nodup_iff.2 sighted.once)
    (List.Sublist.trans ?_ (sighted.stands.finished_within whole above))
  obtain ⟨id, kind, parts⟩ := u
  cases binding.symm.trans whole.held
  obtain ⟨value, last, rfl, rfl, same⟩ : ∃ value last : Tree, parts = [value, last] ∧ value.id = v ∧ last.id = s.id := by
    obtain ⟨value, rest, rfl, first, others⟩ := List.map_eq_cons_iff.1 whole.filled.symm
    obtain ⟨last, rfl, second⟩ := List.map_eq_singleton_iff.1 others
    exact ⟨value, last, rfl, first, second⟩
  obtain rfl := (whole.child (by simp)).unique standing same
  have first : value.id ∈ value.finished := (finished_perm value).mem_iff.2 value.id_mem_ids
  have second : x ∈ last.finished := (finished_perm last).mem_iff.2 below
  simp only [finished, finishedOf, List.append_nil, List.append_assoc]
  exact (List.singleton_sublist.2 first).append
    ((List.singleton_sublist.2 second).trans (List.sublist_append_left _ _))

theorem named_top {target : NodeId} {name : String} (live : x ∈ t.ids)
    (held : a.kind? x = some (.reference target name)) (self : target ∈ a.code target) : t.AtTop a x target := by
  refine (sighted.sight live held).resolve_right ?_
  rintro ⟨z, above, k, s, binder, bound, -⟩
  obtain ⟨rfl, shown, v, next, rfl⟩ | ⟨shown, declared, param⟩ := sighted.bound_kind above binder bound
  · rw [Arena.code, binder] at self
    exact sighted.child_ne above binder (by simp [Kind.children]) (List.mem_singleton.1 self).symm
  · rw [Arena.code, param] at self
    cases self

theorem leads_cases (live : x ∈ t.ids) (leads : a.Leads x y) : (∃ k, a.kind? x = some k ∧ y ∈ k.entered) ∨
    (∃ b shown name next, a.kind? x = some (.reference b shown) ∧ a.kind? b = some (.binding name y next)) ∨
    ∃ name, a.kind? x = some (.reference y name) ∧ y ∈ a.code y ∧ t.AtTop a x y := by
  obtain ⟨k, held, part | ⟨target, name, rfl, code⟩⟩ := leads
  · exact .inl ⟨k, held, part⟩
  · obtain ⟨shown, v, next, binding, lone⟩ | ⟨-, none_ | lone⟩ := a.code_cases target
    · obtain rfl := List.mem_singleton.1 (lone ▸ code)
      exact .inr (.inl ⟨target, name, shown, next, held, binding⟩)
    · cases none_ ▸ code
    · obtain rfl := List.mem_singleton.1 (lone ▸ code)
      exact .inr (.inr ⟨name, held, code, sighted.named_top live held code⟩)

theorem leads_first (live : x ∈ t.ids) (leads : a.Leads x y) :
    t.finished.idxOf y < t.finished.idxOf x ∨ ∃ k, a.kind? y = some k ∧ k.isEntry = true := by
  obtain ⟨k, held, part⟩ | ⟨b, shown, name, next, held, binding⟩ | ⟨name, held, self, top⟩ :=
    sighted.leads_cases live leads
  · exact .inl (sighted.child_first live held (Kind.mem_children_of_entered part))
  · exact .inl (sighted.value_first live held binding)
  · obtain ⟨k, there, global⟩ := sighted.top_global top
    refine .inr ⟨k, there, ?_⟩
    cases k with
    | definition | column => simp [Arena.code, there] at self
    | derived | assignment | function => rfl
    | _ => cases global

theorem way_first (live : x ∈ t.ids) (way : Relation.TransGen a.Leads x y) : t.finished.idxOf y < t.finished.idxOf x ∨ ∃
    z k, a.Reaches x z ∧ a.kind? z = some k ∧ k.isEntry = true ∧ a.Reaches z y := by
  induction way with
  | @single y leads =>
    obtain first | ⟨k, held, entry⟩ := sighted.leads_first live leads
    · exact .inl first
    · exact .inr ⟨y, k, .single leads, held, entry, .refl⟩
  | @tail y z way leads ih =>
    have there := sighted.reaches_mem live way.to_reflTransGen
    obtain first | ⟨w, k, before, held, entry, after⟩ := ih
    · obtain next | ⟨k, held, entry⟩ := sighted.leads_first there leads
      · exact .inl (next.trans first)
      · exact .inr ⟨z, k, way.to_reflTransGen.tail leads, held, entry, .refl⟩
    · exact .inr ⟨w, k, before, held, entry, after.tail leads⟩

theorem acyclic (plain : ∀ z ∈ t.ids, ∀ k, a.kind? z = some k → k.isEntry = true → ¬ a.Recurs z)
    (live : x ∈ t.ids) : ¬ a.Recurs x := by
  intro way
  obtain first | ⟨z, k, before, held, entry, after⟩ := sighted.way_first live way
  · exact lt_irrefl _ first
  · exact plain z (sighted.reaches_mem live before) k held entry
      ((Relation.TransGen.trans_right after way).trans_left before)

theorem binder_unique {z' : NodeId} {k' : Kind} (live : z ∈ t.ids) (live' : z' ∈ t.ids) (held : a.kind? z = some k)
    (held' : a.kind? z' = some k') (bound : y ∈ k.binds z) (bound' : y ∈ k'.binds z') : z = z' := by
  have param {w : NodeId} {l : Kind} {shown : String} {declared : Option Ty} (there : a.kind? w = some l)
      (binds : y ∈ l.binds w) (leaf : a.kind? y = some (.param shown declared)) : y ∈ l.children := by
    obtain rfl | child := Kind.mem_binds binds
    · cases there.symm.trans leaf
      cases binds
    · exact child
  obtain ⟨rfl, _, _, _, rfl⟩ | ⟨_, _, leaf⟩ := sighted.bound_kind live held bound
  · obtain ⟨rfl, -⟩ | ⟨_, _, leaf⟩ := sighted.bound_kind live' held' bound'
    · rfl
    · cases held.symm.trans leaf
  · exact sighted.stands.parent_unique sighted.once live live' held held' (param held bound leaf)
      (param held' bound' leaf)

theorem top_closed {w : NodeId} (top : t.AtTop a w x) (y : NodeId) : ¬ a.Free x y := by
  intro free
  have live : x ∈ t.ids := by
    cases top with
    | listed inside held listed => exact sighted.child_mem inside held (Kind.mem_children_of_lists listed)
    | own inside held => exact sighted.child_mem inside held (by simp [Kind.children])
  obtain ⟨z, above, covers⟩ := sighted.covered live free
  exact sighted.top_uncovered top above covers

theorem ordered (plain : ∀ z ∈ t.ids, ∀ k, a.kind? z = some k → k.isEntry = true → ¬ a.Recurs z)
    (live : x ∈ t.ids) (closed : ∀ y, ¬ a.Free x y) : a.Ordered x where
  closed := closed
  outside reaches held self _ := sighted.closed (sighted.reaches_mem live reaches) held self
  acyclic reaches := sighted.acyclic plain (sighted.reaches_mem live reaches)
  binder reaches reaches' held held' bound bound' := .inl <| sighted.binder_unique
    (sighted.reaches_mem live reaches) (sighted.reaches_mem live reaches') held held' bound bound'

end Sighted

end Tree

end DerivedTables
