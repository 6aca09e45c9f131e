import DerivedTables.Lowering
import DerivedTables.Proofs.Tree.Rewriting

/-!
Making the ends of branches go on elsewhere.
-/

namespace DerivedTables

namespace Tree

open Lowering

variable {parent : Kind} {ts : List Tree} {x : NodeId}

mutual
/-- The nulls that end a branch, outside of functions. -/
def endings (parent : Kind) : Tree → List NodeId
  | node id .null _ => if endsBranch parent id then [id] else []
  | node _ (.function ..) _ => []
  | node _ kind parts => endingsOf kind parts
def endingsOf (parent : Kind) : List Tree → List NodeId
  | [] => []
  | t :: rest => t.endings parent ++ endingsOf parent rest
end

mutual
/-- The second tree is the first one with a reference in the place of each null that is picked, and
of nothing else. -/
def Continued (picked : NodeId → Prop) (target : NodeId) (name : String) : Tree → Tree → Prop
  | node id kind parts, t' =>
    (kind = .null ∧ picked id ∧ ∃ fresh, t' = node fresh (.reference target name) []) ∨
      (¬ (kind = .null ∧ picked id) ∧ ∃ parts', ContinuedAll picked target name parts parts' ∧
        t' = node id (kind.withChildren (parts'.map Tree.id)) parts')
def ContinuedAll (picked : NodeId → Prop) (target : NodeId) (name : String) :
    List Tree → List Tree → Prop
  | [], [] => True
  | t :: rest, t' :: rest' =>
    Continued picked target name t t' ∧ ContinuedAll picked target name rest rest'
  | _, _ => False
end

variable {picked chosen : NodeId → Prop} {target : NodeId} {name : String}

mutual
def nulls : Tree → List NodeId
  | node id .null _ => [id]
  | node _ _ parts => nullsOf parts
def nullsOf : List Tree → List NodeId
  | [] => []
  | t :: rest => t.nulls ++ nullsOf rest
end

theorem nulls_node {id : NodeId} {kind : Kind} {parts : List Tree} (other : kind ≠ .null) :
    (node id kind parts).nulls = nullsOf parts := by
  cases kind <;> first | rfl | exact absurd rfl other

theorem mem_nullsOf : x ∈ nullsOf ts ↔ ∃ t ∈ ts, x ∈ t.nulls := by
  induction ts with
  | nil => simp [nullsOf]
  | cons t rest ih => simp [nullsOf, ih]

theorem mem_endingsOf : x ∈ endingsOf parent ts ↔ ∃ t ∈ ts, x ∈ t.endings parent := by
  induction ts with
  | nil => simp [endingsOf]
  | cons t rest ih => simp [endingsOf, ih]

theorem nulls_subset {t : Tree} (listed : x ∈ t.nulls) : x ∈ t.ids := by
  induction t with
  | node id kind parts ih =>
    by_cases null : kind = .null
    · subst null
      exact List.mem_cons.2 (.inl (by simpa [nulls] using listed))
    · rw [nulls_node null] at listed
      obtain ⟨t, part, inside⟩ := mem_nullsOf.1 listed
      exact .tail _ (mem_idsOf.2 ⟨t, part, ih t part inside⟩)

theorem endings_nulls {t : Tree} (listed : x ∈ t.endings parent) : x ∈ t.nulls := by
  induction t generalizing parent with
  | node id kind parts ih =>
    cases kind with
    | null =>
      by_cases ends : endsBranch parent id <;> simp_all [endings, nulls]
    | function => cases listed
    | _ =>
      obtain ⟨t, part, inside⟩ := mem_endingsOf.1 listed
      exact mem_nullsOf.2 ⟨t, part, ih t part inside⟩

theorem endingsOf_subset (listed : x ∈ endingsOf parent ts) : x ∈ idsOf ts := by
  obtain ⟨t, part, inside⟩ := mem_endingsOf.1 listed
  exact mem_idsOf.2 ⟨t, part, nulls_subset (endings_nulls inside)⟩

mutual
theorem Continued.congr : (t t' : Tree) → (∀ x ∈ t.ids, picked x ↔ chosen x) →
    Continued picked target name t t' → Continued chosen target name t t'
  | node id kind parts, t', same, continued => by
    have here : picked id ↔ chosen id := same id (by simp [ids])
    rw [Continued, here] at continued
    rw [Continued]
    refine continued.imp_right (And.imp_right ?_)
    rintro ⟨parts', below, rfl⟩
    exact ⟨parts', .congr parts parts' (fun x listed => same x (.tail _ listed)) below,
      rfl⟩
theorem ContinuedAll.congr : (ts ts' : List Tree) → (∀ x ∈ idsOf ts, picked x ↔ chosen x) →
    ContinuedAll picked target name ts ts' → ContinuedAll chosen target name ts ts'
  | [], [], _, _ => trivial
  | t :: rest, t' :: rest', same, ⟨here, there⟩ =>
    ⟨.congr t t' (fun x listed => same x (List.mem_append.2 (.inl listed))) here,
      .congr rest rest' (fun x listed => same x (List.mem_append.2 (.inr listed))) there⟩
end

mutual
theorem Continued.agree : (t t' : Tree) → Continued picked target name t t' →
    Continued chosen target name t t' → ∀ x ∈ t.nulls, (picked x ↔ chosen x)
  | node id kind parts, t', first, second => by
    intro x listed
    by_cases null : kind = .null
    · subst null
      obtain rfl : x = id := by simpa [nulls] using listed
      obtain ⟨-, here, fresh, rfl⟩ | ⟨kept, parts', -, rfl⟩ := first
      · obtain ⟨-, there, -⟩ | ⟨-, _, -, same⟩ := second
        · exact iff_of_true here there
        · cases same
      · obtain ⟨-, -, fresh, same⟩ | ⟨kept', -⟩ := second
        · cases same
        · exact iff_of_false (fun here => kept ⟨rfl, here⟩) fun there => kept' ⟨rfl, there⟩
    · obtain ⟨same, -⟩ | ⟨-, parts', here, rfl⟩ := first
      · exact absurd same null
      obtain ⟨same, -⟩ | ⟨-, parts'', there, same⟩ := second
      · exact absurd same null
      obtain rfl : parts' = parts'' := (node.inj same).2.2
      rw [nulls_node null] at listed
      exact ContinuedAll.agree parts parts' here there x listed
theorem ContinuedAll.agree : (ts ts' : List Tree) → ContinuedAll picked target name ts ts' →
    ContinuedAll chosen target name ts ts' → ∀ x ∈ nullsOf ts, (picked x ↔ chosen x)
  | [], [], _, _ => by simp [nullsOf]
  | t :: rest, t' :: rest', ⟨here, there⟩, ⟨here', there'⟩ => by
    intro x listed
    obtain listed | listed := List.mem_append.1 listed
    · exact Continued.agree t t' here here' x listed
    · exact ContinuedAll.agree rest rest' there there' x listed
end

mutual
theorem Continued.refl {a : Arena} : (t : Tree) → t.StandsIn a → (∀ x ∈ t.ids, ¬ picked x) →
    Continued picked target name t t
  | node id kind parts, stands, free => by
    have slots : kind.children = parts.map Tree.id := stands.slots
    refine .inr ⟨fun both => free id (by simp [ids]) both.2, parts, ?_, ?_⟩
    · exact .refl parts (fun t part => stands.child part) fun x listed =>
        free x (.tail _ listed)
    · rw [← slots, Kind.withChildren_children]
theorem ContinuedAll.refl {a : Arena} : (ts : List Tree) → (∀ t ∈ ts, t.StandsIn a) →
    (∀ x ∈ idsOf ts, ¬ picked x) → ContinuedAll picked target name ts ts
  | [], _, _ => trivial
  | t :: rest, stand, free =>
    ⟨.refl t (stand t (by simp)) fun x listed => free x (List.mem_append.2 (.inl listed)),
      .refl rest (fun s listed => stand s (.tail _ listed)) fun x listed =>
        free x (List.mem_append.2 (.inr listed))⟩
end

theorem ContinuedAll.length_eq : {ts ts' : List Tree} → ContinuedAll picked target name ts ts' →
    ts.length = ts'.length
  | [], [], _ => rfl
  | _ :: _, _ :: _, ⟨_, rest⟩ => congrArg (· + 1) rest.length_eq

end Tree

namespace Lowering

open Tree

variable {binding : NodeId} {name : String} {fuel : Nat} {id : NodeId} {lineage : Lineage}
  {state : Bool} {w : Workspace Nat} {k : Kind}
variable {parts : List Tree}

def entered : Kind → Entry Bool
  | .function .. => .withState true
  | _ => .keep

theorem before_run (held : w.arena.kind? id = some k) :
    (fallThrough binding name).before id lineage state w = .ok (entered k) w := by
  change (do match ← Pass.kind id with | .function .. => return .withState true | _ => return .keep :
    LowerPass (Entry Bool)) w = _
  rw [bind_of_ok (Pass.kind_of_some held)]
  cases k <;> rfl

theorem after_run (held : w.arena.kind? id = some k) (other : state = true ∨ k ≠ .null) :
    (fallThrough binding name).after id lineage state w = .ok none w := by
  unfold fallThrough
  dsimp only
  rw [bind_of_ok (Pass.kind_of_some held), bind_of_ok (Pass.arena_run w)]
  generalize lineage.head?.bind w.arena.kind? = parent
  split
  · simp at other
  · rfl

theorem after_null {parent : NodeId} {pk : Kind} (held : w.arena.kind? id = some .null)
    (above : w.arena.kind? parent = some pk) :
    (fallThrough binding name).after id (parent :: lineage) false w =
      if endsBranch pk id then .ok (some w.arena.size)
        { w with arena := w.arena.push ⟨.reference binding name, none, none⟩ }
      else .ok none w := by
  unfold fallThrough
  dsimp only
  rw [bind_of_ok (Pass.kind_of_some held), bind_of_ok (Pass.arena_run w)]
  simp only [List.head?_cons, Option.bind_some, above]
  split <;> rfl

theorem replacement_entered (k : Kind) : (entered k).replacement = none := by
  cases k <;> rfl

theorem mapM_visit {ts : List Tree}
    (each : ∀ t ∈ ts, (fallThrough binding name).visit fuel t.id lineage state w = .ok t.id w) :
    ((ts.map Tree.id).mapM fun child => (fallThrough binding name).visit fuel child lineage state) w = .ok
    (ts.map Tree.id) w := by
  induction ts with
  | nil => rfl
  | cons t rest ih =>
    rw [List.map_cons, List.mapM_cons, bind_of_ok (each t (by simp)),
      bind_of_ok (ih fun s listed => each s (.tail _ listed))]
    rfl

theorem visit_over (stands : (node id k parts).StandsIn w.arena)
    (each : ∀ t ∈ parts, (fallThrough binding name).visit fuel t.id (id :: lineage)
      ((entered k).state.getD state) w = .ok t.id w) : (fallThrough binding name).visit (fuel + 1) id lineage state w =
      (do return (← (fallThrough binding name).after id lineage
        ((entered k).state.getD state)).getD id : LowerPass NodeId) w := by
  rw [Visitor.visit_children stands.held (before_run stands.held) (replacement_entered k) stands.held
    (by rw [stands.filled]; exact mapM_visit each), if_pos stands.filled.symm]

theorem visit_inside (t : Tree) (enough : t.height ≤ fuel) (stands : t.StandsIn w.arena) :
    (fallThrough binding name).visit fuel t.id lineage true w = .ok t.id w := by
  induction t generalizing fuel lineage with
  | node id k parts ih =>
    obtain _ | fuel := fuel
    · simp [height] at enough
    simp only [height, Nat.add_le_add_iff_right] at enough
    have inside : (entered k).state.getD true = true := by cases k <;> rfl
    have each : ∀ t ∈ parts, (fallThrough binding name).visit fuel t.id (id :: lineage)
        ((entered k).state.getD true) w = .ok t.id w := fun t part => by
      rw [inside]
      exact ih t part ((height_le_heightOf part).trans enough) (stands.child part)
    rw [id_node, visit_over stands each, inside, bind_of_ok (after_run stands.held (.inl rfl))]
    rfl

def FallsThrough (binding : NodeId) (name : String) (t : Tree) : Prop :=
  ∀ {fuel lineage parent pk w}, t.height ≤ fuel → t.StandsIn w.arena → t.ids.Nodup →
    w.arena.kind? parent = some pk → parent ∉ t.ids →
    ∃ t' w', (fallThrough binding name).visit fuel t.id (parent :: lineage) false w = .ok t'.id w' ∧
      Rewritten w.arena w'.arena t t' ∧ Continued (· ∈ t.endings pk) binding name t t'

theorem fallsThrough_all {ts : List Tree} (each : ∀ t ∈ ts, FallsThrough binding name t) (lineage : Lineage)
    {parent : NodeId} {pk : Kind} (enough : heightOf ts ≤ fuel) (stand : ∀ t ∈ ts, t.StandsIn w.arena)
    (once : (idsOf ts).Nodup) (above : w.arena.kind? parent = some pk) (apart : parent ∉ idsOf ts) : ∃ ts' w',
    ((ts.map Tree.id).mapM fun child => (fallThrough binding name).visit fuel child (parent :: lineage) false) w = .ok
    (ts'.map Tree.id) w' ∧ RewrittenAll w.arena w'.arena ts ts' ∧ ContinuedAll (· ∈ endingsOf pk ts) binding name ts
    ts' := by
  induction ts generalizing w with
  | nil => exact ⟨[], w, rfl, .nil _, trivial⟩
  | cons t rest ih =>
    simp only [heightOf, Nat.max_le] at enough
    simp only [idsOf, List.mem_append, not_or] at apart
    obtain ⟨once_here, once_there, disjoint⟩ := List.nodup_append.1 once
    have below := Arena.lt_size_of_kind? above
    obtain ⟨t', w₁, visited, rewritten, continued⟩ :=
      each t (by simp) enough.1 (stand t (by simp)) once_here above apart.1
    have untouched {s : Tree} (listed : s ∈ rest) : s.StandsIn w₁.arena := by
      have stood := stand s (.tail _ listed)
      refine stood.congr fun x inside => rewritten.kept (stood.lt_size x inside) fun here => ?_
      exact disjoint x here x (mem_idsOf.2 ⟨s, listed, inside⟩) rfl
    obtain ⟨rest', w₂, others, rewrittenAll, continuedAll⟩ :=
      ih (fun s listed => each s (.tail _ listed)) enough.2
        (fun s listed => untouched listed) once_there
        ((rewritten.kept below apart.1).trans above) apart.2
    refine ⟨t' :: rest', w₂, ?_, .cons rewritten rewrittenAll ?_ ?_, ⟨?_, ?_⟩⟩
    · rw [List.map_cons, List.mapM_cons, bind_of_ok visited, bind_of_ok others]
      rfl
    · intro x listed
      obtain ⟨s, part, inside⟩ := mem_idsOf.1 listed
      exact (stand s (.tail _ part)).lt_size x inside
    · exact fun x here there => disjoint x here x there rfl
    -- An ending of one part is no node of another one.
    · refine continued.congr t t' fun x inside => ?_
      have other : x ∉ endingsOf pk rest := fun listed =>
        disjoint x inside x (endingsOf_subset listed) rfl
      simp [endingsOf, other]
    · refine continuedAll.congr rest rest' fun x inside => ?_
      have other : x ∉ t.endings pk := fun listed =>
        disjoint x (nulls_subset (endings_nulls listed)) x inside rfl
      simp [endingsOf, other]

theorem withChildren_ne_null {filled : List NodeId} (other : k ≠ .null) : k.withChildren filled ≠ .null := by
  intro same
  unfold Kind.withChildren at same
  split at same <;> first | exact other same | cases same

theorem endings_node {parent : Kind} (open_ : entered k = .keep)
    (other : k ≠ .null) : (node id k parts).endings parent = endingsOf k parts := by
  cases k <;> first | rfl | exact absurd rfl other | cases open_

theorem visit_node (each : ∀ t ∈ parts, FallsThrough binding name t) (lineage : Lineage) (open_ : entered k = .keep)
    (other : k ≠ .null) (enough : heightOf parts ≤ fuel) (stands : (node id k parts).StandsIn w.arena)
    (once : (node id k parts).ids.Nodup) : ∃ t' w', (fallThrough binding name).visit (fuel + 1) id lineage false w = .ok
    t'.id w' ∧ Rewritten w.arena w'.arena (node id k parts) t' ∧ Continued (· ∈ endingsOf k parts) binding name
    (node id k parts) t' := by
  have held : w.arena.kind? id = some k := stands.kind
  have slots : k.children = parts.map Tree.id := stands.slots
  obtain ⟨fresh, once_below⟩ := List.nodup_cons.1 once
  obtain ⟨parts', w₁, visited, rewritten, continued⟩ :=
    fallsThrough_all each lineage enough (fun t part => stands.child part) once_below held fresh
  have whole := rewritten.node stands once continued.length_eq
  refine ⟨node id (k.withChildren (parts'.map Tree.id)) parts', { w₁ with arena := _ }, ?_, whole,
    .inr ⟨fun both => other both.1, parts', continued, rfl⟩⟩
  have state : (entered k).state.getD false = false := by rw [open_]; rfl
  rw [Visitor.visit_children held (before_run held) (replacement_entered k) held
    (by rw [state, slots]; exact visited), state, bind_of_ok (after_run whole.stands.kind (.inr ?_))]
  · rfl
  · rw [kind_node]
    exact withChildren_ne_null other

theorem rewritten_null :
    Rewritten w.arena (w.arena.push ⟨.reference binding name, none, none⟩) (node id .null [])
      (node w.arena.size (.reference binding name) []) where
  size := by simp
  kept below _ := (w.arena.extends_push _).kind below
  stands := .node (Arena.kind?_push_size ..) rfl (by simp)
  once := by simp [ids, idsOf]
  origin listed := by simp_all [ids, idsOf]

theorem fallsThrough_null : FallsThrough binding name (node id .null []) := by
  intro fuel lineage parent pk w enough stands once above apart
  obtain _ | fuel := fuel
  · simp [height] at enough
  have left : (fallThrough binding name).visit (fuel + 1) id (parent :: lineage) false w =
      (do return (← (fallThrough binding name).after id (parent :: lineage) false).getD id :
        LowerPass NodeId) w :=
    visit_over stands (by simp)
  have ran : (fallThrough binding name).after id (parent :: lineage) false w = _ :=
    after_null stands.held above
  by_cases ends : endsBranch pk id
  · rw [if_pos ends] at ran
    have pushed : (fallThrough binding name).visit (fuel + 1) id (parent :: lineage) false w =
        .ok w.arena.size { w with arena := w.arena.push ⟨.reference binding name, none, none⟩ } := by
      rw [left, bind_of_ok ran]
      rfl
    exact ⟨node w.arena.size (.reference binding name) [], _, pushed, rewritten_null,
      .inl ⟨rfl, by simp [endings, ends], _, rfl⟩⟩
  · rw [if_neg ends] at ran
    refine ⟨node id .null [], w, ?_, .refl stands once, .refl _ stands (by simp [endings, ends])⟩
    rw [id_node, left, bind_of_ok ran]
    rfl

theorem fallsThrough_function {function : Option String} {params : List NodeId} {body : NodeId}
    : FallsThrough binding name (node id (.function function params body) parts) := by
  intro fuel lineage parent pk w enough stands once above apart
  obtain _ | fuel := fuel
  · simp [height] at enough
  simp only [height, Nat.add_le_add_iff_right] at enough
  refine ⟨_, w, ?_, .refl stands once, .refl _ stands (by simp [endings])⟩
  rw [id_node, visit_over stands fun t part =>
    visit_inside t ((height_le_heightOf part).trans enough) (stands.child part)]
  exact bind_of_ok (after_run stands.held (.inl rfl))

theorem fallsThrough (binding : NodeId) (name : String) (t : Tree) : FallsThrough binding name t := by
  induction t with
  | node id k parts ih =>
    intro fuel lineage parent pk w enough stands once above apart
    by_cases null : k = .null
    · subst null
      obtain rfl : parts = [] := by simpa [Kind.children] using stands.filled
      exact fallsThrough_null enough stands once above apart
    by_cases open_ : entered k = .keep
    · obtain _ | fuel := fuel
      · simp [height] at enough
      simp only [height, Nat.add_le_add_iff_right] at enough
      obtain ⟨t', w', visited, rewritten, continued⟩ :=
        visit_node ih (parent :: lineage) open_ null enough stands once
      exact ⟨t', w', visited, rewritten, by rwa [endings_node open_ null]⟩
    · cases k with
      | function => exact fallsThrough_function enough stands once above apart
      | _ => exact absurd rfl open_

theorem walk_fallThrough {w' : Workspace Nat} {condition thenBranch elseBranch joined : NodeId}

    (stands : (node id (.conditional condition thenBranch elseBranch) parts).StandsIn w.arena)
    (once : (node id (.conditional condition thenBranch elseBranch) parts).ids.Nodup)
    (walked : (fallThrough binding name).walk id false w = .ok joined w') :
    ∃ t', t'.id = joined ∧
      Rewritten w.arena w'.arena (node id (.conditional condition thenBranch elseBranch) parts) t' ∧
      Continued (· ∈ endingsOf (.conditional condition thenBranch elseBranch) parts) binding name
        (node id (.conditional condition thenBranch elseBranch) parts) t' := by
  have enough := stands.height_le_size once
  have below : heightOf parts ≤ w.arena.size := (Nat.le_succ _).trans enough
  obtain ⟨t', w₁, visited, rewritten, continued⟩ :=
    visit_node (fun t _ => fallsThrough binding name t) [] rfl (by simp) below stands once
  rw [Visitor.walk, bind_of_ok (Pass.arena_run w), visited] at walked
  cases walked
  exact ⟨t', rfl, rewritten, continued⟩

end Lowering

end DerivedTables
