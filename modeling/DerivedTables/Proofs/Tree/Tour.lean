import DerivedTables.Proofs.Tree.Copying
import DerivedTables.Proofs.Tree.Rose
import DerivedTables.Tree.Walk

/-!
Walks that leave the shape of the tree as it is.
-/

namespace DerivedTables

theorem Arena.kind?_setKind (a : Arena) (x y : NodeId) (k : Kind) :
    (a.setKind x k).kind? y = if x = y then (a.kind? y).map fun _ => k else a.kind? y := by
  simp only [Arena.setKind, kind?, node?_modify]
  split <;> simp [Option.map_map, Function.comp_def]

def Arena.SameSlots (a b : Arena) : Prop :=
  ∀ x, (b.kind? x).map Kind.children = (a.kind? x).map Kind.children

namespace Arena.SameSlots

theorem refl (a : Arena) : a.SameSlots a := fun _ => rfl

theorem trans {a b c : Arena} (first : a.SameSlots b) (second : b.SameSlots c) : a.SameSlots c :=
  fun x => (second x).trans (first x)

end Arena.SameSlots

namespace Pass

variable {ε ω : Type}

structure Reads {α : Type} (m : Pass ε ω α) (gives : α → Prop) : Prop where
  run : ∀ {w x w'}, m w = .ok x w' → w'.arena = w.arena ∧ gives x

namespace Reads

variable {α β : Type} {m : Pass ε ω α} {f : α → Pass ε ω β} {known : α → Prop} {gives : β → Prop}

theorem bind (first : Reads m known) (second : ∀ x, known x → Reads (f x) gives) : Reads (m >>= f) gives := by
  refine ⟨fun done => ?_⟩
  obtain ⟨x, w₁, ran, rest⟩ := bind_eq_ok.1 done
  obtain ⟨same, here⟩ := first.run ran
  obtain ⟨same', there⟩ := (second x here).run rest
  exact ⟨same'.trans same, there⟩

theorem pure {x : β} (here : gives x) : Reads (pure x : Pass ε ω β) gives :=
  ⟨fun done => by cases done; exact ⟨rfl, here⟩⟩

theorem throw (e : ε) : Reads (throw e : Pass ε ω β) gives := ⟨fun done => by cases done⟩

theorem notes : Reads (Pass.notes : Pass ε ω ω) fun _ => True :=
  ⟨fun done => by cases done; exact ⟨rfl, trivial⟩⟩

theorem modifyNotes (change : ω → ω) : Reads (Pass.modifyNotes change : Pass ε ω Unit) fun _ => True :=
  ⟨fun done => by cases done; exact ⟨rfl, trivial⟩⟩

theorem forM {f : β → Pass ε ω Unit} (each : ∀ x, Reads (f x) fun _ => True) (xs : List β) :
    Reads (xs.forM f) fun _ => True := by
  induction xs with
  | nil => exact .pure trivial
  | cons x xs ih => exact (each x).bind fun _ _ => ih

end Reads

variable [OfTreeError ε]

theorem node_of_some {id : NodeId} {n : Node} {w : Workspace ω} (held : w.arena.node? id = some n) :
    (node id : Pass ε ω Node) w = .ok n w := by
  rw [node, bind_of_ok (arena_run w), held]
  rfl

theorem kind_of_some {id : NodeId} {k : Kind} {w : Workspace ω} (held : w.arena.kind? id = some k) :
    (kind id : Pass ε ω Kind) w = .ok k w := by
  obtain ⟨n, found, rfl⟩ := Option.map_eq_some_iff.1 held
  rw [kind, bind_of_ok (node_of_some found)]
  rfl

theorem Reads.kind (id : NodeId) : Reads (Pass.kind id : Pass ε ω Kind) fun _ => True :=
  ⟨fun done => by rw [(kind_run done).1]; exact ⟨rfl, trivial⟩⟩

end Pass

namespace Visitor

variable {ε ω σ : Type} [OfTreeError ε] {v : Visitor ε ω σ} {fuel : Nat} {id : NodeId}
  {lineage : Lineage} {state : σ} {w w₁ : Workspace ω} {k₀ k : Kind} {entry : Entry σ}

theorem visit_kept (there : w.arena.kind? id = some k₀)
    (entered : v.before id lineage state w = .ok entry w₁) (stays : entry.replacement = none)
    (held : w₁.arena.kind? id = some k) : v.visit (fuel + 1) id lineage state w = (do
      let children ← k.children.mapM fun child => v.visit fuel child (id :: lineage) (entry.state.getD state)
      if children ≠ k.children then Pass.setKind id (k.withChildren children)
      return (← v.after id lineage (entry.state.getD state)).getD id) w₁ := by
  obtain ⟨n, found, -⟩ := Option.map_eq_some_iff.1 there
  rw [visit, bind_of_ok (discard_of_ok (Pass.node_of_some found)), bind_of_ok entered]
  simp only [stays, Option.getD_none, ne_eq, not_true_eq_false, if_false]
  rw [bind_of_ok (Pass.kind_of_some held)]

theorem visit_children {w₂ : Workspace ω} {children : List NodeId}
    (there : w.arena.kind? id = some k₀) (entered : v.before id lineage state w = .ok entry w₁)
    (stays : entry.replacement = none) (held : w₁.arena.kind? id = some k)
    (visited : (k.children.mapM fun child => v.visit fuel child (id :: lineage)
      (entry.state.getD state)) w₁ = .ok children w₂) :
    v.visit (fuel + 1) id lineage state w =
      (do return (← v.after id lineage (entry.state.getD state)).getD id : Pass ε ω NodeId)
        { w₂ with arena := if children = k.children then w₂.arena
            else w₂.arena.setKind id (k.withChildren children) } := by
  rw [visit_kept there entered stays held, bind_of_ok visited]
  by_cases kept : children = k.children
  · rw [if_neg (not_not_intro kept), if_pos kept]
  · rw [if_pos kept, if_neg kept]
    rfl

theorem visit_replaced {here : NodeId} (there : w.arena.kind? id = some k₀)
    (entered : v.before id lineage state w = .ok entry w₁) (goes : entry.replacement = some here) (other : here ≠ id) :
    v.visit (fuel + 1) id lineage state w = v.visit fuel here lineage (entry.state.getD state) w₁ := by
  obtain ⟨n, found, -⟩ := Option.map_eq_some_iff.1 there
  rw [visit, bind_of_ok (discard_of_ok (Pass.node_of_some found)), bind_of_ok entered]
  simp [goes, other]

/-- What a visit that succeeded did. -/
theorem visit_cases {r : NodeId} {w' : Workspace ω}
    (done : v.visit (fuel + 1) id lineage state w = .ok r w') :
    ∃ k₀ entry w₁, w.arena.kind? id = some k₀ ∧ v.before id lineage state w = .ok entry w₁ ∧
      ((∃ here, entry.replacement = some here ∧ here ≠ id ∧
          v.visit fuel here lineage (entry.state.getD state) w₁ = .ok r w') ∨
        (entry.replacement.getD id = id ∧ ∃ k children w₂ result,
          w₁.arena.kind? id = some k ∧
          (k.children.mapM fun child => v.visit fuel child (id :: lineage)
            (entry.state.getD state)) w₁ = .ok children w₂ ∧
          v.after id lineage (entry.state.getD state)
            { w₂ with arena := if children = k.children then w₂.arena
                else w₂.arena.setKind id (k.withChildren children) } = .ok result w' ∧
          r = result.getD id)) := by
  rw [visit] at done
  obtain ⟨_, w₀, node_read, entering⟩ := bind_eq_ok.1 done
  obtain ⟨n, w₀', node_found, there⟩ := bind_eq_ok.1 node_read
  obtain ⟨rfl, found⟩ := Pass.node_run node_found
  cases there
  obtain ⟨entry, w₁, entered, going⟩ := bind_eq_ok.1 entering
  refine ⟨n.kind, entry, w₁, by simp [Arena.kind?, found], entered, ?_⟩
  split at going
  · rename_i other
    cases goes : entry.replacement with
    | none => simp [goes] at other
    | some here =>
      simp only [goes, Option.getD_some] at going other
      exact .inl ⟨here, rfl, other, going⟩
  · rename_i same
    obtain ⟨k, w₁', kind_read, visiting⟩ := bind_eq_ok.1 going
    obtain ⟨rfl, held⟩ := Pass.kind_run kind_read
    obtain ⟨children, w₂, visited, leaving⟩ := bind_eq_ok.1 visiting
    refine .inr ⟨not_not.1 same, k, children, w₂, ?_⟩
    by_cases kept : children = k.children
    · rw [if_neg (not_not_intro kept)] at leaving
      obtain ⟨result, w₃, left, last⟩ := bind_eq_ok.1 leaving
      cases last
      exact ⟨result, held, visited, by simpa [kept] using left, rfl⟩
    · rw [if_pos kept] at leaving
      obtain ⟨_, w₃, wrote, leaving⟩ := bind_eq_ok.1 leaving
      cases wrote
      obtain ⟨result, w₃, left, last⟩ := bind_eq_ok.1 leaving
      cases last
      exact ⟨result, held, visited, by simpa [kept] using left, rfl⟩

theorem visit_not_entered {e : ε} (there : w.arena.kind? id = some k₀)
    (failed : v.before id lineage state w = .error e w₁) : v.visit (fuel + 1) id lineage state w = .error e w₁ := by
  obtain ⟨n, found, -⟩ := Option.map_eq_some_iff.1 there
  rw [visit, bind_of_ok (discard_of_ok (Pass.node_of_some found)), bind_of_error failed]

end Visitor

namespace Tree

inductive Shapes (a : Arena) : Tree → Prop
  | node {id : NodeId} {kind : Kind} {parts : List Tree}
    (slots : (a.kind? id).map Kind.children = some (parts.map Tree.id))
    (each : ∀ t ∈ parts, Shapes a t) : Shapes a (node id kind parts)

theorem StandsIn.shapes {a : Arena} {t : Tree} (stands : t.StandsIn a) : t.Shapes a := by
  induction stands with
  | node held slots _ ih => exact .node (by simp [held, slots]) ih

theorem Shapes.congr {a b : Arena} {t : Tree} (shapes : t.Shapes a) (same : a.SameSlots b) : t.Shapes b := by
  induction shapes with
  | node slots _ ih => exact .node ((same _).trans slots) ih

variable {ε ω σ : Type}

mutual
def tour (v : Visitor ε ω σ) (lineage : Lineage) (state : σ) : Tree → Pass ε ω Unit
  | node id _ parts => do
    let entry ← v.before id lineage state
    tourAll v (id :: lineage) (entry.state.getD state) parts
    discard (v.after id lineage (entry.state.getD state))
def tourAll (v : Visitor ε ω σ) (lineage : Lineage) (state : σ) : List Tree → Pass ε ω Unit
  | [] => return ()
  | t :: rest => do
    t.tour v lineage state
    tourAll v lineage state rest
end

end Tree

namespace Visitor

variable {ε ω σ : Type}

structure Quiet (v : Visitor ε ω σ) : Prop where
  before : ∀ {id lineage state w entry w'}, v.before id lineage state w = .ok entry w' →
    entry.replacement = none ∧ w.arena.SameSlots w'.arena
  after : ∀ {id lineage state w result w'}, v.after id lineage state w = .ok result w' →
    result = none ∧ w.arena.SameSlots w'.arena

namespace Quiet

variable {v : Visitor ε ω σ}

mutual
theorem tour_slots (quiet : v.Quiet) : (t : Tree) → (lineage : Lineage) → (state : σ) →
    (w w' : Workspace ω) → t.tour v lineage state w = .ok () w' → w.arena.SameSlots w'.arena
  | .node id kind parts, lineage, state, w, w', done => by
    rw [Tree.tour] at done
    obtain ⟨entry, w₁, entered, done⟩ := bind_eq_ok.1 done
    obtain ⟨_, w₂, toured, done⟩ := bind_eq_ok.1 done
    obtain ⟨result, w₃, left, done⟩ := bind_eq_ok.1 done
    cases done
    exact ((quiet.before entered).2.trans (quiet.tourAll_slots parts _ _ _ _ toured)).trans
      (quiet.after left).2
theorem tourAll_slots (quiet : v.Quiet) : (ts : List Tree) → (lineage : Lineage) → (state : σ) →
    (w w' : Workspace ω) → Tree.tourAll v lineage state ts w = .ok () w' →
      w.arena.SameSlots w'.arena
  | [], lineage, state, w, w', done => by
    cases done
    exact .refl _
  | t :: rest, lineage, state, w, w', done => by
    rw [Tree.tourAll] at done
    obtain ⟨_, w₁, toured, done⟩ := bind_eq_ok.1 done
    exact (quiet.tour_slots t _ _ _ _ toured).trans (quiet.tourAll_slots rest _ _ _ _ done)
end

variable [OfTreeError ε]

theorem mapM_visit_eq_tourAll (quiet : v.Quiet) {fuel : Nat} {ts : List Tree}
    (each : ∀ t ∈ ts, ∀ {lineage state w}, t.Shapes w.arena →
      v.visit fuel t.id lineage state w = (do t.tour v lineage state; return t.id) w)
    (lineage : Lineage) (state : σ) {w : Workspace ω} (shapes : ∀ t ∈ ts, t.Shapes w.arena) :
    ((ts.map Tree.id).mapM fun child => v.visit fuel child lineage state) w =
      (do Tree.tourAll v lineage state ts; return ts.map Tree.id) w := by
  induction ts generalizing w with
  | nil => rfl
  | cons t rest ih =>
    rw [List.map_cons, List.mapM_cons, Tree.tourAll]
    cases toured : t.tour v lineage state w with
    | error e w' =>
      rw [bind_of_error, bind_of_error]
      · exact bind_of_error toured
      · rw [each t (by simp) (shapes t (by simp))]
        exact bind_of_error toured
    | ok u w' =>
      have slots := quiet.tour_slots t _ _ _ _ toured
      have here : v.visit fuel t.id lineage state w = .ok t.id w' := by
        rw [each t (by simp) (shapes t (by simp)), bind_of_ok toured]
        rfl
      have there := ih (fun s listed => each s (.tail _ listed))
        (fun s listed => (shapes s (.tail _ listed)).congr slots)
      rw [bind_of_ok here, bind_assoc, bind_of_ok toured]
      cases rest_toured : Tree.tourAll v lineage state rest w' with
      | error e w'' =>
        rw [bind_of_error rest_toured] at there
        rw [bind_of_error there, bind_of_error rest_toured]
      | ok u w'' =>
        rw [bind_of_ok rest_toured] at there
        rw [bind_of_ok there, bind_of_ok rest_toured]

theorem visit_eq_tour (quiet : v.Quiet) {t : Tree} {fuel : Nat} (enough : t.height ≤ fuel)
    {lineage : Lineage} {state : σ} {w : Workspace ω} (shapes : t.Shapes w.arena) :
    v.visit fuel t.id lineage state w = (do t.tour v lineage state; return t.id) w := by
  induction t generalizing fuel lineage state w with
  | node id kind parts ih =>
    cases fuel with
    | zero => simp [Tree.height] at enough
    | succ fuel =>
      simp only [Tree.height, Nat.add_le_add_iff_right] at enough
      obtain ⟨slots, each⟩ : (w.arena.kind? id).map Kind.children = some (parts.map Tree.id) ∧
          ∀ t ∈ parts, t.Shapes w.arena := by
        cases shapes with
        | node slots each => exact ⟨slots, each⟩
      obtain ⟨k₀, there, -⟩ := Option.map_eq_some_iff.1 slots
      rw [Tree.tour, bind_assoc]
      cases entered : v.before id lineage state w with
      | error e w₁ => rw [Tree.id_node, visit_not_entered there entered, bind_of_error entered]
      | ok entry w₁ =>
        obtain ⟨stays, same⟩ := quiet.before entered
        obtain ⟨k, held, children⟩ := Option.map_eq_some_iff.1 ((same id).trans slots)
        have below := quiet.mapM_visit_eq_tourAll
          (fun t listed {_ _ _} => ih t listed ((Tree.height_le_heightOf listed).trans enough))
          (id :: lineage) (entry.state.getD state) (fun t listed => (each t listed).congr same)
        rw [Tree.id_node, visit_kept there entered stays held, bind_of_ok entered, children]
        cases toured : Tree.tourAll v (id :: lineage) (entry.state.getD state) parts w₁ with
        | error e w₂ =>
          rw [bind_of_error toured] at below
          rw [bind_of_error below, bind_assoc, bind_of_error toured]
        | ok u w₂ =>
          rw [bind_of_ok toured] at below
          rw [bind_of_ok below, bind_assoc, bind_of_ok toured, if_neg (not_not_intro rfl)]
          beta_reduce
          cases left : v.after id lineage (entry.state.getD state) w₂ with
          | error e w₃ => rw [bind_of_error left, bind_of_error (discard_of_error left)]
          | ok result w₃ =>
            rw [bind_of_ok left, bind_of_ok (discard_of_ok left), (quiet.after left).1]
            rfl

end Quiet

variable [OfTreeError ε] {v : Visitor ε ω σ} {state : σ} {w : Workspace ω} {t : Tree}

theorem visit_of_idle (entering : ∀ x ∈ t.ids, ∀ lineage, v.before x lineage state w = .ok .keep w)
    (leaving : ∀ x ∈ t.ids, ∀ lineage, v.after x lineage state w = .ok none w) (stands : t.StandsIn w.arena)
    {fuel : Nat} (enough : t.height ≤ fuel) (lineage : Lineage) : v.visit fuel t.id lineage state w = .ok t.id w := by
  induction t generalizing fuel lineage with
  | node id kind parts ih =>
    cases fuel with
    | zero => simp [Tree.height] at enough
    | succ fuel =>
      simp only [Tree.height, Nat.add_le_add_iff_right] at enough
      have below : ∀ us : List Tree, (∀ u ∈ us, u ∈ parts) → ((us.map Tree.id).mapM fun child =>
          v.visit fuel child (id :: lineage) state) w = .ok (us.map Tree.id) w := by
        intro us listed
        induction us with
        | nil => rfl
        | cons u us more =>
          rw [List.forall_mem_cons] at listed
          have within (x : NodeId) (inside : x ∈ u.ids) : x ∈ (Tree.node id kind parts).ids :=
            List.mem_cons_of_mem _ (Tree.mem_idsOf.2 ⟨u, listed.1, inside⟩)
          have visited := ih u listed.1 (fun x inside => entering x (within x inside))
            (fun x inside => leaving x (within x inside)) (stands.child listed.1)
            ((Tree.height_le_heightOf listed.1).trans enough) (id :: lineage)
          rw [List.map_cons, List.mapM_cons, bind_of_ok visited, bind_of_ok (more listed.2)]
          rfl
      have entered := entering id (Tree.id_mem_ids (.node id _ _)) lineage
      rw [Tree.id_node, visit_kept stands.held entered rfl stands.held, stands.filled]
      refine (bind_of_ok (below parts fun _ part => part)).trans ?_
      rw [if_neg (not_not_intro rfl)]
      exact bind_of_ok (leaving id (Tree.id_mem_ids (.node id _ _)) lineage)

end Visitor

end DerivedTables
