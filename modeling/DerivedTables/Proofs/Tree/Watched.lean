import DerivedTables.Proofs.Tree.Paths
import DerivedTables.Proofs.Tree.Tour

/-!
Walks whose hooks only look.
-/

namespace DerivedTables

namespace Arena

variable {a : Arena} {root x : NodeId} {above path : List NodeId}

/-- What is below the node is there, and no way down comes to a node again. -/
structure Acyclic (a : Arena) (root : NodeId) : Prop where
  there : ∀ x above, a.Descends [root] (x :: above) → x < a.size
  once : ∀ path, a.Descends [root] path → path.Nodup

theorem Acyclic.lt_size (acyclic : a.Acyclic root) (descends : a.Descends [root] path) : ∀ x ∈ path, x < a.size := by
  induction descends with
  | here => simpa using acyclic.there root [] .here
  | child way held slot ih =>
    rw [List.forall_mem_cons]
    exact ⟨acyclic.there _ _ (.child way held slot), ih⟩

theorem Acyclic.deeper (acyclic : a.Acyclic root) {d : Nat} (way : a.Descends [root] (x :: above))
    (more : ¬ a.TreeWithin d x) : ∃ path, a.Descends [root] path ∧ above.length + d < path.length := by
  induction d generalizing x above with
  | zero => exact ⟨_, way, by simp⟩
  | succ d ih =>
    obtain ⟨k, held⟩ := exists_kind?_of_lt (acyclic.there x above way)
    obtain ⟨c, child, more⟩ : ∃ c ∈ k.children, ¬ a.TreeWithin d c := by
      by_contra none
      push Not at none
      exact more ⟨k, held, none⟩
    obtain ⟨path, further, long⟩ := ih (.child way held child) more
    rw [List.length_cons] at long
    exact ⟨path, further, by omega⟩

theorem Acyclic.of_lower (lower : ∀ x < a.size, ∀ k ∈ a.kind? x, ∀ c ∈ k.children, c < x) (there : root < a.size) :
    a.Acyclic root := by
  have rises {path : List NodeId} (way : a.Descends [root] path) : path.Pairwise (· < ·) ∧ ∀ x ∈ path, x ≤ root := by
    induction way with
    | here => simp
    | child _ held slot ih =>
      have first := lower _ (lt_size_of_kind? held) _ held _ slot
      simp only [List.pairwise_cons, List.forall_mem_cons] at ih ⊢
      exact ⟨⟨⟨first, fun y listed => first.trans (ih.1.1 y listed)⟩, ih.1⟩, first.le.trans ih.2.1, ih.2⟩
  exact ⟨fun x above way => ((rises way).2 x (.head _)).trans_lt there, fun path way => (rises way).1.imp ne_of_lt⟩

/-- A way down has no more nodes than the arena. -/
theorem Acyclic.treeWithin (acyclic : a.Acyclic root) : a.TreeWithin (a.size + 1) root := by
  by_contra more
  obtain ⟨path, way, long⟩ := acyclic.deeper .here more
  have short : path.length ≤ a.size := by
    simpa using ((acyclic.once path way).subperm fun x listed =>
      List.mem_range.2 (acyclic.lt_size way x listed)).length_le
  omega

end Arena

inductive Hook where
  | before
  | after
  deriving DecidableEq

/-- A call of a hook; `set` is the state it sets. -/
structure Event (σ : Type) where
  hook : Hook
  node : NodeId
  lineage : Lineage
  state : σ
  set : Option σ

namespace Event

variable {σ : Type}

/-- What the nearest of these has set, if any has. -/
def inherited (start : σ) (above : List (Event σ)) : σ := (above.findSome? set).getD start

def enters (start : σ) (above : List (Event σ)) (id : NodeId) (set : Option σ) : Event σ :=
  ⟨.before, id, above.map node, inherited start above, set⟩

def leaves (start : σ) (above : List (Event σ)) (id : NodeId) (set : Option σ) : Event σ :=
  ⟨.after, id, above.map node, inherited start (enters start above id set :: above), none⟩

theorem inherited_enters (start : σ) (above : List (Event σ)) (id : NodeId) (set : Option σ) :
    inherited start (enters start above id set :: above) = set.getD (inherited start above) := by
  cases set <;> rfl

/-- The events of a node are those of its children between its own two, and the hooks are told of what is open around
them: the nodes, and the state that was set last among them. -/
inductive Traced (a : Arena) (start : σ) : List (Event σ) → NodeId → List (Event σ) → Prop
  | visited {above : List (Event σ)} {id : NodeId} {k : Kind} (set : Option σ) {inner : List (List (Event σ))}
    (held : a.kind? id = some k) (count : k.children.length = inner.length)
    (each : ∀ p ∈ k.children.zip inner, Traced a start (enters start above id set :: above) p.1 p.2) :
    Traced a start above id (enters start above id set :: inner.flatten ++ [leaves start above id set])

namespace Traced

variable {a : Arena} {start : σ} {above events : List (Event σ)} {id root : NodeId}

theorem entries (traced : Traced a start above id events) {d : Nat} (tree : a.TreeWithin d id) :
    (events.filter (·.hook = .before)).map node = a.preorder d id := by
  induction d generalizing above id events with
  | zero => exact tree.elim
  | succ d ih =>
    obtain ⟨k, held, below⟩ := tree
    cases traced with
    | @visited _ _ l set inner held' count each =>
      cases held.symm.trans held'
      have parts : inner.map (fun es => (es.filter (·.hook = .before)).map node) = k.children.map (a.preorder d) := by
        conv_lhs => rw [← List.map_snd_zip count.ge]
        conv_rhs => rw [← List.map_fst_zip count.le]
        rw [List.map_map, List.map_map]
        exact List.map_congr_left fun p pair => ih (each p pair) (below p.1 (List.of_mem_zip pair).1)
      rw [Arena.preorder_succ held, List.flatMap_def, ← parts]
      simp [enters, leaves, List.filter_flatten, List.map_flatten, Function.comp_def]

theorem lineages (traced : Traced a start above id events) (way : a.Descends [root] (id :: above.map node)) :
    ∀ e ∈ events, a.Descends [root] (e.node :: e.lineage) := by
  induction traced with
  | @visited above id k set inner held count each ih =>
    simp only [List.cons_append, List.mem_cons, List.mem_append, List.mem_flatten, List.not_mem_nil, or_false]
    rintro e (rfl | ⟨es, part, listed⟩ | rfl)
    · exact way
    · rw [← List.map_snd_zip count.ge] at part
      obtain ⟨p, pair, rfl⟩ := List.mem_map.1 part
      exact ih p pair (.child way held (List.of_mem_zip pair).1) e listed
    · exact way

end Traced

end Event

/-- The run, with a note of what it gave. -/
def Pass.noting {ε ω α τ : Type} (note : α → τ) (m : Pass ε ω α) : Pass ε (ω × List τ) α := fun w =>
  match m ⟨w.arena, w.notes.1⟩ with
  | .ok x w' => .ok x ⟨w'.arena, w'.notes, w.notes.2 ++ [note x]⟩
  | .error e w' => .error e ⟨w'.arena, w'.notes, w.notes.2⟩

theorem Pass.noting_of_ok {ε ω α τ : Type} {m : Pass ε ω α} {a b : Arena} {n n' : ω} {x : α} (ran : m ⟨a, n⟩ = .ok x ⟨b, n'⟩)
    (note : α → τ) (log : List τ) : noting note m ⟨a, n, log⟩ = .ok x ⟨b, n', log ++ [note x]⟩ := by
  simp [noting, ran]

namespace Visitor

open Event

variable {ε ω σ : Type}

def traced (v : Visitor ε ω σ) : Visitor ε (ω × List (Event σ)) σ where
  before id lineage state := Pass.noting (fun entry => ⟨.before, id, lineage, state, entry.state⟩) (v.before id lineage state)
  after id lineage state := Pass.noting (fun _ => ⟨.after, id, lineage, state, none⟩) (v.after id lineage state)

/-- The hooks do not fail, change no node and replace none. They may set states, and keep notes. -/
structure Watches (v : Visitor ε ω σ) (a : Arena) : Prop where
  before : ∀ id lineage state notes, ∃ set notes', v.before id lineage state ⟨a, notes⟩ = .ok ⟨none, set⟩ ⟨a, notes'⟩
  after : ∀ id lineage state notes, ∃ notes', v.after id lineage state ⟨a, notes⟩ = .ok none ⟨a, notes'⟩

variable [OfTreeError ε] {v : Visitor ε ω σ} {a : Arena} {start : σ} {fuel : Nat}

variable (v a start fuel) in
def Looks (id : NodeId) : Prop := ∀ (above : List (Event σ)) (notes : ω) (log : List (Event σ)),
  ∃ events notes', Traced a start above id events ∧
    v.visit fuel id (above.map node) (inherited start above) ⟨a, notes⟩ = .ok id ⟨a, notes'⟩ ∧
    v.traced.visit fuel id (above.map node) (inherited start above) ⟨a, notes, log⟩ = .ok id ⟨a, notes', log ++ events⟩

theorem looks_all {ids : List NodeId} (each : ∀ id ∈ ids, v.Looks a start fuel id) (above : List (Event σ)) (notes : ω)
    (log : List (Event σ)) : ∃ inner notes', ids.length = inner.length ∧
    (∀ p ∈ ids.zip inner, Traced a start above p.1 p.2) ∧
    (ids.mapM fun id => v.visit fuel id (above.map node) (inherited start above)) ⟨a, notes⟩ = .ok ids ⟨a, notes'⟩ ∧
    (ids.mapM fun id => v.traced.visit fuel id (above.map node) (inherited start above)) ⟨a, notes, log⟩ = .ok ids
    ⟨a, notes', log ++ inner.flatten⟩ := by
  induction ids generalizing notes log with
  | nil => exact ⟨[], notes, rfl, by simp, rfl, by rw [List.flatten_nil, List.append_nil]; rfl⟩
  | cons id rest ih =>
    rw [List.forall_mem_cons] at each
    obtain ⟨events, n₁, traced, visited, visited'⟩ := each.1 above notes log
    obtain ⟨inner, n₂, count, below, others, others'⟩ := ih each.2 n₁ (log ++ events)
    refine ⟨events :: inner, n₂, by simp [count], ?_, ?_, ?_⟩
    · simpa using ⟨traced, fun c es => below (c, es)⟩
    · rw [List.mapM_cons, bind_of_ok visited, bind_of_ok others]
      rfl
    · rw [List.mapM_cons, bind_of_ok visited', bind_of_ok others', List.flatten_cons, List.append_assoc]
      rfl

theorem visit_looks (watches : v.Watches a) {id : NodeId} (tree : a.TreeWithin fuel id) : v.Looks a start fuel id := by
  induction fuel generalizing id with
  | zero => exact tree.elim
  | succ fuel ih =>
    intro above notes log
    obtain ⟨k, held, below⟩ := tree
    obtain ⟨set, n₁, entered⟩ := watches.before id (above.map node) (inherited start above) notes
    obtain ⟨inner, n₂, count, each, visited, visited'⟩ := looks_all (fun c child => ih (below c child))
      (enters start above id set :: above) n₁ (log ++ [enters start above id set])
    rw [inherited_enters] at visited visited'
    obtain ⟨n₃, left⟩ := watches.after id (above.map node) (set.getD (inherited start above)) n₂
    have entered' : v.traced.before id (above.map node) (inherited start above) ⟨a, notes, log⟩ =
        .ok ⟨none, set⟩ ⟨a, n₁, log ++ [enters start above id set]⟩ := Pass.noting_of_ok entered _ log
    refine ⟨_, n₃, .visited set held count each, ?_, ?_⟩
    · rw [visit_children held entered rfl held visited, if_pos rfl]
      exact bind_of_ok left
    · rw [visit_children held entered' rfl held visited', if_pos rfl]
      refine (bind_of_ok (Pass.noting_of_ok left _ _)).trans ?_
      simp [leaves, inherited_enters, pure, EStateM.pure]

/-- `"a"; "a" + "a"`, in which one node is held three times. -/
def thrice : Arena :=
  ⟨#[⟨.string "a", none, none⟩, ⟨.binary .add 0 0, none, none⟩, ⟨.effect 0 1, none, none⟩]⟩

def marking : Visitor TreeError Nat Nat where
  before id _ _ := do
    Pass.modifyNotes (· + 1)
    return ⟨none, if id = 1 then some 7 else none⟩
  after _ _ _ := return none

end Visitor

end DerivedTables
