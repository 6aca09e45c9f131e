import DerivedTables.Proofs.Eval.Alike
import DerivedTables.Proofs.Runs
import DerivedTables.Proofs.Tree.Subtree
import DerivedTables.Tree.Pass

/-!
What single steps of a pass do, and nodes that are those of another arena under other ids.
-/

namespace DerivedTables

namespace Pass

variable {ε ω : Type}

theorem push_run (node : Node) (w : Workspace ω) :
    (push node : Pass ε ω NodeId) w = .ok w.arena.size { w with arena := w.arena.push node } := rfl

theorem arena_run (w : Workspace ω) : (arena : Pass ε ω Arena) w = .ok w.arena w := rfl

theorem node_run [OfTreeError ε] {id : NodeId} {n : Node} {w w' : Workspace ω}
    (done : (node id : Pass ε ω Node) w = .ok n w') : w' = w ∧ w.arena.node? id = some n := by
  obtain ⟨_, _, ran, done⟩ := bind_eq_ok.1 done
  cases ran
  cases found : w.arena.node? id with
  | none =>
    rw [found] at done
    cases done
  | some n =>
    rw [found] at done
    cases done
    exact ⟨rfl, rfl⟩

theorem kind_run [OfTreeError ε] {id : NodeId} {k : Kind} {w w' : Workspace ω}
    (done : (kind id : Pass ε ω Kind) w = .ok k w') : w' = w ∧ w.arena.kind? id = some k := by
  rw [kind, bind_eq_ok] at done
  obtain ⟨n, _, ran, done⟩ := done
  obtain ⟨rfl, found⟩ := node_run ran
  cases done
  exact ⟨rfl, by simp [Arena.kind?, found]⟩

end Pass

def Pass.after {ε ω α : Type} (pass : Pass ε ω α) (w : Workspace ω) : Workspace ω :=
  match pass w with
  | .ok _ w' | .error _ w' => w'

theorem Pass.run_eq_ok {ε ω α : Type} {pass : Pass ε ω α} {w : Workspace ω} {x : α}
    (given : (match pass w with | .ok y _ => some y | .error .. => none) = some x) :
    pass w = .ok x (pass.after w) := by
  unfold after
  cases ran : pass w with
  | ok y w' => simp_all
  | error e w' => simp [ran] at given

namespace Arena

theorem extends_push (a : Arena) (node : Node) : a.Extends (a.push node) where
  size := by simp
  kind below := by simp [kind?, node?_push, Nat.ne_of_lt below]

theorem kind?_push_size (a : Arena) (node : Node) : (a.push node).kind? a.size = some node.kind := by
  simp [kind?, node?_push]

end Arena

structure Whole (a : Arena) (ids : List NodeId) : Prop where
  there : ∀ x ∈ ids, ∃ k, a.kind? x = some k
  child : ∀ x ∈ ids, ∀ k, a.kind? x = some k → ∀ c ∈ k.children, c ∈ ids

/-- `f` takes the nodes of `ids` in `a` to nodes of `b` that are the same up to renaming. -/
structure Rendered (a : Arena) (ids : List NodeId) (b : Arena) (f : NodeId → NodeId) : Prop where
  renames : ∀ x ∈ ids, ∀ k, a.kind? x = some k → ∃ l, b.kind? (f x) = some l ∧ k.Renames f l
  injective : ∀ x ∈ ids, ∀ y ∈ ids, f x = f y → x = y

theorem Rendered.extend {a b c : Arena} {ids : List NodeId} {f : NodeId → NodeId}
    (rendered : Rendered a ids b f) (grown : b.Extends c) : Rendered a ids c f where
  renames x held k kind := by
    obtain ⟨l, copy, renames⟩ := rendered.renames x held k kind
    exact ⟨l, grown.kind_of_some copy, renames⟩
  injective := rendered.injective

section
variable {a d : Arena} {ids : List NodeId} {f : NodeId → NodeId}

theorem Whole.preorder_subset (whole : Whole a ids) {n : Nat} {x : NodeId} (listed : x ∈ ids) :
    a.preorder n x ⊆ ids := fun y below =>
  Arena.forall_mem_preorder listed (fun z k inside held c => whole.child z inside k held c) y below

theorem Rendered.preorder (rendered : Rendered a ids d f) (whole : Whole a ids) {n : Nat}
    {x : NodeId} (listed : x ∈ ids) : d.preorder n (f x) = (a.preorder n x).map f := by
  induction n generalizing x with
  | zero => rfl
  | succ n ih =>
    obtain ⟨k, held⟩ := whole.there x listed
    obtain ⟨l, copy, renames⟩ := rendered.renames x listed k held
    rw [Arena.preorder_succ held, Arena.preorder_succ copy, renames.children, List.flatMap_map,
      List.map_cons, List.map_flatMap]
    congr 1
    exact List.flatMap_congr fun c child => ih (whole.child x listed k held c child)

theorem Rendered.treeWithin (rendered : Rendered a ids d f) (whole : Whole a ids) {n : Nat}
    {x : NodeId} (listed : x ∈ ids) (tree : a.TreeWithin n x) : d.TreeWithin n (f x) := by
  induction n generalizing x with
  | zero => exact tree.elim
  | succ n ih =>
    obtain ⟨k, held, below⟩ := tree
    obtain ⟨l, copy, renames⟩ := rendered.renames x listed k held
    refine ⟨l, copy, fun c child => ?_⟩
    obtain ⟨z, isChild, rfl⟩ := List.mem_map.1 (renames.children ▸ child)
    exact ih (whole.child x listed k held z isChild) (below z isChild)

end

end DerivedTables
