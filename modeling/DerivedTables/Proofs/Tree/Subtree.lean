import DerivedTables.Tree.Arena
import Mathlib.Data.Fintype.Card
import Mathlib.Data.List.Flatten

/-!
Subtrees of an arena. Listing a node's descendants goes as deep as the fuel; the list is complete
when the nodes below are at most that many levels, and a list without repetition always is.
-/

namespace DerivedTables

namespace Arena

variable {a b : Arena}
variable {k : Kind} {d : Nat} {id x : NodeId}

/-- `b` has every node of `a`, types and spans apart. -/
structure Extends (a b : Arena) : Prop where
  size : a.size ≤ b.size
  kind : ∀ {x}, x < a.size → b.kind? x = a.kind? x

theorem Extends.refl (a : Arena) : a.Extends a := ⟨le_rfl, fun _ => rfl⟩

theorem Extends.trans {c : Arena} (first : a.Extends b) (second : b.Extends c) : a.Extends c where
  size := first.size.trans second.size
  kind below := (second.kind (below.trans_le first.size)).trans (first.kind below)

theorem lt_size_of_node? {n : Node} (held : a.node? x = some n) : x < a.size :=
  (Array.getElem?_eq_some_iff.1 held).1

theorem lt_size_of_kind? (held : a.kind? x = some k) : x < a.size := by
  obtain ⟨n, found, -⟩ := Option.map_eq_some_iff.1 held
  exact lt_size_of_node? found

theorem Extends.kind_of_some (extends_ : a.Extends b) (held : a.kind? x = some k) : b.kind? x = some k :=
  (extends_.kind (lt_size_of_kind? held)).trans held

theorem exists_kind?_of_lt (below : x < a.size) : ∃ k, a.kind? x = some k := by
  have below : x < a.nodes.size := below
  exact ⟨a.nodes[x].kind, by simp [kind?, node?, below]⟩

structure Closed (a : Arena) : Prop where
  children : ∀ {x k}, a.kind? x = some k → ∀ c ∈ k.children, c < a.size
  target : ∀ {x t n}, a.kind? x = some (.reference t n) → t < a.size

def TreeWithin (a : Arena) : Nat → NodeId → Prop
  | 0, _ => False
  | depth + 1, id => ∃ k, a.kind? id = some k ∧ ∀ c ∈ k.children, a.TreeWithin depth c

theorem TreeWithin.mono {e : Nat} (within : d ≤ e) (tree : a.TreeWithin d id) : a.TreeWithin e id := by
  induction d generalizing e id with
  | zero => exact tree.elim
  | succ d ih =>
    obtain ⟨k, held, below⟩ := tree
    cases e with
    | zero => omega
    | succ e => exact ⟨k, held, fun c child => ih (Nat.le_of_succ_le_succ within) (below c child)⟩

theorem preorder_succ (held : a.kind? id = some k) :
    a.preorder (d + 1) id = id :: k.children.flatMap (a.preorder d) := by
  simp [preorder, held]

theorem TreeWithin.preorder_eq {e : Nat} (within : d ≤ e)
    (tree : a.TreeWithin d id) : a.preorder e id = a.preorder d id := by
  induction d generalizing e id with
  | zero => exact tree.elim
  | succ d ih =>
    obtain ⟨k, held, below⟩ := tree
    cases e with
    | zero => omega
    | succ e =>
      rw [preorder_succ held, preorder_succ held]
      congr 1
      exact List.flatMap_congr fun c child => ih (Nat.le_of_succ_le_succ within) (below c child)

theorem TreeWithin.self_mem (tree : a.TreeWithin d id) : id ∈ a.preorder d id := by
  cases d with
  | zero => exact tree.elim
  | succ d => simp [preorder]

theorem forall_mem_preorder {p : NodeId → Prop} (here : p id)
    (below : ∀ x k, p x → a.kind? x = some k → ∀ c ∈ k.children, p c) : ∀ x ∈ a.preorder d id, p x := by
  induction d generalizing id with
  | zero => simp [preorder]
  | succ d ih =>
    cases held : a.kind? id with
    | none => simp [preorder, held, here]
    | some k =>
      simp only [preorder_succ held, List.mem_cons, List.mem_flatMap]
      rintro x (rfl | ⟨c, child, listed⟩)
      · exact here
      · exact ih (below id k here held c child) x listed

theorem TreeWithin.subtree (tree : a.TreeWithin d id) (listed : x ∈ a.preorder d id) :
    a.TreeWithin d x ∧ List.Sublist (a.preorder d x) (a.preorder d id) := by
  induction d generalizing id with
  | zero => exact tree.elim
  | succ d ih =>
    have whole := tree
    obtain ⟨k, held, below⟩ := tree
    rw [preorder_succ held, List.mem_cons, List.mem_flatMap] at listed
    obtain rfl | ⟨c, child, listed⟩ := listed
    · exact ⟨whole, .refl _⟩
    · obtain ⟨inner, sublist⟩ := ih (below c child) listed
      refine ⟨inner.mono (Nat.le_succ d), ?_⟩
      rw [inner.preorder_eq (Nat.le_succ d), preorder_succ held]
      refine (sublist.trans ?_).trans (List.sublist_cons_self ..)
      simpa using (List.singleton_sublist.2 child).flatMap (a.preorder d)

theorem TreeWithin.child {c : NodeId} (tree : a.TreeWithin d id)
    (held : a.kind? id = some k) (child : c ∈ k.children) : a.TreeWithin d c := by
  cases d with
  | zero => exact tree.elim
  | succ d =>
    obtain ⟨_, held', below⟩ := tree
    cases held.symm.trans held'
    exact (below c child).mono (Nat.le_succ d)

theorem TreeWithin.child_mem {c : NodeId} (tree : a.TreeWithin d id)
    (listed : x ∈ a.preorder d id) (held : a.kind? x = some k) (child : c ∈ k.children) : c ∈ a.preorder d id := by
  obtain ⟨inner, sublist⟩ := tree.subtree listed
  apply sublist.subset
  cases d with
  | zero => exact tree.elim
  | succ d =>
    obtain ⟨l, held', below⟩ := inner
    obtain rfl : l = k := by simpa [held] using held'.symm
    rw [preorder_succ held, List.mem_cons, List.mem_flatMap]
    exact .inr ⟨c, child, (below c child).self_mem⟩

theorem Closed.lt_size_of_mem_preorder (closed : a.Closed)
    (below : id < a.size) (listed : x ∈ a.preorder d id) : x < a.size :=
  forall_mem_preorder (p := (· < a.size)) below (fun _ _ _ held => closed.children held) x listed

theorem le_length_preorder (there : ∀ x ∈ a.preorder d id, x < a.size)
    (more : ¬ a.TreeWithin d id) : d ≤ (a.preorder d id).length := by
  induction d generalizing id with
  | zero => exact Nat.zero_le _
  | succ d ih =>
    obtain ⟨k, held⟩ := exists_kind?_of_lt (there id (by simp [preorder]))
    obtain ⟨c, child, more⟩ : ∃ c ∈ k.children, ¬ a.TreeWithin d c := by
      by_contra none
      push Not at none
      exact more ⟨k, held, none⟩
    have part := (List.singleton_sublist.2 child).flatMap (a.preorder d)
    simp only [List.flatMap_cons, List.flatMap_nil, List.append_nil] at part
    rw [preorder_succ held] at there ⊢
    have long := ih (fun x listed => there x (.tail _ (part.subset listed))) more
    have short := part.length_le
    rw [List.length_cons]
    omega

/-- The node and what is below it make a tree: all of it is there, and nothing in it is held twice. -/
structure TreeShaped (a : Arena) (id : NodeId) : Prop where
  there : ∀ x ∈ a.descendants id, x < a.size
  once : (a.descendants id).Nodup

instance (a : Arena) (id : NodeId) : Decidable (a.TreeShaped id) :=
  decidable_of_iff ((∀ x ∈ a.descendants id, x < a.size) ∧ (a.descendants id).Nodup)
    ⟨fun both => ⟨both.1, both.2⟩, fun shaped => ⟨shaped.there, shaped.once⟩⟩

theorem TreeShaped.treeWithin (shaped : a.TreeShaped id) : a.TreeWithin (a.size + 1) id := by
  by_contra more
  have long := le_length_preorder shaped.there more
  have short : (a.descendants id).length ≤ a.size := by
    calc (a.descendants id).length
        ≤ (List.range a.size).length :=
          (shaped.once.subperm fun x listed => List.mem_range.2 (shaped.there x listed)).length_le
      _ = a.size := List.length_range
  exact absurd (long.trans short) (by omega)

end Arena

end DerivedTables
