import DerivedTables.Proofs.Tree.Appending

/-!
What copying a subtree makes: after the nodes there are, one more for each node of the subtree,
which is that node over the copies of its children. Main statement: the copies are numbered without
a gap, and a copied reference goes where it is redirected, else to the copy of its target, else to
the target.
-/

namespace DerivedTables

theorem Arena.TreeWithin.not_mem_children {a : Arena} {d : Nat} {id : NodeId} {k : Kind} (tree : a.TreeWithin d id)
    (held : a.kind? id = some k) : id ∉ k.children := by
  induction d with
  | zero => exact tree.elim
  | succ d ih =>
    obtain ⟨_, held', below⟩ := tree
    cases held.symm.trans held'
    exact fun child => ih (below id child) child

def Copies.rename (copies : Copies) (id : NodeId) : NodeId := copies[id]?.getD id

def Copies.over (copies : Copies) (n : Node) : Node :=
  { n with kind := n.kind.withChildren (n.kind.children.map copies.rename) }

theorem Copies.getElem?_insert_of_ne (copies : Copies) {x id : NodeId} (other : x ≠ id) (copy : NodeId) :
    (copies.insert id copy)[x]? = copies[x]? := by
  rw [Std.TreeMap.getElem?_insert, if_neg]
  simpa using other.symm

structure Copied (once : Prop) (a b c : Arena) (ids : List NodeId) (before after : Copies) : Prop where
  grown : b.Precedes c
  size : c.size = b.size + ids.length
  outside : ∀ x ∉ ids, after[x]? = before[x]?
  fresh : ∀ x y : NodeId, after[x]? = some y → before[x]? = some y ∨ b.size ≤ y
  inside : once → ∀ x ∈ ids, ∃ y n, after[x]? = some y ∧ b.size ≤ y ∧ a.node? x = some n ∧ c.node? y = some (after.over n)
  injective : once → ∀ x ∈ ids, ∀ y ∈ ids, after[x]? = after[y]? → x = y

namespace Copied

variable {once : Prop} {a b c d : Arena} {ids more : List NodeId} {p q r : Copies}

theorem nil (a b : Arena) (copies : Copies) : Copied once a b b [] copies copies where
  grown := .refl b
  size := rfl
  outside _ _ := rfl
  fresh _ _ := .inl
  inside := by simp
  injective := by simp

theorem perm (same : ids.Perm more) (copied : Copied once a b c ids p q) : Copied once a b c more p q where
  grown := copied.grown
  size := same.length_eq ▸ copied.size
  outside x missing := copied.outside x fun listed => missing (same.mem_iff.1 listed)
  fresh := copied.fresh
  inside single x listed := copied.inside single x (same.mem_iff.2 listed)
  injective single x first y second := copied.injective single x (same.mem_iff.2 first) y (same.mem_iff.2 second)

theorem rename_of_not_mem (copied : Copied once a b c ids p q) {x : NodeId} (missing : x ∉ ids) :
    q.rename x = p.rename x := by
  rw [Copies.rename, copied.outside x missing, Copies.rename]

theorem append (first : Copied once a b c ids p q) (second : Copied once a c d more q r)
    (apart : once → ∀ x ∈ ids, x ∉ more)
    (whole : ∀ x ∈ ids, ∀ k, a.kind? x = some k → ∀ child ∈ k.children, child ∈ ids) :
    Copied once a b d (ids ++ more) p r where
  grown := first.grown.trans second.grown
  size := by rw [second.size, first.size, List.length_append, Nat.add_assoc]
  outside x missing := by
    simp only [List.mem_append, not_or] at missing
    rw [second.outside x missing.2, first.outside x missing.1]
  fresh x y known := by
    obtain known | fresh := second.fresh x y known
    · exact first.fresh x y known
    · exact .inr (first.grown.size.trans fresh)
  inside single x listed := by
    obtain listed | listed := List.mem_append.1 listed
    · obtain ⟨y, n, found, fresh, held, copy⟩ := first.inside single x listed
      have kept : n.kind.children.map r.rename = n.kind.children.map q.rename :=
        List.map_congr_left fun child part => second.rename_of_not_mem (apart single child
          (whole x listed n.kind (by rw [Arena.kind?, held, Option.map_some]) child part))
      refine ⟨y, n, by rw [second.outside x (apart single x listed), found], fresh, held, ?_⟩
      rw [second.grown.node (Arena.lt_size_of_node? copy), copy, Copies.over, Copies.over, kept]
    · obtain ⟨y, n, found, fresh, rest⟩ := second.inside single x listed
      exact ⟨y, n, found, first.grown.size.trans fresh, rest⟩
  injective single := by
    have kept {x : NodeId} (earlier : x ∈ ids) : r[x]? = q[x]? := second.outside x (apart single x earlier)
    -- What was copied first lies below what was copied later.
    have ordered {x y : NodeId} (earlier : x ∈ ids) (later : y ∈ more) : r[x]? ≠ r[y]? := by
      intro same
      obtain ⟨u, _, found, -, -, copy⟩ := first.inside single x earlier
      obtain ⟨v, _, found', fresh, -⟩ := second.inside single y later
      rw [kept earlier, found, found'] at same
      cases same
      exact absurd (Arena.lt_size_of_node? copy) (Nat.not_lt.2 fresh)
    intro x hx y hy same
    obtain hx | hx := List.mem_append.1 hx <;> obtain hy | hy := List.mem_append.1 hy
    · exact first.injective single x hx y hy (by rwa [← kept hx, ← kept hy])
    · exact absurd same (ordered hx hy)
    · exact absurd same.symm (ordered hy hx)
    · exact second.injective single x hx y hy same

theorem push {id : NodeId} {n m : Node} (held : a.node? id = some n) (other : id ∉ n.kind.children)
    (copy : once → m = p.over n) : Copied once a b (b.push m) [id] p (p.insert id b.size) where
  grown := b.precedes_push _
  size := by simp
  outside x missing := p.getElem?_insert_of_ne (by simpa using missing) _
  fresh x y known := by
    by_cases same : x = id
    · subst same
      simp only [Std.TreeMap.getElem?_insert_self, Option.some.injEq] at known
      exact .inr known.le
    · exact .inl (p.getElem?_insert_of_ne same _ ▸ known)
  inside single := by
    simp only [List.mem_singleton, forall_eq]
    refine ⟨b.size, n, by simp, le_rfl, held, ?_⟩
    have kept : n.kind.children.map (Copies.rename (p.insert id b.size)) = n.kind.children.map p.rename := by
      refine List.map_congr_left fun child part => ?_
      have apart : child ≠ id := by
        rintro rfl
        exact other part
      rw [Copies.rename, p.getElem?_insert_of_ne apart, Copies.rename]
    rw [Arena.node?_push, if_pos rfl, copy single, Copies.over, Copies.over, kept]
  injective _ := by simp

end Copied

namespace Pass

variable {ε ω : Type} [OfTreeError ε] {once : Prop} {a : Arena} {w : Workspace ω} {fuel : Nat}

def copyChild (fuel : Nat) (made : List NodeId × Copies) (child : NodeId) : Pass ε ω (List NodeId × Copies) := do
  let (copy, copies) ← copySubtree fuel child made.2
  return (made.1 ++ [copy], copies)

def CopiesBelow (ε ω : Type) [OfTreeError ε] (once : Prop) (a : Arena) (fuel : Nat) (id : NodeId) : Prop :=
  ∀ (w : Workspace ω) (copies : Copies), a.Precedes w.arena → (once → (a.preorder fuel id).Nodup) →
    ∃ copy copies' c, (copySubtree fuel id copies : Pass ε ω _) w = .ok (copy, copies') ⟨c, w.notes⟩ ∧
      Copied once a w.arena c (a.preorder fuel id) copies copies' ∧ copies'[id]? = some copy

theorem copyChildren_copied {children : List NodeId} (trees : ∀ c ∈ children, a.TreeWithin fuel c)
    (each : ∀ c ∈ children, CopiesBelow ε ω once a fuel c) (older : a.Precedes w.arena)
    (single : once → (children.flatMap (a.preorder fuel)).Nodup) (made : List NodeId × Copies) : ∃ made' c,
    children.foldlM (copyChild fuel : _ → _ → Pass ε ω _) made w = .ok made' ⟨c, w.notes⟩ ∧ Copied once a w.arena c
    (children.flatMap (a.preorder fuel)) made.2 made'.2 ∧ (once → made'.1 = made.1 ++ children.map made'.2.rename) := by
  induction children generalizing made w with
  | nil => exact ⟨made, w.arena, rfl, .nil a _ _, fun _ => by simp⟩
  | cons child rest ih =>
    rw [List.forall_mem_cons] at trees each
    simp only [List.flatMap_cons, List.nodup_append] at single
    obtain ⟨copy, copies, c₁, ran, copied, known⟩ := each.1 w made.2 older fun here => (single here).1
    have here : (copyChild fuel made child : Pass ε ω _) w = .ok (made.1 ++ [copy], copies) ⟨c₁, w.notes⟩ :=
      bind_of_ok ran
    obtain ⟨made', c, done, rest_copied, names⟩ :=
      ih (w := ⟨c₁, w.notes⟩) trees.2 each.2 (older.trans copied.grown) (fun here => (single here).2.1) (made.1 ++ [copy], copies)
    have apart (here : once) (x : NodeId) (listed : x ∈ a.preorder fuel child) : x ∉ rest.flatMap (a.preorder fuel) :=
      fun other => (single here).2.2 x listed x other rfl
    refine ⟨made', c, (bind_of_ok here).trans done,
      copied.append rest_copied apart fun x listed k held part => trees.1.child_mem listed held, fun here => ?_⟩
    have same : made'.2.rename child = copy := by
      rw [rest_copied.rename_of_not_mem (apart here child trees.1.self_mem), Copies.rename, known, Option.getD_some]
    simp [names here, same]

theorem copySubtree_copied {id : NodeId} (tree : a.TreeWithin fuel id) : CopiesBelow ε ω once a fuel id := by
  induction fuel generalizing id with
  | zero => exact tree.elim
  | succ fuel ih =>
    intro w copies older single
    have solid := tree
    obtain ⟨k, held, below⟩ := tree
    obtain ⟨n, found, rfl⟩ := Option.map_eq_some_iff.1 held
    rw [Arena.preorder_succ held] at single ⊢
    simp only [List.nodup_cons] at single
    obtain ⟨⟨children, made⟩, c, ran, copied, names⟩ := copyChildren_copied (ε := ε) below
      (fun child part => ih (below child part)) older (fun here => (single here).2) ([], copies)
    have there : w.arena.node? id = some n := (older.node (Arena.lt_size_of_kind? held)).trans found
    have last : Copied once a c (c.push { n with kind := n.kind.withChildren children }) [id] made (made.insert id c.size) :=
      .push found (solid.not_mem_children held) fun here => by
        obtain rfl : children = n.kind.children.map made.rename := by simpa using names here
        rfl
    refine ⟨c.size, made.insert id c.size, _, ?_, (copied.append last ?_ ?_).perm (List.perm_append_singleton ..), by simp⟩
    · rw [copySubtree, bind_of_ok (node_of_some there)]
      exact bind_of_ok ran
    · intro here x listed same
      obtain rfl := List.mem_singleton.1 same
      exact (single here).1 listed
    · intro x listed l there child part
      obtain ⟨top, root, listed⟩ := List.mem_flatMap.1 listed
      exact List.mem_flatMap.2 ⟨top, root, (below top root).child_mem listed there part⟩

theorem precedes_redirectCopies {base b : Arena} {copies : Copies} (redirects : Redirects)
    (beyond : ∀ x y : NodeId, copies[x]? = some y → base.size ≤ y) (precedes : base.Precedes b) :
    base.Precedes (redirectCopies copies redirects b) := by
  rw [redirectCopies, Std.TreeMap.foldl_eq_foldl_toList]
  have listed : ∀ p ∈ copies.toList, base.size ≤ p.2 := fun p inside =>
    beyond p.1 p.2 (Std.TreeMap.mem_toList_iff_getElem?_eq_some.1 inside)
  generalize copies.toList = made at listed ⊢
  induction made generalizing b with
  | nil => exact precedes
  | cons p rest ih =>
    rw [List.forall_mem_cons] at listed
    exact ih (precedes.modify listed.1 _) listed.2

theorem size_redirectCopies (copies : Copies) (redirects : Redirects) (b : Arena) :
    (redirectCopies copies redirects b).size = b.size := by
  rw [redirectCopies, Std.TreeMap.foldl_eq_foldl_toList]
  induction copies.toList generalizing b with
  | nil => rfl
  | cons p rest ih => rw [List.foldl_cons, ih, Arena.size_modify]

theorem node?_redirect {l : List (NodeId × NodeId)} (change : Node → Node) (single : (l.map Prod.snd).Nodup) (b : Arena)
    (y : NodeId) : (l.foldl (fun b (p : NodeId × NodeId) => b.modify p.2 change) b).node? y = if y ∈ l.map Prod.snd then
    (b.node? y).map change else b.node? y := by
  induction l generalizing b with
  | nil => simp
  | cons p rest ih =>
    simp only [List.map_cons, List.nodup_cons] at single
    rw [List.foldl_cons, ih single.2, Arena.node?_modify]
    by_cases here : p.2 = y
    · subst here
      simp [single.1]
    · have other : y ≠ p.2 := Ne.symm here
      simp only [here, if_false, List.map_cons, List.mem_cons, other, false_or]

theorem deepCopy_run {id : NodeId} (tree : w.arena.TreeWithin (w.arena.size + 1) id) (redirects : Redirects) : ∃ copy
    copies c, (deepCopy id redirects : Pass ε ω NodeId) w = .ok copy ⟨redirectCopies copies redirects c, w.notes⟩ ∧
    Copied (w.arena.descendants id).Nodup w.arena w.arena c (w.arena.descendants id) ∅ copies ∧ copies.rename id = copy
    ∧ w.arena.Precedes (redirectCopies copies redirects c) := by
  obtain ⟨copy, copies, c, ran, copied, known⟩ := copySubtree_copied (ε := ε) tree w ∅ (.refl _) fun single => single
  refine ⟨copy, copies, c, ?_, copied, by rw [Copies.rename, known, Option.getD_some],
    precedes_redirectCopies redirects (fun x y known => ?_) copied.grown⟩
  · rw [deepCopy, bind_of_ok (arena_run w)]
    exact bind_of_ok ran
  · obtain known | fresh := copied.fresh x y known
    · simp at known
    · exact fresh

theorem deepCopy_adds {id : NodeId} (tree : w.arena.TreeWithin (w.arena.size + 1) id) (redirects : Redirects) :
    Adds (deepCopy id redirects : Pass ε ω NodeId) w := by
  obtain ⟨copy, copies, c, ran, -, -, precedes⟩ := deepCopy_run (ε := ε) tree redirects
  exact ⟨copy, _, ran, rfl, precedes⟩

end Pass

/-- The copy of a node: over the copies of its children, or pointing where a copied reference points. -/
def Kind.copied (redirects : Redirects) (nodes : List NodeId) (f : NodeId → NodeId) : Kind → Kind
  | reference target name => redirects[target]?.elim (reference (if target ∈ nodes then f target else target) name)
      fun redirect => reference redirect.target redirect.name
  | kind => kind.withChildren (kind.children.map f)

/-- `c` is `a` and after it the copies of the nodes, of which `f` tells where they are. -/
structure Duplicated (a c : Arena) (redirects : Redirects) (nodes : List NodeId) (f : NodeId → NodeId) : Prop where
  kept : a.Precedes c
  size : c.size = a.size + nodes.length
  places : (nodes.map f).Perm (List.range' a.size nodes.length)
  node : ∀ x ∈ nodes, ∀ n, a.node? x = some n → c.node? (f x) = some { n with kind := n.kind.copied redirects nodes f }

theorem Duplicated.fresh {a c : Arena} {redirects : Redirects} {nodes : List NodeId} {f : NodeId → NodeId}
    (made : Duplicated a c redirects nodes f) {x : NodeId} (inside : x ∈ nodes) : a.size ≤ f x :=
  (List.mem_range'_1.1 (made.places.mem_iff.1 (List.mem_map_of_mem inside))).1

namespace Pass

theorem redirected_over (copies : Copies) (redirects : Redirects) {nodes : List NodeId} (k : Kind)
    (outside : ∀ x ∉ nodes, copies[x]? = none) :
    redirected copies redirects (k.withChildren (k.children.map copies.rename)) = k.copied redirects nodes copies.rename := by
  cases k with
  | reference target name =>
    simp only [Kind.withChildren, redirected, Kind.copied]
    cases redirects[target]? with
    | some redirect => rfl
    | none =>
      by_cases inside : target ∈ nodes
      · simp [inside, Copies.rename]
      · simp [inside, outside target inside]
  | _ => rfl

theorem duplicated_redirectCopies {a c : Arena} {nodes : List NodeId} {copies : Copies} (redirects : Redirects)
    (once : nodes.Nodup) (copied : Copied nodes.Nodup a a c nodes ∅ copies) :
    Duplicated a (redirectCopies copies redirects c) redirects nodes copies.rename := by
  have outside (x : NodeId) (missing : x ∉ nodes) : copies[x]? = none := by simp [copied.outside x missing]
  have known {p : NodeId × NodeId} (listed : p ∈ copies.toList) : copies[p.1]? = some p.2 ∧ p.1 ∈ nodes := by
    have found := Std.TreeMap.mem_toList_iff_getElem?_eq_some.1 listed
    refine ⟨found, ?_⟩
    by_contra missing
    simp [outside _ missing] at found
  have single : (copies.toList.map Prod.snd).Nodup := by
    have keys : (copies.toList.map Prod.fst).Nodup := by
      rw [Std.TreeMap.map_fst_toList_eq_keys]
      exact Std.TreeMap.nodup_keys
    refine List.Nodup.map_on (fun p first q second same => ?_) (List.Nodup.of_map _ keys)
    obtain ⟨found, inside⟩ := known first
    obtain ⟨found', inside'⟩ := known second
    have here := copied.injective once p.1 inside q.1 inside' (by rw [found, found', same])
    exact Prod.ext here same
  have nodes? (y : NodeId) : (redirectCopies copies redirects c).node? y =
      if y ∈ copies.toList.map Prod.snd then
        (c.node? y).map fun n => { n with kind := redirected copies redirects n.kind }
      else c.node? y := by
    rw [redirectCopies, Std.TreeMap.foldl_eq_foldl_toList]
    exact node?_redirect _ single _ _
  have fresh (x y : NodeId) (known : copies[x]? = some y) : a.size ≤ y :=
    (copied.fresh x y known).resolve_left (by simp)
  have size := (size_redirectCopies copies redirects c).trans copied.size
  refine ⟨precedes_redirectCopies redirects fresh copied.grown, size, ?_, fun x inside n held => ?_⟩
  · have each : (nodes.map copies.rename).Nodup := once.map_on fun x first y second same => by
      obtain ⟨u, _, found, -⟩ := copied.inside once x first
      obtain ⟨v, _, found', -⟩ := copied.inside once y second
      rw [Copies.rename, Copies.rename, found, found', Option.getD_some, Option.getD_some] at same
      exact copied.injective once x first y second (by rw [found, found', same])
    refine (each.subperm fun y made => ?_).perm_of_length_le (by simp)
    obtain ⟨x, inside, rfl⟩ := List.mem_map.1 made
    obtain ⟨y, n, found, beyond, -, copy⟩ := copied.inside once x inside
    rw [Copies.rename, found, Option.getD_some, List.mem_range'_1]
    exact ⟨beyond, copied.size ▸ Arena.lt_size_of_node? copy⟩
  · obtain ⟨y, m, found, -, held', copy⟩ := copied.inside once x inside
    cases held.symm.trans held'
    have made : y ∈ copies.toList.map Prod.snd :=
      List.mem_map_of_mem (Std.TreeMap.mem_toList_iff_getElem?_eq_some.2 found)
    rw [Copies.rename, found, Option.getD_some, nodes?, if_pos made, copy, Option.map_some, Copies.over,
      redirected_over copies redirects n.kind outside]

/-- A copy of a subtree that is a tree: as many new nodes as the subtree has, after the nodes there were, each the copy
of one node of the subtree. -/
theorem deepCopy_duplicates {ε ω : Type} [OfTreeError ε] (w : Workspace ω) {root : NodeId}
    (shaped : w.arena.TreeShaped root) (redirects : Redirects) : ∃ f c, (deepCopy root redirects : Pass ε ω NodeId) w =
    .ok (f root) ⟨c, w.notes⟩ ∧ Duplicated w.arena c redirects (w.arena.descendants root) f := by
  obtain ⟨_, copies, c, ran, copied, rfl, -⟩ := deepCopy_run (ε := ε) shaped.treeWithin redirects
  exact ⟨copies.rename, _, ran, duplicated_redirectCopies redirects shaped.once copied⟩

/-- `f(x) => f(x + y)` at 8, beside the parameters `y` and `z`. -/
def caller : Arena :=
  ⟨#[⟨.param "x" none, none, none⟩, ⟨.param "y" none, none, none⟩, ⟨.param "z" none, none, none⟩,
    ⟨.reference 0 "x", some .number, none⟩, ⟨.reference 1 "y", none, some ⟨4, 5⟩⟩, ⟨.binary .add 3 4, none, none⟩,
    ⟨.reference 8 "f", none, none⟩, ⟨.invoke 6 [5], none, none⟩, ⟨.function (some "f") [0] 7, none, none⟩]⟩

/-- The copy calls itself, and reads `z` where the function read `y`. -/
theorem caller_duplicates : caller.TreeShaped 8 ∧
    ∃ f c, (deepCopy 8 (.insert ∅ 1 ⟨2, "z"⟩) : Pass TreeError Unit NodeId) ⟨caller, ()⟩ = .ok (f 8) ⟨c, ()⟩ ∧
      Duplicated caller c (.insert ∅ 1 ⟨2, "z"⟩) (caller.descendants 8) f ∧
      c.node? (f 6) = some ⟨.reference (f 8) "f", none, none⟩ ∧
      c.node? (f 4) = some ⟨.reference 2 "z", none, some ⟨4, 5⟩⟩ := by
  have shaped : caller.TreeShaped 8 := by decide
  obtain ⟨f, c, ran, made⟩ := deepCopy_duplicates (ε := TreeError) ⟨caller, ()⟩ shaped (.insert ∅ 1 ⟨2, "z"⟩)
  exact ⟨shaped, f, c, ran, made, made.node 6 (by decide) _ rfl, made.node 4 (by decide) _ rfl⟩

end Pass

end DerivedTables
