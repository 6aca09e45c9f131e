import DerivedTables.Proofs.Tree.Duplicated
import DerivedTables.Proofs.Tree.Renamed

/-!
A copy of a tree, node by node.
-/

namespace DerivedTables

open Tree

variable {a b c d : Arena} {s t t' : Tree} {ts us vs : List Tree} {f : NodeId → NodeId} {redirects : Redirects}

namespace Tree

theorem renamed_later (rendered : Rendered a t.ids c f) (stands : t.StandsIn a) (later : c.Extends d) :
    t.renamed d f = t.renamed c f := by
  suffices inner : ∀ s : Tree, s.StandsIn a → (∀ x ∈ s.ids, x ∈ t.ids) → s.renamed d f = s.renamed c f from
    inner t stands fun _ inside => inside
  intro s stands inside
  induction s with
  | node id kind parts ih =>
    obtain ⟨⟨l, held, -⟩, below⟩ := renames_node rendered stands inside
    rw [renamed_node held, renamed_node (later.kind_of_some held)]
    exact congrArg _ (List.map_congr_left fun s part => ih s part (below s part).1 (below s part).2)

/-- `f` takes the nodes of the tree to their copies in `d`, and the nodes they refer to besides where the
redirects say, if anywhere. -/
structure CopiedBy (a d : Arena) (redirects : Redirects) (t : Tree) (f : NodeId → NodeId) : Prop where
  rendered : Rendered a t.ids d f
  ty : ∀ x ∈ t.ids, d.ty? (f x) = a.ty? x
  fresh : ∀ x ∈ t.ids, a.size ≤ f x
  redirect : ∀ x r, redirects[x]? = some r → f x = r.target
  other : ∀ x ∉ t.ids, redirects[x]? = none → f x = x
  named : ∀ x ∈ t.ids, ∀ y n, a.kind? x = some (.reference y n) → redirects[y]? = none →
    d.kind? (f x) = some (.reference (f y) n)

theorem CopiedBy.later (copied : CopiedBy a c redirects t f) (later : c.Retains d) (stands : t.StandsIn a) :
    CopiedBy a d redirects t f where
  rendered := copied.rendered.extend later.kinds
  ty x inside := by
    obtain ⟨k, held⟩ := Arena.exists_kind?_of_lt (stands.lt_size x inside)
    obtain ⟨l, copy, -⟩ := copied.rendered.renames x inside k held
    rw [later.ty (Arena.lt_size_of_kind? copy), copied.ty x inside]
  fresh := copied.fresh
  redirect := copied.redirect
  other := copied.other
  named x inside y n held kept := later.kinds.kind_of_some (copied.named x inside y n held kept)

/-- Where a reference to a node points once the nodes of a tree are copied. -/
def placed (redirects : Redirects) (nodes : List NodeId) (f : NodeId → NodeId) (x : NodeId) : NodeId :=
  redirects[x]?.elim (if x ∈ nodes then f x else x) Redirect.target

theorem placed_inside {nodes : List NodeId} {x : NodeId} (inside : x ∈ nodes) (free : ∀ x ∈ nodes, redirects[x]? = none) :
    placed redirects nodes f x = f x := by
  simp [placed, free x inside, inside]

theorem renames_copied {nodes : List NodeId} (free : ∀ x ∈ nodes, redirects[x]? = none) {k : Kind}
    (part : ∀ c ∈ k.children, c ∈ nodes) : k.Renames (placed redirects nodes f) (k.copied redirects nodes f) := by
  cases k with
  | reference target name =>
    rw [Kind.copied]
    cases found : redirects[target]? with
    | some redirect => simpa [placed, found] using Kind.Renames.reference (f := placed redirects nodes f) target name redirect.name
    | none => simpa [placed, found] using Kind.Renames.reference (f := placed redirects nodes f) target name name
  | _ =>
    have names := List.map_congr_left fun c child => (placed_inside (f := f) (part c child) free).symm
    rw [Kind.copied, names]
    · exact .same _
    · rintro _ _ ⟨⟩

theorem CopiedBy.of_duplicated (made : Duplicated b c redirects t.ids f) (base : a.Retains b) (stands : t.StandsIn a)
    (free : ∀ x ∈ t.ids, redirects[x]? = none) : CopiedBy a c redirects t (placed redirects t.ids f) := by
  have copy {x : NodeId} (inside : x ∈ t.ids) : ∃ n, b.node? x = some n ∧ a.kind? x = some n.kind ∧
      c.node? (placed redirects t.ids f x) = some { n with kind := n.kind.copied redirects t.ids f } := by
    obtain ⟨k, held⟩ := Arena.exists_kind?_of_lt (stands.lt_size x inside)
    obtain ⟨n, found, rfl⟩ := Option.map_eq_some_iff.1 (base.kinds.kind_of_some held)
    exact ⟨n, found, held, placed_inside (f := f) inside free ▸ made.node x inside n found⟩
  refine ⟨⟨fun x inside k held => ?_, fun x first y second same => ?_⟩, fun x inside => ?_, fun x inside => ?_,
    fun x r found => by simp [placed, found], fun x missing kept => by simp [placed, missing, kept],
    fun x inside y n held kept => ?_⟩
  · obtain ⟨n, -, held', made⟩ := copy inside
    cases held.symm.trans held'
    exact ⟨_, by rw [Arena.kind?, made, Option.map_some], renames_copied free (stands.whole.child x inside _ held)⟩
  · rw [placed_inside first free, placed_inside second free] at same
    have single : (t.ids.map f).Nodup := made.places.nodup_iff.2 List.nodup_range'
    exact List.inj_on_of_nodup_map single first second same
  · obtain ⟨n, found, -, made⟩ := copy inside
    rw [← base.ty (stands.lt_size x inside), Arena.ty?, made, Arena.ty?, found]
    rfl
  · rw [placed_inside inside free]
    exact base.kinds.size.trans (made.fresh inside)
  · obtain ⟨m, -, held', made⟩ := copy inside
    obtain ⟨kind, ty, span⟩ := m
    cases held.symm.trans held'
    rw [Arena.kind?, made, Option.map_some]
    simp [Kind.copied, placed, kept]

/-- In `d`, `t'` is a copy of the tree `t` of `a`. -/
def Copy (a d : Arena) (redirects : Redirects) (t t' : Tree) : Prop :=
  ∃ f, CopiedBy a d redirects t f ∧ t' = t.renamed d f

end Tree

def Makes {ω : Type} (a b : Arena) (ts us : List Tree) (fits : Arena → Tree → Prop) (r : NodeId) (w : Workspace ω) :
    Prop :=
  b.Retains w.arena ∧ ∃ t : Tree, r = t.id ∧ Rebuilt a w.arena ts (us ++ [t]) ∧ ∀ d, w.arena.Retains d → fits d t

theorem Makes.since {ω : Type} {fits : Arena → Tree → Prop} {r : NodeId} {w : Workspace ω}
    (makes : Makes a c ts us fits r w) (earlier : b.Retains c) : Makes a b ts us fits r w :=
  ⟨earlier.trans makes.1, makes.2⟩

namespace Pass

variable {ε ω : Type} [OfTreeError ε] {bad : ε → Prop} {w : Workspace ω} {fits : Arena → Tree → Prop}

omit [OfTreeError ε] in
theorem push_makes {n : Node} (built : Rebuilt a w.arena ts (us ++ vs)) (slots : n.kind.children = vs.map Tree.id)
    (fit : ∀ d, w.arena.Retains d → d.ty? w.arena.size = n.ty → fits d (.node w.arena.size n.kind vs)) :
    Ends bad (push n : Pass ε ω NodeId) w (Makes a w.arena ts us fits) := by
  refine .of_ok (push_run n w) ⟨w.arena.retains_push n, _, rfl, built.node slots, fun d later => ?_⟩
  refine fit d ((w.arena.retains_push n).trans later) ?_
  rw [later.ty (by simp), w.arena.ty?_push_size]

omit [OfTreeError ε] in
theorem leaf_makes {n : Node} (built : Rebuilt a w.arena ts us) (slots : n.kind.children = [])
    (fit : ∀ d, w.arena.Retains d → d.ty? w.arena.size = n.ty → fits d (.node w.arena.size n.kind [])) :
    Ends bad (push n : Pass ε ω NodeId) w (Makes a w.arena ts us fits) := by
  have built : Rebuilt a w.arena ts (us ++ []) := by simpa using built
  exact push_makes built slots fit

theorem deepCopy_makes (base : a.Retains w.arena) (built : Rebuilt a w.arena ts us) (stands : t.StandsIn a)
    (once : t.ids.Nodup) (free : ∀ x ∈ t.ids, redirects[x]? = none) :
    Ends bad (deepCopy t.id redirects : Pass ε ω NodeId) w (Makes a w.arena ts us fun d t' => Copy a d redirects t t') := by
  have here := stands.extend base.kinds
  have listed := here.descendants_eq once
  have tree := here.treeWithin ((here.height_le_size once).trans (Nat.le_succ _))
  obtain ⟨_, copies, c, ran, copied, rfl, -⟩ := deepCopy_run (ε := ε) tree redirects
  rw [listed] at copied
  have made := duplicated_redirectCopies redirects once copied
  generalize redirectCopies copies redirects c = c at ran made
  have copiedBy := CopiedBy.of_duplicated made base stands free
  have rendered := copiedBy.rendered
  have top : copies.rename t.id = placed redirects t.ids copies.rename t.id := (placed_inside t.id_mem_ids free).symm
  refine .of_ok ran ⟨made.kept.retains, t.renamed c (placed redirects t.ids copies.rename), ?_, built.append ⟨?_, ?_, ?_, ?_⟩,
    fun d later => ⟨_, copiedBy.later later stands, (renamed_later rendered stands later.kinds).symm⟩⟩
  · rw [id_renamed, top]
  · exact made.kept.kinds
  · simpa using stands.renamed rendered fun _ => id
  · rw [idsOf_singleton, ids_renamed]
    exact once.map_on fun x first y second => rendered.injective x first y second
  · intro y isCopy
    rw [idsOf_singleton, ids_renamed] at isCopy
    obtain ⟨x, inside, rfl⟩ := List.mem_map.1 isCopy
    rw [placed_inside inside free]
    exact made.fresh inside

end Pass

end DerivedTables
