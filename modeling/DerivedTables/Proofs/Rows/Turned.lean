import DerivedTables.Proofs.Rows.FoldTree

/-!
What may come into the place of a node when recognition leaves it.
-/

namespace DerivedTables

def Kind.isCollection : Kind → Bool
  | dataset .. | pipeline .. => true
  | _ => false

def Kind.isAggregate : Kind → Bool
  | reduce .. => true
  | _ => false

def Kind.isReplaced : Kind → Bool
  | rows _ | access .. | invoke .. => true
  | _ => false

@[simp] theorem Kind.isReplaced_withChildren (k : Kind) (filled : List NodeId) :
    (k.withChildren filled).isReplaced = k.isReplaced := by
  unfold withChildren
  split <;> rfl

def RowMember.Makes : RowMember → Kind → Prop
  | .filter, k => k.isCollection = true
  | .includes, k | .reduce, k => k.isAggregate = true

inductive Tree.Turned : Tree → Tree → Prop
  | same {t : Tree} (other : ∀ operand, t.kind ≠ .rows operand) : Turned t t
  | dataset {t t' : Tree} {operand : NodeId} (rows : t.kind = .rows operand) (made : t'.kind.isCollection = true) :
    Turned t t'
  | intent {id property : NodeId} {s t' : Tree} {rest : List Tree} {member : RowMember}
    (source : s.kind.isCollection = true) (made : t'.kind = .intent member s.id) :
    Turned (.node id (.access s.id property) (s :: rest)) t'
  | call {id source : NodeId} {args : List NodeId} {c t' : Tree} {rest : List Tree} {member : RowMember}
    (callee : c.kind = .intent member source) (made : member.Makes t'.kind) :
    Turned (.node id (.invoke c.id args) (c :: rest)) t'

theorem Tree.Turned.eq_of_kept {t t' : Tree} (turned : t.Turned t') (kept : t.kind.isReplaced = false) : t' = t := by
  cases turned with
  | same => rfl
  | dataset rows =>
    rw [rows] at kept
    cases kept
  | intent => cases kept
  | call => cases kept

structure Tree.SameHead (t t' : Tree) : Prop where
  id : t'.id = t.id
  kind : t'.kind = t.kind.withChildren (t'.parts.map Tree.id)
  parts : t'.parts.length = t.parts.length
  items : ∀ s ∈ t.parts, s.kind.isReplaced = false → s.id ∈ roots t'.parts

inductive Tree.Becomes : Tree → Tree → Prop
  | node {id : NodeId} {kind : Kind} {ts ts' : List Tree} {t' : Tree} (count : ts.length = ts'.length)
    (each : ∀ p ∈ ts.zip ts', Becomes p.1 p.2)
    (turned : (Tree.node id (kind.withChildren (ts'.map Tree.id)) ts').Turned t') : Becomes (.node id kind ts) t'

theorem exists_mem_zip {α β : Type} {xs : List α} {ys : List β} {x : α} (count : xs.length = ys.length)
    (listed : x ∈ xs) : ∃ y, (x, y) ∈ xs.zip ys := by
  rw [← List.map_fst_zip count.le] at listed
  obtain ⟨⟨_, y⟩, pair, rfl⟩ := List.mem_map.1 listed
  exact ⟨y, pair⟩

namespace Tree.Becomes

variable {t t' : Tree}

theorem id_of_kept (becomes : t.Becomes t') (kept : t.kind.isReplaced = false) : t'.id = t.id := by
  obtain ⟨-, -, turned⟩ := becomes
  rw [turned.eq_of_kept (by simpa using kept)]
  rfl

theorem sameHead (becomes : t.Becomes t') (kept : t.kind.isReplaced = false) : t.SameHead t' := by
  obtain @⟨id, kind, ts, ts', _, count, each, turned⟩ := becomes
  obtain rfl := turned.eq_of_kept (by simpa using kept)
  refine ⟨rfl, rfl, count.symm, fun s part fixed => ?_⟩
  obtain ⟨s', pair⟩ := exists_mem_zip count part
  exact (each _ pair).id_of_kept fixed ▸ mem_roots (List.of_mem_zip pair).2

end Tree.Becomes

end DerivedTables
