import DerivedTables.Proofs.Tree.Tour
import DerivedTables.Tree.Copy

/-!
Until columns are split, no node of the arena is a split one, in the tree or out of it.
-/

namespace DerivedTables

def Kind.isSplit : Kind → Bool
  | split .. => true
  | _ => false

@[simp] theorem Kind.isSplit_withChildren (k : Kind) (filled : List NodeId) :
    (k.withChildren filled).isSplit = k.isSplit := by
  unfold withChildren
  split <;> rfl

namespace Arena

variable {p : Prop} {a b : Arena} {x : NodeId} {k : Kind}

theorem kind?_push_cases {n : Node} (held : (a.push n).kind? x = some k) :
    (x = a.size ∧ k = n.kind) ∨ a.kind? x = some k := by
  simp only [kind?, node?_push] at held
  split at held
  · rename_i last
    exact .inl ⟨last, by simpa using held.symm⟩
  · exact .inr held

structure SplitOnlyIf (p : Prop) (a : Arena) : Prop where
  of_split : ∀ {x k}, a.kind? x = some k → k.isSplit = true → p

abbrev Unsplit : Arena → Prop := SplitOnlyIf False

namespace SplitOnlyIf

theorem empty : Arena.empty.SplitOnlyIf p := ⟨fun held => by simp [kind?, node?, Arena.empty] at held⟩

theorem push (only : a.SplitOnlyIf p) {n : Node} (kind : n.kind.isSplit = true → p) : (a.push n).SplitOnlyIf p := by
  refine ⟨fun {x k} held split => ?_⟩
  obtain ⟨-, rfl⟩ | held := kind?_push_cases held
  · exact kind split
  · exact only.of_split held split

theorem modify (only : a.SplitOnlyIf p) {change : Node → Node}
    (kind : ∀ n, (change n).kind.isSplit = true → p ∨ n.kind.isSplit = true) : (a.modify x change).SplitOnlyIf p := by
  refine ⟨fun {y k} held split => ?_⟩
  obtain ⟨n, found, rfl⟩ := Option.map_eq_some_iff.1 held
  rw [node?_modify] at found
  split at found
  · obtain ⟨m, there, rfl⟩ := Option.map_eq_some_iff.1 found
    exact (kind m split).elim id (only.of_split (by rw [kind?, there]; rfl))
  · exact only.of_split (by rw [kind?, found]; rfl) split

theorem setKind (only : a.SplitOnlyIf p) (kind : k.isSplit = true → p) : (a.setKind x k).SplitOnlyIf p :=
  only.modify fun _ split => .inl (kind split)

theorem of_kinds (only : a.SplitOnlyIf p) (same : ∀ x, b.kind? x = a.kind? x) : b.SplitOnlyIf p :=
  ⟨fun held => only.of_split ((same _).symm.trans held)⟩

end SplitOnlyIf

end Arena

namespace Pass

@[simp] theorem isSplit_redirected (copies : Copies) (redirects : Redirects) (k : Kind) :
    (redirected copies redirects k).isSplit = k.isSplit := by
  unfold redirected
  split
  · split <;> rfl
  · rfl

theorem splitOnlyIf_redirectCopies {p : Prop} (copies : Copies) (redirects : Redirects) {a : Arena}
    (only : a.SplitOnlyIf p) : (redirectCopies copies redirects a).SplitOnlyIf p := by
  rw [redirectCopies, Std.TreeMap.foldl_eq_foldl_toList]
  induction copies.toList generalizing a with
  | nil => exact only
  | cons pair rest ih => exact ih (only.modify fun _ split => .inr (by simpa using split))

variable {ε ω α β γ : Type} {p : Prop} {view : ω → γ} {m : Pass ε ω α} {f : α → Pass ε ω β}

structure Calm (p : Prop) (view : ω → γ) (m : Pass ε ω α) : Prop where
  run : ∀ {w x w'}, w.arena.SplitOnlyIf p → m w = .ok x w' →
    w'.arena.SplitOnlyIf p ∧ view w'.notes = view w.notes

namespace Calm

theorem bind (first : Calm p view m) (second : ∀ x, Calm p view (f x)) : Calm p view (m >>= f) := by
  refine ⟨fun only done => ?_⟩
  obtain ⟨x, w₁, ran, done⟩ := bind_eq_ok.1 done
  obtain ⟨only, same⟩ := first.run only ran
  obtain ⟨only, same'⟩ := (second x).run only done
  exact ⟨only, same'.trans same⟩

theorem of_same (same : ∀ {w x w'}, m w = .ok x w' → w' = w) : Calm p view m :=
  ⟨fun only done => by rw [same done]; exact ⟨only, rfl⟩⟩

theorem blind (calm : Calm p view m) : Calm p (fun _ => ()) m := ⟨fun only done => ⟨(calm.run only done).1, rfl⟩⟩

theorem keeps {w w' : Workspace ω} {x : α} (calm : Calm True view m) (done : m w = .ok x w') :
    view w'.notes = view w.notes :=
  (calm.run ⟨fun _ _ => trivial⟩ done).2

theorem of_reads {known : α → Prop} (reads : Reads m known) : Calm p (fun _ => ()) m :=
  ⟨fun only done => ⟨(reads.run done).1 ▸ only, rfl⟩⟩

theorem pure (x : α) : Calm p view (Pure.pure x : Pass ε ω α) := .of_same fun done => by cases done; rfl

theorem throw (e : ε) : Calm p view (throw e : Pass ε ω α) := .of_same fun done => by cases done

theorem arena : Calm p view (Pass.arena : Pass ε ω Arena) := .of_same fun done => by cases done; rfl

theorem modifyNotes {change : ω → ω} (same : ∀ n, view (change n) = view n) :
    Calm p view (Pass.modifyNotes change : Pass ε ω Unit) :=
  ⟨fun only done => by cases done; exact ⟨only, same _⟩⟩

theorem ofExcept (e : Except ε α) : Calm p view (Pass.ofExcept e : Pass ε ω α) := by
  cases e with
  | ok x => exact .pure x
  | error e => exact .throw e

theorem push {n : Node} (kind : n.kind.isSplit = false) : Calm p view (Pass.push n : Pass ε ω NodeId) :=
  ⟨fun only done => by cases done; exact ⟨only.push (by simp [kind]), rfl⟩⟩

theorem setSpan (x : NodeId) (span : Option Span) : Calm p view (Pass.modifyArena (·.setSpan x span) : Pass ε ω Unit) :=
  ⟨fun only done => by cases done; exact ⟨only.modify fun _ split => .inr split, rfl⟩⟩

theorem mapM (each : ∀ x, Calm p view (f x)) (xs : List α) : Calm p view (xs.mapM f) := by
  induction xs with
  | nil => exact .pure _
  | cons x xs ih =>
    rw [List.mapM_cons]
    exact .bind (each x) fun _ => .bind ih fun _ => .pure _

theorem foldlM {step : β → α → Pass ε ω β} (each : ∀ y x, Calm p view (step y x)) (xs : List α) (y : β) :
    Calm p view (xs.foldlM step y) := by
  induction xs generalizing y with
  | nil => exact .pure _
  | cons x xs ih =>
    rw [List.foldlM_cons]
    exact .bind (each y x) ih

variable [OfTreeError ε]

theorem node {x : NodeId} {f : Node → Pass ε ω β} (each : ∀ n : Node, (n.kind.isSplit = true → p) → Calm p view (f n)) :
    Calm p view (Pass.node x >>= f) := by
  refine ⟨fun only done => ?_⟩
  obtain ⟨n, w₁, ran, rest⟩ := bind_eq_ok.1 done
  obtain ⟨rfl, found⟩ := node_run ran
  exact (each n (only.of_split (by rw [Arena.kind?, found]; rfl))).run only rest

theorem kind (x : NodeId) : Calm p view (Pass.kind x : Pass ε ω Kind) := .of_same fun done => (kind_run done).1

theorem copySubtree (fuel : Nat) (x : NodeId) (copies : Copies) :
    Calm p view (Pass.copySubtree fuel x copies : Pass ε ω _) := by
  induction fuel generalizing x copies with
  | zero => exact .throw _
  | succ fuel ih =>
    refine .node fun n kind => .bind (.foldlM (fun _ _ => .bind (ih _ _) fun _ => .pure _) _ _) fun made =>
      .bind ⟨fun only done => ?_⟩ fun _ => .pure _
    cases done
    exact ⟨only.push (by simpa using kind), rfl⟩

theorem deepCopy (root : NodeId) (redirects : Redirects) : Calm p view (Pass.deepCopy root redirects : Pass ε ω _) := by
  refine .bind .arena fun _ => .bind (copySubtree _ _ _) fun ⟨copy, copies⟩ => .bind ⟨fun only done => ?_⟩ fun _ => .pure _
  cases done
  exact ⟨splitOnlyIf_redirectCopies copies redirects only, rfl⟩

end Calm

end Pass

namespace Visitor

variable {ε ω σ : Type} {p : Prop}

structure Calm (p : Prop) (v : Visitor ε ω σ) : Prop where
  before : ∀ id lineage state, Pass.Calm p (fun _ => ()) (v.before id lineage state)
  after : ∀ id lineage state, Pass.Calm p (fun _ => ()) (v.after id lineage state)

theorem Calm.leaving {after : NodeId → Lineage → σ → Pass ε ω (Option NodeId)}
    (each : ∀ id lineage state, Pass.Calm p (fun _ => ()) (after id lineage state)) : (Visitor.leaving after).Calm p :=
  ⟨fun _ _ _ => .pure _, each⟩

variable [OfTreeError ε] {v : Visitor ε ω σ}

theorem Calm.visit (calm : v.Calm p) (fuel : Nat) (id : NodeId) (lineage : Lineage) (state : σ) :
    Pass.Calm p (fun _ => ()) (v.visit fuel id lineage state) := by
  induction fuel generalizing id lineage state with
  | zero => exact .throw _
  | succ fuel ih =>
    refine ⟨fun only done => ⟨?_, rfl⟩⟩
    obtain ⟨_, entry, w₁, -, entered, going⟩ := visit_cases done
    have only := ((calm.before ..).run only entered).1
    obtain ⟨here, -, -, visited⟩ | ⟨-, k, children, w₂, result, held, visited, left, -⟩ := going
    · exact ((ih ..).run only visited).1
    · have only₂ := ((Pass.Calm.mapM (fun child => ih child (id :: lineage) _) k.children).run only visited).1
      refine ((calm.after ..).run ?_ left).1
      dsimp only
      split
      · exact only₂
      · exact only₂.setKind (by simpa using only.of_split held)

theorem Calm.walk (calm : v.Calm p) (root : NodeId) (state : σ) : Pass.Calm p (fun _ => ()) (v.walk root state) :=
  .bind .arena fun _ => calm.visit _ _ _ _

end Visitor

end DerivedTables
