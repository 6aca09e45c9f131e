import DerivedTables.Proofs.Compilation.Staging
import DerivedTables.Proofs.Eval.Exact
import DerivedTables.Proofs.Storage.Meaning
import DerivedTables.Proofs.Storage.Writes

/-!
A split keeps what columns mean.
-/

namespace DerivedTables

namespace Storage

theorem Separated.of_splitAll {a b : Arena} {t : Tree} {summary total : StorageSummary} (staged : Staged a t)
    (done : splitAll t.id ⟨a, summary⟩ = .ok () ⟨b, total⟩) : Separated a b t := by
  obtain ⟨_, _, columns, ran, -, divided, each, all⟩ := splitAll_runs staged.layered staged.toLinked summary
  cases ran.symm.trans done
  have cut {column : NodeId × String × NodeId} {d : Tree} {split read : NodeId} {ws : List (String × NodeId)}
      (listed : column ∈ columns) (is_column : IsColumn a column d)
      (halves : Column a b column.1 column.2.1 d split read ws) :
      (Cut.mk column.1 column.2.1 d split read ws).In a b t :=
    ⟨halves, staged, (each column listed).1, is_column.stands⟩
  refine ⟨staged, fun {p name y} live held => ?_, fun live apart => ?_, fun beyond held => ?_⟩
  · have listed := all live held
    obtain ⟨-, d, is_column⟩ := each _ listed
    obtain ⟨split, read, ws, halves⟩ := divided.column listed is_column
    exact ⟨_, cut listed is_column halves, rfl⟩
  · refine divided.kept (staged.stands.lt_size _ live) fun {column d} listed is_column => ?_
    obtain ⟨split, read, ws, halves⟩ := divided.column listed is_column
    exact apart _ (cut listed is_column halves)
  · obtain ⟨column, listed, d, split, read, ws, is_column, halves, place⟩ := divided.made beyond held
    exact ⟨_, cut listed is_column halves, place⟩

end Storage

namespace Arena

def isBackward (a : Arena) : Bool :=
  (List.range a.size).all fun x => (a.kind? x).all fun k => (k.entered ++ k.links.flatMap a.code).all (· < x)

theorem not_recurs_of_isBackward {a : Arena} (backward : a.isBackward = true) (x : NodeId) : ¬ a.Recurs x :=
  @not_recurs_of_isRanked a id backward x

def writesScalars {N : Type} [Arithmetic N] (a : Arena) (context : List (String × Value N)) (depth : Nat) : Bool :=
  (List.range a.size).all fun x => (a.writesAt x).all fun write =>
    (Setting.scalar? ((Setting.mk a context).evalWithin depth write.2 ∅)).isSome

theorem evaluates_of_writesScalars {N : Type} [Arithmetic N] {a : Arena} {context : List (String × Value N)} {depth : Nat}
    (scalars : a.writesScalars context depth = true) {halves read : NodeId} {writes : List (String × NodeId)}
    (held : a.kind? halves = some (.split read writes)) :
    ∀ w ∈ writes.map Prod.snd, ∃ v, (Setting.mk a context).Evaluates ∅ w v := by
  intro w stored
  obtain ⟨write, listed, rfl⟩ := List.mem_map.1 stored
  have here := List.all_eq_true.1 scalars halves (List.mem_range.2 (lt_size_of_kind? held))
  rw [writesAt, held, List.all_eq_true] at here
  obtain ⟨x, scalar⟩ := Option.isSome_iff_exists.1 (here write listed)
  exact ⟨_, .of_scalar? depth x scalar⟩

end Arena

/-- A derived column of a typed program without recursion gives, evaluated or called, what it gave before
the split, in every row in which all that is written has a value. -/
theorem split_keeps_columns {N : Type} [Arithmetic N] {program : Program} {limit : Nat} {c c₁ c₂ c₃ : Compilation}
    (resolved : (Compilation.lower program >>= Compilation.resolve) = .ok c) (typed : c.assignTypes limit = .ok c₁)
    (next : c₂ = c₁ ∨ c₁.recognizeRows = .ok c₂) (split : c₂.splitColumns = .ok c₃) (plain : ∀ z above,
    c₂.arena.Descends [c₂.root] (z :: above) → ∀ k, c₂.arena.kind? z = some k → k.isEntry = true → ¬ c₂.arena.Recurs z)
    (context : List (String × Value N)) (written : ∀ q above, c₂.arena.Descends [c₂.root] (q :: above) → ∀ name halves
    read writes, c₃.arena.kind? q = some (.derived name halves) → c₃.arena.kind? halves = some (.split read writes) → ∀
    w ∈ writes.map Prod.snd, ∃ v, (Setting.mk c₃.arena context).Evaluates ∅ w v) (p : NodeId) (above : Lineage) (path :
    c₂.arena.Descends [c₂.root] (p :: above)) (name : String) (derivation : NodeId) (column : c₂.arena.kind? p = some
    (.derived name derivation)) : (∀ v, (Setting.mk c₂.arena context).Evaluates ∅ p v → (Setting.mk c₃.arena
    context).Evaluates ∅ p v) ∧ ∀ args v, (Setting.mk c₂.arena context).Calls p args v → (Setting.mk c₃.arena
    context).Calls p args v := by
  obtain ⟨t, root, staged⟩ := Compilation.staged resolved typed next plain
  obtain ⟨⟨_, w⟩, ran, last⟩ := except_bind_eq_ok.1 split
  cases last
  rw [← root] at ran path
  have sep := Storage.Separated.of_splitAll staged (Pass.placed_eq_ok.1 ran)
  obtain ⟨cut, here, rfl⟩ := sep.cut (staged.stands.mem_ids path) column
  have values {c : Storage.Cut} (there : c.In c₂.arena w.arena t) :
      ∀ x ∈ c.writes.map Prod.snd, ∃ v, (Setting.mk w.arena context).Evaluates ∅ x v := by
    obtain ⟨lineage, path⟩ := staged.stands.exists_path [] there.live
    exact written c.property lineage (root ▸ path) _ _ _ _ there.held there.halves
  obtain ⟨u, depth, valued⟩ := sep.exists_valued values
  exact ⟨fun v => sep.evaluates here valued, fun args v => sep.calls here valued⟩

/-- `T { open: boolean, late: boolean, due = open && late,
calls(forced: boolean) = if forced then open == late else due || late }` -/
def reminders : Program :=
  ⟨[.definition "T" [.property "open" (.named "boolean" false) none, .property "late" (.named "boolean" false) none,
    .derived "due" (.binary none .and (.identifier none "open") (.identifier none "late")) none,
    .method "calls" [⟨"forced", some (.named "boolean" false), none⟩]
      (.ifElse none (.identifier none "forced")
        (.binary none .eq (.identifier none "open") (.identifier none "late"))
        (.binary none .or (.identifier none "due") (.identifier none "late"))) none] none]⟩

def reminded : List (String × Value ℚ) := [("row", .object [("open", .boolean true), ("late", .boolean false)])]

/-- Both branches of `calls` are written before its parameter is bound, and the first of them reads the same
after that. -/
theorem reminders_split_keeps_columns :
    ∃ c c₁ c₂ c₃, (Compilation.lower reminders >>= Compilation.resolve) = .ok c ∧ c.assignTypes 8 = .ok c₁ ∧
      c₁.recognizeRows = .ok c₂ ∧ c₂.splitColumns = .ok c₃ ∧
      c₃.arena.writesAt 24 = [("calls_int_0", 10), ("calls_int_1", 13)] ∧
      (Setting.mk c₂.arena reminded).Calls 16 [.boolean true] (.boolean false) ∧
      (Setting.mk c₃.arena reminded).Calls 16 [.boolean true] (.boolean false) := by
  obtain ⟨c, resolved, succeeds⟩ : ∃ c, (Compilation.lower reminders >>= Compilation.resolve) = .ok c ∧
      (c.assignTypes 8).toOption.any (fun c₁ => c₁.recognizeRows.toOption.any fun c₂ =>
        c₂.splitColumns.toOption.any fun c₃ => c₂.root == 19 && c₂.arena.isBackward &&
          ((c₂.arena.kind? 19).any fun k => k.children.contains 17) &&
          ((c₂.arena.kind? 17).any fun k => k.children.contains 16) &&
          c₂.arena.layer? 16 == some .property &&
          c₃.arena.writesScalars reminded 9 && c₃.arena.writesAt 24 == [("calls_int_0", 10), ("calls_int_1", 13)] &&
          decide (Setting.scalar? ((Setting.mk c₂.arena reminded).callWithin 9 16 [.boolean true] ∅) =
            some (.inr false))) = true :=
    except_any (by decide +kernel)
  obtain ⟨c₁, typed, succeeds⟩ := except_any succeeds
  obtain ⟨c₂, recognized, succeeds⟩ := except_any succeeds
  obtain ⟨c₃, split, found⟩ := except_any succeeds
  simp only [Bool.and_eq_true, beq_iff_eq, decide_eq_true_eq] at found
  obtain ⟨⟨⟨⟨⟨⟨⟨root, backward⟩, table⟩, column⟩, derived⟩, scalars⟩, writes⟩, called⟩ := found
  have before : (Setting.mk c₂.arena reminded).Calls 16 [.boolean true] (.boolean false) :=
    .of_scalar? 9 (.inr false) called
  obtain ⟨k, top, listed⟩ := (Option.any_eq_true _ _).1 table
  obtain ⟨l, inside, listed'⟩ := (Option.any_eq_true _ _).1 column
  obtain ⟨m, held, layer⟩ := Option.map_eq_some_iff.1 derived
  obtain ⟨name, derivation, rfl⟩ := Kind.derived_of_layer layer
  have path : c₂.arena.Descends [c₂.root] [16, 17, 19] := by
    rw [root]
    exact .child (.child .here top (by simpa using listed)) inside (by simpa using listed')
  refine ⟨c, c₁, c₂, c₃, resolved, typed, recognized, split, writes, before, ?_⟩
  exact (split_keeps_columns resolved typed (.inr recognized) split
    (fun z _ _ _ _ _ => Arena.not_recurs_of_isBackward backward z) reminded
    (fun _ _ _ _ _ _ _ _ halves => Arena.evaluates_of_writesScalars scalars halves) 16 [17, 19] path name derivation
    held).2 _ _ before

end DerivedTables
