import DerivedTables.Proofs.Compilation.SplitColumns
import DerivedTables.Proofs.Eval.Functions

/-!
What a split does to columns that can be called.
-/

namespace DerivedTables

namespace Storage

variable {a b : Arena} {t : Tree} {columns : List (NodeId × String × NodeId)}

theorem function_of_withChildren {k : Kind} {children params : List NodeId} {name : Option String} {body : NodeId}
    (shown : k.withChildren children = .function name params body) : ∃ name₀ params₀ body₀, k = .function name₀ params₀ body₀ := by
  have same : k.name = (Kind.function name params body).name := by rw [← shown, Kind.name_withChildren]
  cases k <;> first | exact ⟨_, _, _, rfl⟩ | exact absurd same (by simp [Kind.name])

theorem Divided.params_plain (divided : Divided a b columns) (sighted : t.Sighted a) {x body : NodeId} {name : Option String}
    {params : List NodeId} (origin : x ∈ t.ids ∨ a.size ≤ x) (held : b.kind? x = some (.function name params body)) :
    ∀ p ∈ params, ¬ b.Callable p := by
  intro p' listed
  obtain live | beyond := origin
  · obtain ⟨k, held'⟩ := Arena.exists_kind?_of_lt (sighted.stands.lt_size x live)
    obtain ⟨col, known, d, is_column, rfl⟩ | ⟨children, there, filled⟩ := divided.kind_cases held'
    · obtain ⟨_, _, _, column⟩ := divided.column known is_column
      cases held.symm.trans column.held
    have shown := Option.some_injective _ (held.symm.trans there)
    obtain ⟨name₀, params₀, body₀, rfl⟩ := function_of_withChildren shown.symm
    obtain ⟨first, last, rfl, slots, -⟩ := forall₂_append_left filled
    obtain ⟨-, rfl, -⟩ : name = name₀ ∧ params = first ∧ _ := by
      simpa [Kind.withChildren, slots.length_eq] using shown
    obtain ⟨p, param, same⟩ := Tree.exists_of_mem_forall₂ slots p' listed
    obtain ⟨label, declared, found⟩ := sighted.params live held' p param
    have plain : ¬ b.Callable p := by
      obtain ⟨col, known, d, is_column, rfl⟩ | ⟨_, there, -⟩ := divided.kind_cases found
      · cases found.symm.trans is_column.stands.held
      · exact Arena.not_callable there rfl (by simp [Kind.withChildren, Kind.named])
    obtain rfl | ⟨shown, reference⟩ := same
    · exact plain
    · exact Arena.not_callable reference rfl fun y leads => by cases leads; exact plain
  · obtain ⟨_, -, _, _, _, _, -, column, rfl | ⟨_, _, -, other⟩⟩ := divided.made beyond held
    · cases held.symm.trans column.halves
    · cases other

end Storage

/-- `T { m(k: number) = k, p = m }` -/
def secondName : Program :=
  ⟨[.definition "T" [.method "m" [⟨"k", some (.named "number" false), none⟩] (.identifier none "k") none,
    .derived "p" (.identifier none "m") none] none]⟩

theorem secondName_evaluated : (Compilation.lower secondName >>= Compilation.resolve).toOption.any (fun c =>
      (c.assignTypes 8).toOption.any (fun c₁ => c₁.recognizeRows.toOption.any fun c₂ =>
        c₂.splitColumns.toOption.any fun _ => c₂.root == 8 && ((c₂.arena.kind? 8).any fun k => k.children.contains 6) &&
          ((c₂.arena.kind? 6).any fun k => k.children.contains 5) &&
          c₂.arena.layer? 5 == some .property &&
          ((c₂.arena.kind? 5).all fun k => k.children.all fun d => !Storage.isLate c₂.arena d) &&
          decide (Setting.scalar? ((Setting.mk c₂.arena ([] : List (String × Value ℚ))).callWithin 9 5 [.number 3] ∅) =
            some (.inl 3)))) = true ∧
    (compile secondName ⟨.pipelines, 32, true⟩).toOption.any (fun c₂ =>
      (compile secondName ⟨.split, 32, true⟩).toOption.any (fun c₃ =>
        decide (c₃.arena.writesAt 11 = [("p_int_0", 4)]) &&
          decide (c₃.arena.ty? 4 = some (.function (.cons "k" .number .nil) .number)) &&
          decide (Setting.scalar? ((Setting.mk c₂.arena ([] : List (String × Value ℚ))).callWithin 9 5 [.number 3] ∅) =
            some (.inl 3)) &&
          (Setting.fresh ((Setting.mk c₃.arena ([] : List (String × Value ℚ))).callWithin 9 5 [.number 3])).toOption.isNone)) =
        true := by
  constructor <;> decide +kernel

end DerivedTables
