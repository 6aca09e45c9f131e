import DerivedTables.Proofs.Scope.Grounded

/-!
How far one run takes the lets that only rename out of a program.
-/

namespace DerivedTables

open Tree Alias

namespace Arena

/-- The let does more than rename, but a reference is all that is left of its value. -/
def Veiled (a : Arena) (x : NodeId) : Prop :=
  a.alias? x = none ∧ ∃ name value next left target shown, a.kind? x = some (.binding name value next) ∧
    a.Remains value left ∧ a.kind? left = some (.reference target shown)

end Arena

theorem Kind.binding_of_withChildren {k : Kind} {left : List NodeId} {name : String} {value next : NodeId}
    (count : left.length = k.children.length) (same : k.withChildren left = .binding name value next) :
    ∃ value₀ next₀, k = .binding name value₀ next₀ ∧ left = [value, next] := by
  unfold withChildren at same
  split at same <;> cases same
  · exact ⟨_, _, rfl, rfl⟩
  · obtain ⟨_, _, rfl⟩ := List.length_eq_two.1 count
    grind

theorem Kind.reference_of_withChildren {k : Kind} {left : List NodeId} {target : NodeId} {shown : String}
    (same : k.withChildren left = .reference target shown) : k = .reference target shown := by
  unfold withChildren at same
  split at same <;> first | exact same | cases same

namespace Tree

variable {a b : Arena} {t t' : Tree} {x : NodeId}

namespace Cleared

variable (cleared : t.Cleared a t') (stands : t.StandsIn a) (there : t'.StandsIn b)

include cleared stands there

theorem reference_of {target : NodeId} {shown : String} (inside : x ∈ t'.ids) (held : b.kind? x = some (.reference
    target shown)) : ∃ target₀ shown₀, a.kind? x = some (.reference target₀ shown₀) ∧ a.StandsFor target₀ target := by
  obtain ⟨k, l, -, before, after, became⟩ := cleared.became stands there inside
  cases after.symm.trans held
  generalize same : Kind.reference target shown = l at became
  cases became with
  | reference stood =>
    cases same
    exact ⟨_, _, before, stood⟩
  | node plain => exact absurd (Kind.reference_of_withChildren same.symm) (plain target shown)

theorem alias_iff (inside : x ∈ t'.ids) : b.alias? x ≠ none ↔ a.Veiled x := by
  obtain ⟨k, l, -, before, after, became⟩ := cleared.became stands there inside
  have part {value next : NodeId} {name : String} (held : b.kind? x = some (.binding name value next)) : value ∈ t'.ids := by
    have below := there.child_mem inside held (c := value) (by simp [Kind.children])
    rw [ids_eq]
    exact .tail _ below
  constructor
  · intro renames
    obtain ⟨⟨target, next⟩, found⟩ := Option.ne_none_iff_exists'.1 renames
    obtain ⟨name, value, shown, held, bound⟩ := Arena.alias?_eq_some found
    cases after.symm.trans held
    generalize same : Kind.binding name value next = l at became
    cases became with
    | reference => cases same
    | node plain parts =>
      obtain ⟨value₀, next₀, rfl, rfl⟩ := Kind.binding_of_withChildren parts.length_eq.symm same.symm
      obtain ⟨target₀, shown₀, named, -⟩ := cleared.reference_of stands there (part held) bound
      obtain _ | ⟨left, -⟩ := parts
      exact ⟨cleared.not_alias stands inside, name, value₀, next₀, value, target₀, shown₀, before, left, named⟩
  · rintro ⟨-, name, value, next, left, target, shown, held, remains, named⟩
    cases before.symm.trans held
    cases became with
    | node plain parts =>
      obtain _ | ⟨first, _ | ⟨second, ⟨⟩⟩⟩ := parts
      obtain rfl := first.unique remains
      obtain ⟨k', l', -, before', after', became'⟩ := cleared.became stands there (part after)
      cases before'.symm.trans named
      cases became' with
      | reference => rw [Arena.alias?_of_let after after']; simp
      | node plain' => exact absurd rfl (plain' target shown)

end Cleared

namespace Entire

theorem enter_of_none (entire : t.Entire a) (inside : x ∈ t.ids) (other : a.alias? x = none) (lineage : Lineage) :
    enter x lineage () ⟨a, ∅⟩ = .ok .keep ⟨a, ∅⟩ := by
  obtain ⟨k, held⟩ := Arena.exists_kind?_of_lt (entire.stands.lt_size x inside)
  by_cases named : ∃ target shown, k = .reference target shown
  · obtain ⟨target, shown, rfl⟩ := named
    have read : (Pass.notes : Pass ScopeError Aliases Aliases) ⟨a, ∅⟩ = .ok ∅ ⟨a, ∅⟩ := rfl
    have nothing : (∅ : Aliases)[target]? = none := Std.TreeMap.getElem?_emptyc
    rw [enter, bind_of_ok (Pass.kind_of_some held)]
    simp only
    rw [bind_of_ok read, nothing]
    rfl
  · by_cases bound : ∃ name value next, k = .binding name value next
    · obtain ⟨name, value, next, rfl⟩ := bound
      have below := entire.stands.child_mem inside held (c := value) (by simp [Kind.children])
      obtain ⟨l, there⟩ := Arena.exists_kind?_of_lt (entire.stands.lt_size value (ids_eq t ▸ List.mem_cons_of_mem _ below))
      refine enter_let held there ?_
      rintro target shown rfl
      cases other.symm.trans (Arena.alias?_of_let held there)
    · exact enter_other held (fun target shown same => named ⟨target, shown, same⟩)
        fun name value next same => bound ⟨name, value, next, same⟩

theorem removeAll_of_none (entire : t.Entire a) (other : ∀ x ∈ t.ids, a.alias? x = none) :
    removeAll t.id ⟨a, ∅⟩ = .ok t.id ⟨a, ∅⟩ := by
  rw [removeAll, Visitor.walk, bind_of_ok (Pass.arena_run _)]
  exact Visitor.visit_of_idle (fun x inside => entire.enter_of_none inside (other x inside)) (fun _ _ _ => rfl)
    entire.stands ((entire.stands.height_le_size entire.once).trans (Nat.le_succ _)) []

end Entire

end Tree

/-- A run takes out the lets whose value is a reference, points what referred to them at what they stood
for, and a second run finds more to take out exactly if a reference is all that is left of the value of
another let. -/
theorem removeAll_again_iff {program : Program} {c : Compilation} {root : NodeId} {named : Workspace Resolution.Notes}
    (lowered : Compilation.lower program = .ok c) (resolved : Resolution.resolveNames c.root ⟨c.arena, ⟨.initial, ∅⟩⟩ =
    .ok root named) : ∃ w w₂, removeAll root ⟨named.arena, ∅⟩ = .ok root w ∧ removeAll root ⟨w.arena, ∅⟩ = .ok root w₂ ∧
    (∀ x ∈ named.arena.descendants root, ∀ name value next, named.arena.kind? x = some (.binding name value next) → (x ∈
    w.arena.descendants root ↔ named.arena.alias? x = none)) ∧ (∀ x ∈ w.arena.descendants root, ∀ target shown,
    w.arena.kind? x = some (.reference target shown) → target ∈ w.arena.descendants root ∧ named.arena.alias? target =
    none) ∧ (∀ x ∈ w.arena.descendants root, w.arena.alias? x ≠ none ↔ named.arena.Veiled x) ∧ (w₂.arena = w.arena ↔ ∀ x
    ∈ named.arena.descendants root, ¬ named.arena.Veiled x) := by
  obtain ⟨t₀, lowers, held⟩ := Compilation.lower_holds lowered
  obtain ⟨t, -, -, entire, rfl⟩ := held.resolved lowers.isProgram (held.root ▸ resolved)
  obtain ⟨b, notes, t', ran, entire', same', cleared⟩ := entire.removeAll_cleared
  obtain ⟨b₂, notes₂, t'', ran₂, entire'', same'', cleared'⟩ := entire'.removeAll_cleared
  rw [same'] at ran₂
  have live := entire.stands.descendants_eq entire.once
  have live' := same' ▸ entire'.stands.descendants_eq entire'.once
  have standing {x : NodeId} (veiled : named.arena.Veiled x) (inside : x ∈ t.ids) : x ∈ t'.ids := by
    obtain ⟨other, name, value, next, -, -, -, held, -⟩ := veiled
    exact cleared.mem_ids entire.stands inside held (by simp) other
  refine ⟨⟨b, notes⟩, ⟨b₂, notes₂⟩, ran, ran₂, ?_⟩
  rw [live, live']
  refine ⟨fun x inside name value next held => ⟨cleared.not_alias entire.stands, ?_⟩, fun x inside target shown held => ?_,
    fun x => cleared.alias_iff entire.stands entire'.stands, fun same x inside veiled => ?_, fun none => ?_⟩
  · exact cleared.mem_ids entire.stands inside held (by simp)
  · have there : target ∈ t'.ids :=
      (entire'.grounded.linked entire'.stands entire'.once (by simp)).links inside held target (by simp [Kind.links])
    exact ⟨there, cleared.not_alias entire.stands there⟩
  · -- What a second run leaves untouched it leaves in its place, and nothing left in its place renames.
    obtain rfl : b₂ = b := same
    obtain rfl := entire''.stands.unique entire'.stands same''
    have there := standing veiled inside
    exact (cleared.alias_iff entire.stands entire'.stands there).2 veiled (cleared'.not_alias entire'.stands there)
  · have idle := entire'.removeAll_of_none fun x inside => by
      by_contra renames
      obtain ⟨k, l, inside', -⟩ := cleared.became entire.stands entire'.stands inside
      exact none x inside' ((cleared.alias_iff entire.stands entire'.stands inside).1 renames)
    rw [same'] at idle
    cases ran₂.symm.trans idle
    rfl

/-- `f = (x: number) => { let a = x; let b = a; return b }` -/
def renamedTwice : Program :=
  ⟨[.assignment "f" (.lambda none [⟨"x", some (.named "number" false), none⟩]
    (.block none [.binding none "a" (.identifier none "x"), .binding none "b" (.identifier none "a"),
      .ret none (.identifier none "b")])) none]⟩

/-- Both lets go at once, and there is nothing to do again. -/
theorem renamedTwice_once : ∃ c root named w w₂, Compilation.lower renamedTwice = .ok c ∧ Resolution.resolveNames c.root
    ⟨c.arena, ⟨.initial, ∅⟩⟩ = .ok root named ∧ removeAll root ⟨named.arena, ∅⟩ = .ok root w ∧ removeAll root ⟨w.arena,
    ∅⟩ = .ok root w₂ ∧ (∃ x ∈ named.arena.descendants root, named.arena.alias? x ≠ none ∧ x ∉ w.arena.descendants root)
    ∧ w₂.arena = w.arena := by
  obtain ⟨c, lowered, found⟩ : ∃ c, Compilation.lower renamedTwice = .ok c ∧
      ((Resolution.resolveNames c.root).placed c.arena ⟨.initial, ∅⟩ Compilation.scopeError).toOption.any (fun named =>
        (named.2.arena.descendants named.1).any (fun x => (named.2.arena.alias? x).isSome) &&
        (named.2.arena.descendants named.1).all fun x =>
          (named.2.arena.kind? x).all fun k => k.name != "let binding" || (named.2.arena.alias? x).isSome) = true :=
    except_any (by decide +kernel)
  obtain ⟨⟨root, named⟩, resolved, found⟩ := except_any found
  obtain ⟨some, all⟩ := Bool.and_eq_true_iff.1 found
  have resolved := Pass.placed_eq_ok.1 resolved
  obtain ⟨w, w₂, ran, ran₂, stays, -, -, again⟩ := removeAll_again_iff lowered resolved
  refine ⟨c, root, named, w, w₂, lowered, resolved, ran, ran₂, ?_, again.2 ?_⟩
  · obtain ⟨x, inside, renames⟩ := List.any_eq_true.1 some
    have renames := Option.isSome_iff_ne_none.1 renames
    obtain ⟨⟨target, next⟩, same⟩ := Option.ne_none_iff_exists'.1 renames
    obtain ⟨name, value, shown, held, -⟩ := Arena.alias?_eq_some same
    exact ⟨x, inside, renames, fun left => renames ((stays x inside name value next held).1 left)⟩
  · rintro x inside ⟨other, name, value, next, -, -, -, held, -⟩
    have here := List.all_eq_true.1 all x inside
    simp [held, other, Kind.name] at here

/-- `f = (x: number) => { let a = { let b = x; return b }; return a }` -/
def renamedWithin : Program :=
  ⟨[.assignment "f" (.lambda none [⟨"x", some (.named "number" false), none⟩]
    (.block none [.binding none "a" (.block none [.binding none "b" (.identifier none "x"), .ret none (.identifier none "b")]),
      .ret none (.identifier none "a")])) none]⟩

/-- The outer let is left with a reference for its value, and goes when the lets are taken out again. -/
theorem renamedWithin_twice : ∃ c root named w w₂ x, Compilation.lower renamedWithin = .ok c ∧ Resolution.resolveNames
    c.root ⟨c.arena, ⟨.initial, ∅⟩⟩ = .ok root named ∧ removeAll root ⟨named.arena, ∅⟩ = .ok root w ∧ removeAll root
    ⟨w.arena, ∅⟩ = .ok root w₂ ∧ x ∈ w.arena.descendants root ∧ w.arena.alias? x ≠ none ∧ x ∉ w₂.arena.descendants
    root := by
  obtain ⟨c, lowered, found⟩ : ∃ c, Compilation.lower renamedWithin = .ok c ∧
      ((Resolution.resolveNames c.root).placed c.arena ⟨.initial, ∅⟩ Compilation.scopeError).toOption.any (fun named =>
        ((removeAll named.1).placed named.2.arena ∅ Compilation.scopeError).toOption.any fun first =>
          first.1 == named.1 &&
          ((removeAll named.1).placed first.2.arena ∅ Compilation.scopeError).toOption.any fun second =>
            second.1 == named.1 && (first.2.arena.descendants named.1).any fun x =>
              (first.2.arena.alias? x).isSome && !(second.2.arena.descendants named.1).contains x) = true :=
    except_any (by decide +kernel)
  obtain ⟨⟨root, named⟩, resolved, found⟩ := except_any found
  obtain ⟨⟨root', w⟩, ran, found⟩ := except_any found
  obtain ⟨same, found⟩ := Bool.and_eq_true_iff.1 found
  obtain ⟨⟨root₂, w₂⟩, ran₂, found⟩ := except_any found
  obtain ⟨same₂, found⟩ := Bool.and_eq_true_iff.1 found
  obtain rfl : root' = root := eq_of_beq same
  obtain rfl : root₂ = root' := eq_of_beq same₂
  obtain ⟨x, inside, found⟩ := List.any_eq_true.1 found
  simp only [Bool.and_eq_true, Bool.not_eq_true', List.contains_eq_mem, decide_eq_false_iff_not] at found
  exact ⟨c, root₂, named, w, w₂, x, lowered, Pass.placed_eq_ok.1 resolved, Pass.placed_eq_ok.1 ran, Pass.placed_eq_ok.1 ran₂,
    inside, Option.isSome_iff_ne_none.1 found.1, found.2⟩

end DerivedTables
