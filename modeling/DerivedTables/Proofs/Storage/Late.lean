import DerivedTables.Proofs.Tree.Subtree
import DerivedTables.Storage
import Mathlib.Data.List.Chain
import Mathlib.Logic.Relation

/-!
What is known only on read, said by the paths that lead to it.
-/

namespace DerivedTables

namespace Kind

def isMaintained : Kind → Bool
  | dataset .. | pipeline .. | filter _ | reduce .. => true
  | _ => false

def isLocal : Kind → Bool
  | param .. | binding .. => true
  | _ => false

end Kind

namespace Arena

variable {a b : Arena} {x y : NodeId}

/-- `x` holds `y`, and not as a part of something maintained. -/
def Exposes (a : Arena) (x y : NodeId) : Prop :=
  ∃ k, a.kind? x = some k ∧ k.isMaintained = false ∧ y ∈ k.children

def MentionsLocal (a : Arena) (x : NodeId) : Prop :=
  ∃ t n k, a.kind? x = some (.reference t n) ∧ a.kind? t = some k ∧ k.isLocal = true

def AsksReader (a : Arena) (x : NodeId) : Prop :=
  a.MentionsLocal x ∨ ∃ n ps body, a.kind? x = some (.function n ps body)

def Late (a : Arena) (x : NodeId) : Prop :=
  ∃ y, Relation.ReflTransGen a.Exposes x y ∧ a.AsksReader y

theorem Late.of_exposes (exposes : Relation.ReflTransGen a.Exposes x y) (late : a.Late y) : a.Late x := by
  obtain ⟨z, path, asks⟩ := late
  exact ⟨z, exposes.trans path, asks⟩

theorem Exposes.lt_size (exposes : a.Exposes x y) : x < a.size := by
  obtain ⟨k, held, -⟩ := exposes
  exact lt_size_of_kind? held

theorem AsksReader.lt_size (asks : a.AsksReader x) : x < a.size := by
  obtain ⟨t, n, k, held, -⟩ | ⟨n, ps, body, held⟩ := asks
  · exact lt_size_of_kind? held
  · exact lt_size_of_kind? held

theorem Late.lt_size (late : a.Late x) : x < a.size := by
  obtain ⟨y, path, asks⟩ := late
  cases path using Relation.ReflTransGen.head_induction_on with
  | refl => exact asks.lt_size
  | head first => exact first.lt_size

end Arena

namespace Storage

variable {a : Arena} {x y : NodeId} {fuel : Nat}

theorem needsReader_succ : needsReader a (fuel + 1) x = true ↔ a.AsksReader x ∨ ∃ y, a.Exposes x y ∧ needsReader a fuel
    y = true := by
  rw [needsReader]
  cases held : a.kind? x with
  | none => simp [Arena.AsksReader, Arena.MentionsLocal, Arena.Exposes, held]
  | some k =>
    cases k with
    | reference t n =>
      cases at_target : a.kind? t with
      | none =>
        simp [Arena.AsksReader, Arena.MentionsLocal, Arena.Exposes, held, at_target, Kind.children]
      | some l =>
        cases l <;>
          simp [Arena.AsksReader, Arena.MentionsLocal, Arena.Exposes, held, at_target,
            Kind.children, Kind.isLocal]
    | _ =>
      simp only [Arena.AsksReader, Arena.MentionsLocal, Arena.Exposes, held, Kind.isMaintained,
        List.any_eq_true]
      simp

theorem needsReader_mono {more : Nat} (within : fuel ≤ more) (late : needsReader a fuel x = true) :
    needsReader a more x = true := by
  induction fuel generalizing x more with
  | zero => simp [needsReader] at late
  | succ fuel ih =>
    obtain _ | more := more
    · omega
    · refine needsReader_succ.2 ((needsReader_succ.1 late).imp_right fun ⟨y, exposes, below⟩ => ?_)
      exact ⟨y, exposes, ih (by omega) below⟩

theorem late_of_needsReader (late : needsReader a fuel x = true) : a.Late x := by
  induction fuel generalizing x with
  | zero => simp [needsReader] at late
  | succ fuel ih =>
    obtain asks | ⟨y, exposes, below⟩ := needsReader_succ.1 late
    · exact ⟨x, .refl, asks⟩
    · exact (ih below).of_exposes (.single exposes)

theorem needsReader_of_path {path : List NodeId} (chain : (x :: path).IsChain a.Exposes)
    (asks : a.AsksReader ((x :: path).getLast (List.cons_ne_nil x path))) :
    needsReader a (path.length + 1) x = true := by
  induction path generalizing x with
  | nil => exact needsReader_succ.2 (.inl asks)
  | cons y path ih =>
    obtain ⟨exposes, chain⟩ := List.isChain_cons_cons.1 chain
    exact needsReader_succ.2 (.inr ⟨y, exposes, ih chain asks⟩)

theorem exists_path_without_return {r : NodeId → NodeId → Prop} (reaches : Relation.ReflTransGen r x y) :
    ∃ path, (x :: path).Nodup ∧ (x :: path).IsChain r ∧ (x :: path).getLast (List.cons_ne_nil x path) = y := by
  induction reaches using Relation.ReflTransGen.head_induction_on with
  | refl => exact ⟨[], by simp, by simp, rfl⟩
  | @head x z first _ ih =>
    obtain ⟨path, once, chain, ends⟩ := ih
    by_cases back : x ∈ z :: path
    · obtain ⟨before, after, eq⟩ := List.append_of_mem back
      have suffix : (x :: after) <:+ z :: path := ⟨before, eq.symm⟩
      refine ⟨after, once.sublist suffix.sublist, chain.suffix suffix, ?_⟩
      rw [← ends]
      simp only [eq, List.getLast_append_of_ne_nil _ (List.cons_ne_nil x after)]
    · exact ⟨z :: path, List.nodup_cons.2 ⟨back, once⟩, List.isChain_cons_cons.2 ⟨first, chain⟩, ends⟩

theorem lt_size_of_chain {path : List NodeId} (chain : (x :: path).IsChain a.Exposes)
    (asks : a.AsksReader ((x :: path).getLast (List.cons_ne_nil x path))) : ∀ y ∈ x :: path, y < a.size := by
  induction path generalizing x with
  | nil => simpa using asks.lt_size
  | cons z path ih =>
    obtain ⟨exposes, chain⟩ := List.isChain_cons_cons.1 chain
    exact List.forall_mem_cons.2 ⟨exposes.lt_size, ih chain asks⟩

theorem needsReader_iff : needsReader a (a.size + 1) x = true ↔ a.Late x := by
  refine ⟨late_of_needsReader, fun ⟨y, reaches, asks⟩ => ?_⟩
  obtain ⟨path, once, chain, rfl⟩ := exists_path_without_return reaches
  have short : (x :: path).length ≤ a.size := by
    calc (x :: path).length
        ≤ (List.range a.size).length := (once.subperm fun z listed =>
            List.mem_range.2 (lt_size_of_chain chain asks z listed)).length_le
      _ = a.size := List.length_range
  exact needsReader_mono (short.trans (Nat.le_succ _)) (needsReader_of_path chain asks)

end Storage

end DerivedTables
