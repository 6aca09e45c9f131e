import DerivedTables.Proofs.Eval.Settled
import DerivedTables.Proofs.Tree.Rose

/-!
What is put together from trees that are there.
-/

namespace DerivedTables

open Tree

def Operator.result (op : Operator) : Ty := if op.isArithmetic then .number else .boolean

/-- The type that both operands of an operator shall have; equality takes any. -/
def Operator.Takes (op : Operator) (ty : Ty) : Prop :=
  (op.isArithmetic → ty = .number) ∧ (op.isLogical → ty = .boolean) ∧ (op.isOrdering → ty = .number)

theorem Operator.result_of_logical {op : Operator} (logical : op.isLogical) : op.result = .boolean := by
  cases op <;> first | rfl | cases logical

theorem Operator.result_of_equality {op : Operator} (equality : op.isEquality) : op.result = .boolean := by
  cases op <;> first | rfl | cases equality

theorem Operator.takes_of_equality {op : Operator} (equality : op.isEquality) (ty : Ty) : op.Takes ty := by
  cases op <;> simp_all [Takes, isArithmetic, isLogical, isOrdering, isEquality]

theorem Operator.takes_number (op : Operator) (arithmetic : op.isArithmetic) : op.Takes .number := by
  cases op <;> simp_all [Takes, isArithmetic, isLogical]

theorem Operator.takes_boolean (op : Operator) (logical : op.isLogical) : op.Takes .boolean := by
  cases op <;> simp_all [Takes, isArithmetic, isLogical, isOrdering]

inductive Formula (L : Type) where
  | leaf (l : L)
  | number (value : Float)
  | binary (op : Operator) (lhs rhs : Formula L)
  | conditional (condition hit miss : Formula L)

namespace Formula

variable {L N : Type}

def value? [Arithmetic N] (values : L → Value N) : Formula L → Option (Value N)
  | leaf l => some (values l)
  | number x => some (.number (Arithmetic.literal x))
  | binary op lhs rhs => (lhs.value? values).bind fun u => (rhs.value? values).bind (op.combine? u)
  | conditional condition hit miss => (condition.value? values).bind fun
    | .boolean b => if b then hit.value? values else miss.value? values
    | _ => none

def count (p : L → Bool) : Formula L → Nat
  | leaf l => (p l).toNat
  | number _ => 0
  | binary _ lhs rhs => lhs.count p + rhs.count p
  | conditional condition hit miss => condition.count p + hit.count p + miss.count p

end Formula

inductive Assembled {L : Type} (d : Arena) (leaf : L → Ty → Tree → Prop) : Formula L → Ty → Tree → Prop
  | leaf {l : L} {ty : Ty} {t : Tree} (here : leaf l ty t) : Assembled d leaf (.leaf l) ty t
  | number {id : NodeId} {value : Float} (typed : d.ty? id = some .number) :
    Assembled d leaf (.number value) .number (.node id (.number value) [])
  | binary {id : NodeId} {op : Operator} {φ ψ : Formula L} {ty : Ty} {l r : Tree} (typed : d.ty? id = some op.result)
    (takes : op.Takes ty) (left : Assembled d leaf φ ty l) (right : Assembled d leaf ψ ty r) :
    Assembled d leaf (.binary op φ ψ) op.result (.node id (.binary op l.id r.id) [l, r])
  | conditional {id : NodeId} {φ ψ χ : Formula L} {condition hit miss : Tree} (typed : d.ty? id = some .number)
    (asked : Assembled d leaf φ .boolean condition) (first : Assembled d leaf ψ .number hit)
    (second : Assembled d leaf χ .number miss) :
    Assembled d leaf (.conditional φ ψ χ) .number
      (.node id (.conditional condition.id hit.id miss.id) [condition, hit, miss])

namespace Assembled

variable {L : Type} {d : Arena} {leaf leaf' : L → Ty → Tree → Prop} {φ : Formula L} {ty : Ty} {t : Tree}

theorem mono (assembled : Assembled d leaf φ ty t) (more : ∀ l ty s, leaf l ty s → leaf' l ty s) :
    Assembled d leaf' φ ty t := by
  induction assembled with
  | leaf here => exact .leaf (more _ _ _ here)
  | number typed => exact .number typed
  | binary typed takes _ _ left right => exact .binary typed takes left right
  | conditional typed _ _ _ asked first second => exact .conditional typed asked first second

theorem within (assembled : Assembled d leaf φ ty t) (stands : t.StandsIn d) :
    Assembled d (fun l ty s => leaf l ty s ∧ s.StandsIn d ∧ ∀ x ∈ s.ids, x ∈ t.ids) φ ty t := by
  have widen {id : NodeId} {k : Kind} {parts : List Tree} {s : Tree} (part : s ∈ parts) {φ : Formula L} {ty : Ty}
      (inner : Assembled d (fun l ty u => leaf l ty u ∧ u.StandsIn d ∧ ∀ x ∈ u.ids, x ∈ s.ids) φ ty s) :
      Assembled d (fun l ty u => leaf l ty u ∧ u.StandsIn d ∧ ∀ x ∈ u.ids, x ∈ (Tree.node id k parts).ids) φ ty s :=
    inner.mono fun _ _ _ ⟨here, standing, inside⟩ =>
      ⟨here, standing, fun x below => (ids_sublist part).subset (inside x below)⟩
  induction assembled with
  | leaf here => exact .leaf ⟨here, stands, fun _ => id⟩
  | number typed => exact .number typed
  | binary typed takes _ _ left right =>
    exact .binary typed takes (widen (by simp) (left (stands.child (by simp))))
      (widen (by simp) (right (stands.child (by simp))))
  | conditional typed _ _ _ asked first second =>
    exact .conditional typed (widen (by simp) (asked (stands.child (by simp))))
      (widen (by simp) (first (stands.child (by simp)))) (widen (by simp) (second (stands.child (by simp))))

theorem ty_eq (assembled : Assembled d leaf φ ty t) (leaves : ∀ l ty s, leaf l ty s → d.ty? s.id = some ty) :
    d.ty? t.id = some ty := by
  cases assembled with
  | leaf here => exact leaves _ _ _ here
  | number typed => exact typed
  | binary typed => exact typed
  | conditional typed => exact typed

theorem settled {N : Type} [Arithmetic N] {s : Setting N} {kept : Bindings N} {values : L → Value N} {v : Value N}
    (assembled : Assembled s.arena leaf φ ty t) (stands : t.StandsIn s.arena) (leaves : ∀ l ty u, leaf l ty u →
    s.Settled kept u.id (values l)) (value : φ.value? values = some v) : s.Settled kept t.id v := by
  induction assembled generalizing v with
  | leaf here =>
    cases value
    exact leaves _ _ _ here
  | number =>
    cases value
    exact .number stands.held
  | binary _ _ _ _ left right =>
    obtain ⟨u, first, value⟩ := Option.bind_eq_some_iff.1 value
    obtain ⟨w, second, combined⟩ := Option.bind_eq_some_iff.1 value
    exact .binary stands.held (left (stands.child (by simp)) first) (right (stands.child (by simp)) second) combined
  | conditional _ _ _ _ asked first second =>
    obtain ⟨u, decided, value⟩ := Option.bind_eq_some_iff.1 value
    cases u with
    | boolean b =>
      refine .conditional stands.held (asked (stands.child (by simp)) decided) ?_
      cases b with
      | true => exact first (stands.child (by simp)) value
      | false => exact second (stands.child (by simp)) value
    | _ => cases value

end Assembled

end DerivedTables
