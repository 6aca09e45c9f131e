import DerivedTables.Typing.Compare
import Mathlib.Data.List.Forall2

/-!
How two types are compared: by their heads first, then part by part. A decision stands whatever
becomes known later.
-/

namespace DerivedTables

namespace Comparison

def all : List Comparison → Comparison
  | [] => equal
  | c :: rest => c.and (all rest)

@[simp] theorem equal_and (c : Comparison) : equal.and c = c := by cases c <;> rfl

@[simp] theorem and_equal (c : Comparison) : c.and equal = c := by cases c <;> rfl

theorem and_assoc (c d e : Comparison) : (c.and d).and e = c.and (d.and e) := by
  cases c <;> cases d <;> cases e <;> rfl

theorem foldl_and {α : Type} (f : α → Comparison) (start : Comparison) (xs : List α) :
    xs.foldl (fun held x => held.and (f x)) start = start.and (all (xs.map f)) := by
  induction xs generalizing start with
  | nil => cases start <;> rfl
  | cons x rest ih => rw [List.foldl_cons, ih, and_assoc, List.map_cons, all]

def Stands (c d : Comparison) : Prop := c = undecided ∨ d = c

theorem Stands.and {c c' d d' : Comparison} (first : c.Stands c') (second : d.Stands d') :
    (c.and d).Stands (c'.and d') := by
  obtain rfl | rfl := first <;> obtain rfl | rfl := second
  · exact .inl rfl
  · cases d' with
    | different => exact .inr (by cases c' <;> rfl)
    | _ => exact .inl rfl
  · cases c' with
    | different => exact .inr (by cases d' <;> rfl)
    | _ => exact .inl rfl
  · exact .inr rfl

theorem Stands.all {α : Type} {R : α → α → Prop} {f g : α → α → Comparison} {xs xs' ys ys' : List α}
    (left : List.Forall₂ R xs xs') (right : List.Forall₂ R ys ys')
    (each : ∀ {x x' y y'}, R x x' → R y y' → (f x y).Stands (g x' y')) :
    (all (List.zipWith f xs ys)).Stands (all (List.zipWith g xs' ys')) := by
  induction left generalizing ys ys' with
  | nil => exact .inr rfl
  | cons x _ ih =>
    cases right with
    | nil => exact .inr rfl
    | cons y ys => exact (each x y).and (ih ys)

end Comparison

inductive Head where
  | string
  | number
  | boolean
  | void
  | unknown
  | binding
  | array
  | named (table : String)
  | context (name : String)
  | function (arity : Nat)
  | object (names : List String)
  deriving DecidableEq

namespace Fields

def types (fields : Fields) : List Ty := fields.toList.map Prod.snd

@[simp] theorem types_nil : nil.types = [] := rfl

@[simp] theorem types_cons (name : String) (ty : Ty) (rest : Fields) :
    (cons name ty rest).types = ty :: rest.types := rfl

@[simp] theorem names_nil : nil.names = [] := rfl

@[simp] theorem names_cons (name : String) (ty : Ty) (rest : Fields) :
    (cons name ty rest).names = name :: rest.names := rfl

end Fields

namespace Ty

def head : Ty → Head
  | string => .string
  | number => .number
  | boolean => .boolean
  | void => .void
  | unknown => .unknown
  | binding .. => .binding
  | array _ => .array
  | named table => .named table
  | context name => .context name
  | function params _ => .function params.names.length
  | object fields => .object fields.names

def parts : Ty → List Ty
  | function params returns => returns :: params.types
  | object fields => fields.types
  | array element => [element]
  | _ => []

theorem head_effective_ne_binding (s : Ty) : s.effective.head ≠ .binding := by
  induction s using effective.induct with
  | case1 value next ih => exact ih
  | case2 s other =>
    cases s with
    | binding value next => exact (other value next rfl).elim
    | _ => simp [effective, head]

end Ty

namespace Resolution

variable (r : Resolution) (a : Arena) (scope : ScopeId)

def compareRows (fuel : Nat) (table : String) (fields : Fields) : Comparison :=
  r.compareWithin a scope (fuel + 1) (.named table) (.object fields)

inductive Meet (s t : Ty) : Prop
  | undecided (isOpen : s.head = .unknown ∨ t.head = .unknown)
    (gives : ∀ fuel, r.compareWithin a scope (fuel + 1) s t = .undecided)
  | rows (table : String) (fields : Fields)
    (sides : s = .named table ∧ t = .object fields ∨ s = .object fields ∧ t = .named table)
    (gives : ∀ fuel, r.compareWithin a scope (fuel + 1) s t = r.compareRows a scope fuel table fields)
  | heads (left : s.head ≠ .unknown) (right : t.head ≠ .unknown)
    (plain : ∀ table names, ¬ (s.head = .named table ∧ t.head = .object names) ∧
      ¬ (s.head = .object names ∧ t.head = .named table))
    (gives : ∀ fuel, r.compareWithin a scope (fuel + 1) s t =
      if s.head = t.head then
        .all (List.zipWith (fun x y => r.compareWithin a scope fuel x.effective y.effective) s.parts t.parts)
      else .different)

theorem pairwise_eq (below : Ty → Ty → Comparison) (start : Comparison) (xs ys : Fields) :
    (xs.toList.zip ys.toList).foldl (fun held p => held.and (below p.1.2 p.2.2)) start = start.and
    (.all (List.zipWith below xs.types ys.types)) := by
  rw [Comparison.foldl_and (fun p : (String × Ty) × String × Ty => below p.1.2 p.2.2)]
  simp [Fields.types, List.zipWith_map, List.zip_eq_zipWith, List.map_zipWith]

theorem meet {s t : Ty} (left : s.head ≠ .binding) (right : t.head ≠ .binding) : r.Meet a scope s t := by
  cases s with
  | binding => exact (left rfl).elim
  | unknown => exact .undecided (.inl rfl) fun _ => rfl
  | named table =>
    cases t with
    | binding => exact (right rfl).elim
    | unknown => exact .undecided (.inr rfl) fun _ => rfl
    | object fields => exact .rows table fields (.inl ⟨rfl, rfl⟩) fun _ => rfl
    | named other =>
      refine .heads nofun nofun (fun _ _ => ⟨nofun, nofun⟩) fun fuel => ?_
      simp [compareWithin, Ty.head, Ty.parts, Comparison.all, Comparison.ofBool]
    | _ => exact .heads nofun nofun (fun _ _ => ⟨nofun, nofun⟩) fun _ => rfl
  | object fields =>
    cases t with
    | binding => exact (right rfl).elim
    | unknown => exact .undecided (.inr rfl) fun _ => rfl
    | named table => exact .rows table fields (.inr ⟨rfl, rfl⟩) fun _ => rfl
    | object others =>
      refine .heads nofun nofun (fun _ _ => ⟨nofun, nofun⟩) fun fuel => ?_
      simp only [compareWithin, Ty.head, Ty.parts, Head.object.injEq]
      rw [pairwise_eq fun x y => r.compareWithin a scope fuel x.effective y.effective, Comparison.equal_and]
    | _ => exact .heads nofun nofun (fun _ _ => ⟨nofun, nofun⟩) fun _ => rfl
  | context name =>
    cases t with
    | binding => exact (right rfl).elim
    | unknown => exact .undecided (.inr rfl) fun _ => rfl
    | context other =>
      refine .heads nofun nofun (fun _ _ => ⟨nofun, nofun⟩) fun fuel => ?_
      simp [compareWithin, Ty.head, Ty.parts, Comparison.all, Comparison.ofBool]
    | _ => exact .heads nofun nofun (fun _ _ => ⟨nofun, nofun⟩) fun _ => rfl
  | function params returns =>
    cases t with
    | binding => exact (right rfl).elim
    | unknown => exact .undecided (.inr rfl) fun _ => rfl
    | function others gives =>
      refine .heads nofun nofun (fun _ _ => ⟨nofun, nofun⟩) fun fuel => ?_
      simp only [compareWithin, Ty.head, Ty.parts, Head.function.injEq]
      rw [pairwise_eq fun x y => r.compareWithin a scope fuel x.effective y.effective, List.zipWith_cons_cons,
        Comparison.all]
    | _ => exact .heads nofun nofun (fun _ _ => ⟨nofun, nofun⟩) fun _ => rfl
  | array element =>
    cases t with
    | binding => exact (right rfl).elim
    | unknown => exact .undecided (.inr rfl) fun _ => rfl
    | array other =>
      refine .heads nofun nofun (fun _ _ => ⟨nofun, nofun⟩) fun fuel => ?_
      exact (Comparison.and_equal _).symm
    | _ => exact .heads nofun nofun (fun _ _ => ⟨nofun, nofun⟩) fun _ => rfl
  | _ =>
    cases t with
    | binding => exact (right rfl).elim
    | unknown => exact .undecided (.inr rfl) fun _ => rfl
    | _ => exact .heads nofun nofun (fun _ _ => ⟨nofun, nofun⟩) fun _ => rfl

/-- However two types meet, they meet the same way from the other side. -/
theorem compareWithin_comm (fuel : Nat) {s t : Ty} (left : s.head ≠ .binding) (right : t.head ≠ .binding) :
    r.compareWithin a scope fuel s t = r.compareWithin a scope fuel t s := by
  induction fuel generalizing s t with
  | zero => rfl
  | succ fuel ih =>
    cases r.meet a scope left right with
    | undecided isOpen gives =>
      rw [gives]
      cases r.meet a scope right left with
      | undecided _ gives' => exact (gives' fuel).symm
      | rows _ _ sides => obtain ⟨rfl, rfl⟩ | ⟨rfl, rfl⟩ := sides <;> cases isOpen <;> contradiction
      | heads known known' => exact (isOpen.elim known' known).elim
    | rows table fields sides => obtain ⟨rfl, rfl⟩ | ⟨rfl, rfl⟩ := sides <;> rfl
    | heads known known' plain gives =>
      cases r.meet a scope right left with
      | undecided isOpen => exact (isOpen.elim known' known).elim
      | rows _ _ sides =>
        obtain ⟨rfl, rfl⟩ | ⟨rfl, rfl⟩ := sides
        · exact ((plain _ _).2 ⟨rfl, rfl⟩).elim
        · exact ((plain _ _).1 ⟨rfl, rfl⟩).elim
      | heads _ _ _ gives' =>
        have parts : List.zipWith (fun x y => r.compareWithin a scope fuel x.effective y.effective) s.parts t.parts =
            List.zipWith (fun x y => r.compareWithin a scope fuel x.effective y.effective) t.parts s.parts := by
          rw [List.zipWith_comm]
          congr
          funext x y
          exact ih y.head_effective_ne_binding x.head_effective_ne_binding
        rw [gives, gives', parts]
        simp only [eq_comm]

theorem compare_comm (s t : Ty) : r.compare a s t scope = r.compare a t s scope :=
  r.compareWithin_comm a scope compareDepth s.head_effective_ne_binding t.head_effective_ne_binding

end Resolution

mutual
/-- The first type is the second with parts of it left open. -/
inductive Ty.Outlines : Ty → Ty → Prop
  | unknown (t : Ty) : Ty.Outlines .unknown t
  | refl (t : Ty) : Ty.Outlines t t
  | function {xs ys : Fields} {s t : Ty} (params : Fields.Outlines xs ys) (returns : Ty.Outlines s t) :
    Ty.Outlines (.function xs s) (.function ys t)
  | object {xs ys : Fields} (fields : Fields.Outlines xs ys) : Ty.Outlines (.object xs) (.object ys)
  | array {s t : Ty} (element : Ty.Outlines s t) : Ty.Outlines (.array s) (.array t)
  | binding {v w s t : Ty} (value : Ty.Outlines v w) (next : Ty.Outlines s t) :
    Ty.Outlines (.binding v s) (.binding w t)
inductive Fields.Outlines : Fields → Fields → Prop
  | nil : Fields.Outlines .nil .nil
  | cons {s t : Ty} {xs ys : Fields} (name : String) (ty : Ty.Outlines s t) (rest : Fields.Outlines xs ys) :
    Fields.Outlines (.cons name s xs) (.cons name t ys)
end

theorem Fields.Outlines.refl (fields : Fields) : fields.Outlines fields :=
  match fields with
  | .nil => .nil
  | .cons name ty rest => .cons name (.refl ty) (refl rest)

theorem Fields.Outlines.exposed {xs ys : Fields} (outlines : xs.Outlines ys) :
    xs.names = ys.names ∧ List.Forall₂ Ty.Outlines xs.types ys.types := by
  match outlines with
  | .nil => exact ⟨rfl, .nil⟩
  | .cons name ty rest =>
    obtain ⟨names, types⟩ := rest.exposed
    exact ⟨congrArg (name :: ·) names, .cons ty types⟩

namespace Ty.Outlines

theorem effective {s t : Ty} (outlines : s.Outlines t) : s.effective.Outlines t.effective := by
  match outlines with
  | .unknown t => exact .unknown _
  | .refl t => exact .refl _
  | .function params returns => exact .function params returns
  | .object fields => exact .object fields
  | .array element => exact .array element
  | .binding _ next => exact next.effective

theorem of_named {table : String} {t : Ty} (outlines : (Ty.named table).Outlines t) : t = .named table := by
  cases outlines
  rfl

theorem of_object {fields : Fields} {t : Ty} (outlines : (Ty.object fields).Outlines t) :
    ∃ filled, t = .object filled ∧ fields.Outlines filled := by
  cases outlines with
  | refl => exact ⟨fields, rfl, .refl fields⟩
  | object filled => exact ⟨_, rfl, filled⟩

theorem exposed {s t : Ty} (outlines : s.Outlines t) (known : s.head ≠ .unknown) (plain : s.head ≠ .binding) :
    s.head = t.head ∧ List.Forall₂ Ty.Outlines s.parts t.parts := by
  cases outlines with
  | unknown => exact (known rfl).elim
  | refl => exact ⟨rfl, List.forall₂_same.2 fun t _ => .refl t⟩
  | function params returns =>
    obtain ⟨names, types⟩ := params.exposed
    exact ⟨by rw [head, head, names], .cons returns types⟩
  | object fields =>
    obtain ⟨names, types⟩ := fields.exposed
    exact ⟨by rw [head, head, names], types⟩
  | array element => exact ⟨rfl, .cons element .nil⟩
  | binding => exact (plain rfl).elim

end Ty.Outlines

/-- The same tree, with more known about the rows of its tables; a table without a type counts as open. -/
structure Arena.Outlines (a b : Arena) : Prop where
  kinds (id : NodeId) : b.kind? id = a.kind? id
  tables {id : NodeId} {name : String} {properties : List NodeId} (table : a.kind? id = some (.definition name properties)) :
    ((a.ty? id).getD .unknown).Outlines ((b.ty? id).getD .unknown)

namespace Resolution

variable {r : Resolution} {a b : Arena} {scope : ScopeId}

theorem definition?_congr (kinds : ∀ id, b.kind? id = a.kind? id) (name : String) :
    r.definition? b name scope = r.definition? a name scope := by
  simp only [definition?, kinds]

theorem definition?_eq_some {name : String} {table : NodeId} (found : r.definition? a name scope = some table) :
    ∃ name properties, a.kind? table = some (.definition name properties) := by
  obtain ⟨symbol, -, found⟩ := Option.bind_eq_some_iff.1 found
  split at found
  · rename_i held
    cases found
    exact ⟨_, _, held⟩
  · cases found

theorem compareRows_stands (outlines : a.Outlines b) {fuel : Nat} {xs ys : Fields}
    (below : ∀ {s s' t t' : Ty}, s.Outlines s' → t.Outlines t' →
      (r.compareWithin a scope fuel s.effective t.effective).Stands (r.compareWithin b scope fuel s'.effective t'.effective))
    (table : String) (fields : xs.Outlines ys) :
    (r.compareRows a scope fuel table xs).Stands (r.compareRows b scope fuel table ys) := by
  simp only [compareRows, compareWithin, definition?_congr outlines.kinds]
  cases found : r.definition? a table scope with
  | none => exact .inr rfl
  | some definition =>
    obtain ⟨name, properties, held⟩ := definition?_eq_some found
    have recorded := outlines.tables held
    dsimp only
    cases ty : a.ty? definition with
    | none => exact .inl rfl
    | some s =>
      rw [ty, Option.getD_some] at recorded
      cases s with
      | object rows =>
        cases ty' : b.ty? definition with
        | none =>
          rw [ty'] at recorded
          cases recorded
        | some s' =>
          rw [ty', Option.getD_some] at recorded
          obtain ⟨filled, rfl, rows⟩ := recorded.of_object
          exact below (.object rows) (.object fields)
      | _ => exact .inl rfl

theorem compareWithin_stands (outlines : a.Outlines b) (fuel : Nat) {s s' t t' : Ty} (left : s.Outlines s')
    (right : t.Outlines t') : (r.compareWithin a scope fuel s.effective t.effective).Stands
    (r.compareWithin b scope fuel s'.effective t'.effective) := by
  induction fuel generalizing s s' t t' with
  | zero => exact .inl rfl
  | succ fuel ih =>
    have left := left.effective
    have right := right.effective
    cases r.meet a scope s.head_effective_ne_binding t.head_effective_ne_binding with
    | undecided _ gives => exact .inl (gives fuel)
    | rows table fields sides gives =>
      obtain ⟨named, object⟩ | ⟨object, named⟩ := sides
      · rw [named] at left
        rw [object] at right
        obtain ⟨fields', object', filled⟩ := right.of_object
        rw [gives, left.of_named, object']
        exact compareRows_stands outlines ih table filled
      · rw [object] at left
        rw [named] at right
        obtain ⟨fields', object', filled⟩ := left.of_object
        rw [gives, right.of_named, object']
        exact compareRows_stands outlines ih table filled
    | heads known known' plain gives =>
      obtain ⟨head, parts⟩ := left.exposed known s.head_effective_ne_binding
      obtain ⟨head', parts'⟩ := right.exposed known' t.head_effective_ne_binding
      cases r.meet b scope s'.head_effective_ne_binding t'.head_effective_ne_binding with
      | undecided isOpen =>
        rw [← head, ← head'] at isOpen
        exact (isOpen.elim known known').elim
      | rows table fields sides =>
        rw [head, head'] at plain
        obtain ⟨named, object⟩ | ⟨object, named⟩ := sides
        · rw [named, object] at plain
          exact ((plain table fields.names).1 ⟨rfl, rfl⟩).elim
        · rw [named, object] at plain
          exact ((plain table fields.names).2 ⟨rfl, rfl⟩).elim
      | heads _ _ _ gives' =>
        rw [gives, gives', head, head']
        split
        · exact .all parts parts' ih
        · exact .inr rfl

/-- What is decided stays decided, and the same way, when open parts of the two types, or of the tables they
name, are filled in. -/
theorem compare_outlined {r : Resolution} {a b : Arena} {scope : ScopeId} {s s' t t' : Ty} (tables : a.Outlines b)
    (left : s.Outlines s') (right : t.Outlines t') : (r.compare a s t scope = .equal → r.compare b s' t' scope = .equal)
    ∧ (r.compare a s t scope = .different → r.compare b s' t' scope = .different) := by
  obtain isOpen | same : (r.compare a s t scope).Stands (r.compare b s' t' scope) :=
    compareWithin_stands tables compareDepth left right
  · rw [isOpen]
    exact ⟨nofun, nofun⟩
  · rw [same]
    exact ⟨id, id⟩

/-- A table whose second column has the given type so far. -/
def billing (due : Ty) : Arena :=
  ⟨#[⟨.column "amount" .string, some .string, none⟩, ⟨.derived "due" 0, none, none⟩,
    ⟨.definition "Bill" [0, 1], some (.object (.ofList [("amount", .string), ("due", due)])), none⟩]⟩

def billed : Resolution := ⟨Scopes.initial.insert 0 "Bill" ⟨2, none⟩, ∅⟩

theorem billing_outlines (due : Ty) : (billing .unknown).Outlines (billing due) where
  kinds
    | 0 | 1 | 2 | _ + 3 => rfl
  tables {id name properties} table := by
    match id with
    | 0 | 1 | _ + 3 => cases table
    | 2 => exact .object (.cons _ (.refl _) (.cons _ (.unknown due) .nil))

/-- An amount that is no number makes the rows differ before `due` is known, and so after. -/
theorem billing_stays_different :
    billed.compare (billing .unknown) (.named "Bill") (.object (.ofList [("amount", .number), ("due", .unknown)])) 0 = .different ∧
      billed.compare (billing .string) (.named "Bill") (.object (.ofList [("amount", .number), ("due", .string)])) 0 =
        .different := by
  have different : billed.compare (billing .unknown) (.named "Bill")
      (.object (.ofList [("amount", .number), ("due", .unknown)])) 0 = .different := by decide +kernel
  exact ⟨different, (compare_outlined (billing_outlines .string) (.refl _)
    (.object (.cons _ (.refl _) (.cons _ (.unknown _) .nil)))).2 different⟩

end Resolution

end DerivedTables
