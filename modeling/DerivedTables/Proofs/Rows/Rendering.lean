import DerivedTables.Proofs.Eval.Settled
import DerivedTables.Proofs.Tree.WellFormed

/-!
An operand of a fold in different places.
-/

namespace DerivedTables

theorem Arena.Extends.isFunction {a b : Arena} (grown : a.Extends b) {x : NodeId}
    (function : a.isFunction x) : b.isFunction x := by
  obtain ⟨name, params, body, held⟩ := isFunction_iff.1 function
  exact isFunction_iff.2 ⟨name, params, body, grown.kind_of_some held⟩

structure SelfContained (a : Arena) (ids : List NodeId) (row : NodeId) (outside : NodeId → Prop) :
    Prop extends Whole a ids where
  wellFormed : a.WellFormed
  target : ∀ x ∈ ids, ∀ t n, a.kind? x = some (.reference t n) → t ∈ ids ∨ t = row ∨ outside t
  outward : ∀ x, outside x → ∀ k, a.kind? x = some k → ∀ y ∈ a.links k, outside y
  old : ∀ x, outside x → x < a.size

structure Placed (a : Arena) (ids : List NodeId) (row : NodeId) (outside : NodeId → Prop)
    (b : Arena) (f : NodeId → NodeId) : Prop where
  rendered : Rendered a ids b f
  param : ∃ n t, b.kind? (f row) = some (.param n t)
  rowApart : ∀ x ∈ ids, f x ≠ f row
  inside : ∀ x ∈ ids, ¬ outside (f x)
  rowInside : ¬ outside (f row)
  base : a.Extends b
  still : ∀ x ∈ ids, ∀ t n, a.kind? x = some (.reference t n) → t ∉ ids → t ≠ row → f t = t

namespace Placed

variable {a b c : Arena} {ids : List NodeId} {row : NodeId} {outside : NodeId → Prop}
  {f g : NodeId → NodeId}
variable {k : Kind} {x y : NodeId}

def Pair (ids : List NodeId) (row : NodeId) (outside : NodeId → Prop) (f g : NodeId → NodeId)
    (x y : NodeId) : Prop :=
  (∃ z, (z ∈ ids ∨ z = row) ∧ x = f z ∧ y = g z) ∨ outside x ∧ x = y

theorem Pair.symm (pair : Pair ids row outside f g x y) : Pair ids row outside g f y x := by
  obtain ⟨z, held, rfl, rfl⟩ | ⟨out, rfl⟩ := pair
  · exact .inl ⟨z, held, rfl, rfl⟩
  · exact .inr ⟨out, rfl⟩

theorem injective (place : Placed a ids row outside b f) (first : x ∈ ids ∨ x = row)
    (second : y ∈ ids ∨ y = row) (same : f x = f y) : x = y := by
  rcases first with first | rfl <;> rcases second with second | rfl
  · exact place.rendered.injective x first y second same
  · exact absurd same (place.rowApart x first)
  · exact absurd same.symm (place.rowApart y second)
  · rfl

theorem not_outside (place : Placed a ids row outside b f) (held : x ∈ ids ∨ x = row) : ¬ outside (f x) := by
  rcases held with held | rfl
  · exact place.inside x held
  · exact place.rowInside

theorem unique (first : Placed a ids row outside b f) {y' : NodeId}
    (pair : Pair ids row outside f g x y) (other : Pair ids row outside f g x y') : y = y' := by
  obtain ⟨z, held, rfl, rfl⟩ | ⟨out, rfl⟩ := pair
  · obtain ⟨z', held', same, rfl⟩ | ⟨out, _⟩ := other
    · rw [first.injective held held' same]
    · exact absurd out (first.not_outside held)
  · obtain ⟨z', held', rfl, _⟩ | ⟨_, rfl⟩ := other
    · exact absurd out (first.not_outside held')
    · rfl

def Binder (ids : List NodeId) (row : NodeId) (outside : NodeId → Prop) (f g : NodeId → NodeId)
    (b : Arena) (x y : NodeId) : Prop :=
  Pair ids row outside f g x y ∧ x ≠ f row ∧ ∀ k, b.kind? x = some k → k.isItem = false

theorem link_pair (operand : SelfContained a ids row outside) (first : Placed a ids row outside b f)
    (second : Placed a ids row outside c g) (listed : x ∈ ids)
    (held : a.kind? x = some k) (named : y ∈ k.names) : Pair ids row outside f g (f y) (g y) := by
  unfold Kind.names at named
  split at named
  next target n =>
    obtain rfl := List.mem_singleton.1 named
    by_cases inside : y ∈ ids ∨ y = row
    · exact .inl ⟨y, inside, rfl, rfl⟩
    · simp only [not_or] at inside
      have out : outside y := by
        obtain held | held | held := operand.target x listed y n held
        · exact absurd held inside.1
        · exact absurd held inside.2
        · exact held
      rw [first.still x listed y n held inside.1 inside.2,
        second.still x listed y n held inside.1 inside.2]
      exact .inr ⟨out, rfl⟩
  next => exact .inl ⟨y, .inl (operand.child x listed k held y named), rfl, rfl⟩

theorem inside_alike (operand : SelfContained a ids row outside) (first : Placed a ids row outside b f)
    (second : Placed a ids row outside c g) {z : NodeId} (listed : z ∈ ids) : ∃ k l m, a.kind? z = some k ∧ b.kind?
    (f z) = some l ∧ c.kind? (g z) = some m ∧ l.isItem = k.isItem ∧ m.isItem = k.isItem ∧ l.Alike
    (Pair ids row outside f g) (Binder ids row outside f g b) (b.isFunction ·) (f z) (g z) m := by
  obtain ⟨k, held⟩ := operand.there z listed
  obtain ⟨l, held₁, renames₁⟩ := first.rendered.renames z listed k held
  obtain ⟨m, held₂, renames₂⟩ := second.rendered.renames z listed k held
  refine ⟨k, l, m, held, held₁, held₂, renames₁.isItem, renames₂.isItem, renames₁.alike renames₂ ?_ ?_⟩
  · intro y named
    exact link_pair operand first second listed held named
  · intro y bound
    have inside : y ∈ ids := by
      obtain rfl | child := Kind.mem_binds bound
      · exact listed
      · exact operand.child z listed k held y child
    refine ⟨.inl ⟨y, .inl inside, rfl, rfl⟩, first.rowApart y inside, ?_⟩
    intro l' named
    obtain ⟨k', held'⟩ := operand.there y inside
    obtain ⟨_, named', renames⟩ := first.rendered.renames y inside k' held'
    cases named.symm.trans named'
    rw [renames.isItem]
    exact operand.wellFormed.binds held bound held'

theorem outside_alike (operand : SelfContained a ids row outside)
    (first : Placed a ids row outside b f) (out : outside x) (held : a.kind? x = some k) :
    k.Alike (Pair ids row outside f g) (Binder ids row outside f g b) (b.isFunction ·) x x k := by
  apply a.alike_self
  · intro y function
    exact first.base.isFunction function
  · intro y link
    exact .inr ⟨operand.outward x out k held y link, rfl⟩
  · intro y bound
    have out : outside y := by
      obtain rfl | link := a.mem_binds bound
      · exact out
      · exact operand.outward x out k held y link
    refine ⟨.inr ⟨out, rfl⟩, ?_, ?_⟩
    · rintro rfl
      exact first.rowInside out
    · intro l named
      rw [first.base.kind (operand.old y out)] at named
      exact operand.wellFormed.binds held bound named

theorem pair_alike (operand : SelfContained a ids row outside) (first : Placed a ids row outside b f) (second : Placed a
    ids row outside c g) (pair : Pair ids row outside f g x y) (held : b.kind? x = some k) : ∃ l, c.kind? y = some l ∧
    l.isItem = k.isItem ∧ k.Alike (Pair ids row outside f g) (Binder ids row outside f g b) (b.isFunction ·) x y l := by
  obtain ⟨z, listed | rfl, rfl, rfl⟩ | ⟨out, rfl⟩ := pair
  · obtain ⟨_, l, m, _, held₁, held₂, item₁, item₂, alike⟩ :=
      inside_alike operand first second listed
    cases held.symm.trans held₁
    exact ⟨m, held₂, item₂.trans item₁.symm, alike⟩
  · obtain ⟨n, t, param₁⟩ := first.param
    obtain ⟨n', t', param₂⟩ := second.param
    cases held.symm.trans param₁
    exact ⟨_, param₂, rfl, .param ..⟩
  · rw [first.base.kind (operand.old x out)] at held
    exact ⟨k, (second.base.kind (operand.old x out)).trans held, rfl,
      outside_alike operand first out held⟩

end Placed

section
variable {N : Type} {a b c : Arena} {ids : List NodeId} {row : NodeId} {outside : NodeId → Prop}
  {f g : NodeId → NodeId}

structure Placed.Agree (t : Setting N) (ids : List NodeId) (row : NodeId)
    (outside : NodeId → Prop) (f g : NodeId → NodeId) (kept ρ σ : Bindings N) : Prop where
  pairs : ∀ x y, Pair ids row outside f g x y → ∀ v, ρ[x]? = some v → σ[y]? = some v
  keeps : t.Keeps kept σ

def Placed.Spares (ids : List NodeId) (row : NodeId) (outside : NodeId → Prop)
    (g : NodeId → NodeId) (kept : Bindings N) : Prop :=
  ∀ y v, kept[y]? = some v → y = g row ∨ (∀ z ∈ ids, y ≠ g z) ∧ ¬ outside y

theorem Placed.Agree.insert (operand : SelfContained a ids row outside) (first : Placed a ids row outside b f)
    (second : Placed a ids row outside c g) {context : List (String × Value N)} {kept ρ σ : Bindings N}
    (spares : Placed.Spares ids row outside g kept) (agree : Placed.Agree ⟨c, context⟩ ids row outside f g kept ρ σ)
    {x y : NodeId} (bound : Placed.Binder ids row outside f g b x y) (v : Value N) : Placed.Agree ⟨c, context⟩ ids row
    outside f g kept (ρ.insert x v) (σ.insert y v) := by
  obtain ⟨pair, notRow, plain⟩ := bound
  refine ⟨?_, ?_, ?_⟩
  · intro x' y' pair' w found
    by_cases same : x = x'
    · subst same
      rw [← first.unique pair pair']
      simpa using found
    · have apart : y ≠ y' := by
        rintro rfl
        exact same (second.unique pair.symm pair'.symm)
      rw [Std.TreeMap.getElem?_insert, if_neg (by simpa using same)] at found
      rw [Std.TreeMap.getElem?_insert, if_neg (by simpa using apart)]
      exact agree.pairs x' y' pair' w found
  · intro y' w found
    have apart : y ≠ y' := by
      rintro rfl
      obtain rfl | ⟨fresh, notOut⟩ := spares y w found
      · exact notRow (second.unique pair.symm (.inl ⟨row, .inr rfl, rfl, rfl⟩))
      · obtain ⟨z, listed | rfl, rfl, rfl⟩ | ⟨out, rfl⟩ := pair
        · exact fresh z listed rfl
        · exact notRow rfl
        · exact notOut out
    rw [Std.TreeMap.getElem?_insert, if_neg (by simpa using apart)]
    exact agree.keeps.held y' w found
  · intro y' k held item
    have apart : y ≠ y' := by
      rintro rfl
      obtain ⟨l, held', items, _⟩ := pair_alike operand second first pair.symm held
      simp [plain l held', item] at items
    rw [Std.TreeMap.getElem?_insert, if_neg (by simpa using apart)]
    exact agree.keeps.items y' k held item

def Placed.correspondence (operand : SelfContained a ids row outside)
    (first : Placed a ids row outside b f) (second : Placed a ids row outside c g)
    (context : List (String × Value N)) (kept : Bindings N)
    (spares : Placed.Spares ids row outside g kept) :
    Correspondence (N := N) ⟨b, context⟩ ⟨c, context⟩ where
  node := Placed.Pair ids row outside f g
  binder := Placed.Binder ids row outside f g b
  idle := (b.isFunction ·)
  env := Placed.Agree ⟨c, context⟩ ids row outside f g kept
  context := rfl
  alike pair held := by
    obtain ⟨l, held', _, alike⟩ := pair_alike operand first second pair held
    exact ⟨l, held', alike⟩
  isFunction := id
  insert := by
    rintro x y v ρ σ bound agree
    exact agree.insert operand first second spares bound v
  found pair agree found := agree.pairs _ _ pair _ found
  missing pair agree held item _ := by
    obtain ⟨l, held', items, _⟩ := pair_alike operand first second pair held
    exact agree.keeps.items _ l held' (items.trans item)

structure Stands (a : Arena) (ids : List NodeId) (row : NodeId) (outside : NodeId → Prop)
    (b : Arena) (acc onto : NodeId) (f : NodeId → NodeId) : Prop
    extends Placed a ids row outside b f where
  toRow : f row = onto
  accApart : ∀ x ∈ ids, f x ≠ acc
  accInside : ¬ outside acc

theorem Stands.here {d : Arena} {acc : NodeId} (later : a.Extends d) (param : ∃ n t, a.kind? row = some (.param n t))
    (apart : row ∉ ids ∧ acc ∉ ids) (away : ∀ x ∈ acc :: row :: ids, ¬ outside x) :
    Stands a ids row outside d acc row id where
  rendered := ⟨fun x _ k held =>
    ⟨k, later.kind_of_some held, by simpa using Kind.Renames.same (f := id) k⟩, fun _ _ _ _ => id⟩
  param := param.imp fun n => .imp fun t => later.kind_of_some
  rowApart x listed same := apart.1 ((show x = row from same) ▸ listed)
  inside x listed := away x (by simp [listed])
  rowInside := away row (by simp)
  base := later
  still _ _ _ _ _ _ _ := rfl
  toRow := rfl
  accApart x listed same := apart.2 ((show x = acc from same) ▸ listed)
  accInside := away acc (by simp)

def rowOnly (row : NodeId) (value : Value N) : Bindings N := (∅ : Bindings N).insert row value

/-- An operand that has a value over its row alone has it in every place, whatever else is bound,
and leaves alone what it is spared. -/
theorem Placed.settled [Arithmetic N] (operand : SelfContained a ids row outside) (first : Placed a ids row outside b f)
    (second : Placed a ids row outside c g) {context : List (String × Value N)} {kept : Bindings N}
    (spares : Placed.Spares ids row outside g kept) {top : NodeId} (listed : top ∈ ids) {r v : Value N}
    (given : kept[g row]? = some r) (alone : Setting.Evaluates ⟨b, context⟩ (rowOnly (f row) r) (f top) v) :
    Setting.Settled ⟨c, context⟩ kept (g top) v := by
  obtain ⟨depth, ρ', done⟩ := alone
  refine ⟨depth, fun σ keeps => ?_⟩
  have agree : Placed.Agree ⟨c, context⟩ ids row outside f g kept (rowOnly (f row) r) σ := by
    refine ⟨fun x y pair w found => ?_, keeps⟩
    rw [rowOnly, Std.TreeMap.getElem?_insert] at found
    split at found
    next same =>
      obtain rfl : f row = x := by simpa using same
      cases found
      rw [← first.unique (.inl ⟨row, .inr rfl, rfl, rfl⟩) pair]
      exact keeps.held _ _ given
    next => simp at found
  have carries := (correspondence operand first second context kept spares).carries (le_refl depth)
  obtain ⟨_, σ', done', rfl, agree'⟩ :=
    (carries.eval (.inl ⟨top, .inl listed, rfl, rfl⟩)).run agree done
  exact ⟨σ', done', agree'.keeps⟩

theorem Stands.settled [Arithmetic N] (operand : SelfContained a ids row outside) {acc acc' onto onto' : NodeId} (first
    : Stands a ids row outside b acc onto f) (second : Stands a ids row outside c acc' onto' g) {context : List (String
    × Value N)} {top : NodeId} (listed : top ∈ ids) {u r v : Value N} (alone : Setting.Evaluates ⟨b, context⟩ (rowOnly
    onto r) (f top) v) : Setting.Settled ⟨c, context⟩ (Setting.bound [acc', onto'] [u, r] ∅) (g top) v := by
  refine Placed.settled operand first.toPlaced second.toPlaced ?_ listed ?_ (first.toRow ▸ alone)
  · intro y w found
    rw [Setting.getElem?_bound_two] at found
    split at found
    next same => exact .inl (same.symm.trans second.toRow.symm)
    next =>
      split at found
      next same =>
        subst same
        exact .inr ⟨fun z listed same => second.accApart z listed same.symm, second.accInside⟩
      next => cases found
  · rw [Setting.getElem?_bound_two, second.toRow, if_pos rfl]

end

end DerivedTables
