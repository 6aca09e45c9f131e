import DerivedTables.Proofs.Scope.Hooks

/-!
What a name stands for in a scope.
-/

namespace DerivedTables

def Kind.bound? : Kind → Option String
  | definition name _ | assignment name _ | derived name _ | column name _ | param name _ | binding name _ _ => some name
  | function name _ _ => name
  | _ => none

namespace Scopes

variable {s t : Scopes} {id p : Nat} {name : String}

theorem scope?_nested (s : Scopes) (p id : ScopeId) :
    (s.nested p).2.scope? id = if id = s.size then some ⟨some p, ∅⟩ else s.scope? id :=
  Array.getElem?_push ..

@[simp] theorem size_nested (s : Scopes) (p : ScopeId) : (s.nested p).2.size = s.size + 1 := by
  simp [nested, size]

@[simp] theorem size_insert (s : Scopes) (id : ScopeId) (name : String) (symbol : Symbol) :
    (s.insert id name symbol).size = s.size := by
  simp [insert, size]

theorem parent?_nested (s : Scopes) (p id : ScopeId) :
    (s.nested p).2.parent? id = if id = s.size then some p else s.parent? id := by
  rw [parent?, scope?_nested]
  split <;> rfl

theorem symbol?_nested (s : Scopes) (p id : ScopeId) (name : String) :
    (s.nested p).2.symbol? id name = if id = s.size then none else s.symbol? id name := by
  rw [symbol?, scope?_nested]
  split
  · simp
  · rfl

theorem scope?_insert (s : Scopes) (id other : ScopeId) (name : String) (symbol : Symbol) :
    (s.insert id name symbol).scope? other = if id = other
      then (s.scope? other).map fun scope => { scope with symbols := scope.symbols.insert name symbol }
      else s.scope? other :=
  Array.getElem?_modify ..

@[simp] theorem parent?_insert (s : Scopes) (id other : ScopeId) (name : String) (symbol : Symbol) :
    (s.insert id name symbol).parent? other = s.parent? other := by
  rw [parent?, scope?_insert]
  split
  · simp [parent?, Option.bind_map]
  · rfl

theorem symbol?_insert (s : Scopes) {id : ScopeId} (there : id < s.size) (other : ScopeId) (name shown : String)
    (symbol : Symbol) : (s.insert id name symbol).symbol? other shown = if id = other ∧ name = shown then some symbol
    else s.symbol? other shown := by
  rw [symbol?, scope?_insert]
  by_cases here : id = other
  · subst here
    have there : id < s.all.size := there
    have found : s.scope? id = some s.all[id] := Array.getElem?_eq_getElem there
    simp [symbol?, found, Std.TreeMap.getElem?_insert, Std.LawfulEqCmp.compare_eq_iff_eq]
  · simp [here, symbol?]

theorem lt_size_of_parent? (found : s.parent? id = some p) : id < s.size := by
  obtain ⟨scope, there, -⟩ := Option.bind_eq_some_iff.1 found
  exact (Array.getElem?_eq_some_iff.1 there).1

theorem lt_size_of_symbol? {symbol : Symbol} (found : s.symbol? id name = some symbol) : id < s.size := by
  obtain ⟨scope, there, -⟩ := Option.bind_eq_some_iff.1 found
  exact (Array.getElem?_eq_some_iff.1 there).1

def Ordered (s : Scopes) : Prop := ∀ id p : Nat, s.parent? id = some p → p < id

theorem lookupWithin_eq (ordered : s.Ordered) {fuel more : Nat} (enough : id < fuel)
    (also : id < more) : s.lookupWithin name fuel id = s.lookupWithin name more id := by
  induction fuel generalizing id more with
  | zero => cases enough
  | succ fuel ih =>
    cases more with
    | zero => cases also
    | succ more =>
      rw [lookupWithin, lookupWithin]
      split
      · rfl
      · cases found : s.parent? id with
        | none => rfl
        | some p =>
          have below := ordered _ _ found
          exact ih (by omega) (by omega)

theorem lookup?_eq (ordered : s.Ordered) (id : Nat) (name : String) :
    s.lookup? id name = match s.symbol? id name with
      | some symbol => some symbol
      | none => (s.parent? id).bind (s.lookup? · name) := by
  by_cases there : id < s.size
  · rw [lookup?, lookupWithin_eq ordered there (Nat.lt_succ_of_lt there), lookupWithin]
    cases s.symbol? id name <;> rfl
  · have missing : s.symbol? id name = none := by
      by_contra found
      obtain ⟨symbol, found⟩ := Option.ne_none_iff_exists'.1 found
      exact there (lt_size_of_symbol? found)
    have apart : s.parent? id = none := by
      by_contra found
      obtain ⟨p, found⟩ := Option.ne_none_iff_exists'.1 found
      exact there (lt_size_of_parent? found)
    rw [missing, apart, lookup?]
    cases s.size with
    | zero => rfl
    | succ n => simp [lookupWithin, missing, apart]

def seenWithin (s : Scopes) (own : NodeId → Bool) (name : String) : Nat → ScopeId → Option NodeId
  | 0, _ => none
  | fuel + 1, id =>
    match s.symbol? id name with
    | some symbol =>
      if own symbol.node then (s.parent? id).bind (s.seenWithin own name fuel) else some symbol.node
    | none => (s.parent? id).bind (s.seenWithin own name fuel)

def seen (s : Scopes) (own : NodeId → Bool) (id : ScopeId) (name : String) : Option NodeId :=
  s.seenWithin own name (id + 1) id

variable {own : NodeId → Bool}

theorem seenWithin_eq (ordered : s.Ordered) {fuel more : Nat} (enough : id < fuel)
    (also : id < more) : s.seenWithin own name fuel id = s.seenWithin own name more id := by
  induction fuel generalizing id more with
  | zero => cases enough
  | succ fuel ih =>
    cases more with
    | zero => cases also
    | succ more =>
      have outside : (s.parent? id).bind (s.seenWithin own name fuel) =
          (s.parent? id).bind (s.seenWithin own name more) := by
        cases found : s.parent? id with
        | none => rfl
        | some p =>
          have below := ordered _ _ found
          exact ih (by omega) (by omega)
      rw [seenWithin, seenWithin, outside]

theorem seen_eq (ordered : s.Ordered) (own : NodeId → Bool) (id : Nat) (name : String) :
    s.seen own id name = match s.symbol? id name with
      | some symbol => if own symbol.node then (s.parent? id).bind (s.seen own · name) else some symbol.node
      | none => (s.parent? id).bind (s.seen own · name) := by
  have outside : (s.parent? id).bind (s.seenWithin own name id) =
      (s.parent? id).bind (s.seen own · name) := by
    cases found : s.parent? id with
    | none => rfl
    | some p => exact seenWithin_eq ordered (ordered _ _ found) (Nat.lt_succ_self p)
  rw [seen, seenWithin, outside]

def Binds (s : Scopes) (node : NodeId) : Prop :=
  ∃ id name symbol, s.symbol? id name = some symbol ∧ symbol.node = node

structure Grows (s : Scopes) (changed : Nat → Prop) (t : Scopes) : Prop where
  size : s.size ≤ t.size
  parent : ∀ {id : Nat}, id < s.size → t.parent? id = s.parent? id
  symbol : ∀ {id : Nat}, id < s.size → ¬ changed id → ∀ name, t.symbol? id name = s.symbol? id name

theorem Grows.refl (s : Scopes) (changed : Nat → Prop) : s.Grows changed s :=
  ⟨le_rfl, fun _ => rfl, fun _ _ _ => rfl⟩

theorem Grows.trans {u : Scopes} {changed later : Nat → Prop} (first : s.Grows changed t)
    (second : t.Grows later u) (fewer : ∀ i < s.size, later i → changed i) : s.Grows changed u where
  size := first.size.trans second.size
  parent old := (second.parent (old.trans_le first.size)).trans (first.parent old)
  symbol {i} old same name := (second.symbol (old.trans_le first.size) (mt (fewer i old) same) name).trans
    (first.symbol old same name)

theorem seen_eq_of_below (ordered : s.Ordered) (ordered' : t.Ordered) (parents : ∀ i ≤ id, t.parent? i = s.parent? i)
    (symbols : ∀ i ≤ id, ∀ name, t.symbol? i name = s.symbol? i name) (own : NodeId → Bool)
    (name : String) : t.seen own id name = s.seen own id name := by
  induction id using Nat.strong_induction_on with
  | _ id ih =>
    have outside : (s.parent? id).bind (t.seen own · name) = (s.parent? id).bind (s.seen own · name) := by
      cases found : s.parent? id with
      | none => rfl
      | some p =>
        have below := ordered _ _ found
        exact ih p below (fun i within => parents i (within.trans below.le))
          fun i within => symbols i (within.trans below.le)
    rw [seen_eq ordered', seen_eq ordered, symbols id le_rfl, parents id le_rfl, outside]

theorem Grows.seen_eq {changed : Nat → Prop} (grows : s.Grows changed t) (ordered : s.Ordered)
    (ordered' : t.Ordered) (there : id < s.size) (inwards : ∀ i, changed i → id < i) (own : NodeId → Bool)
    (name : String) : t.seen own id name = s.seen own id name :=
  seen_eq_of_below ordered ordered' (fun _ within => grows.parent (within.trans_lt there))
    (fun i within => grows.symbol (within.trans_lt there) fun now =>
      absurd (inwards i now) (Nat.not_lt.2 within)) own name

theorem seen_empty (ordered : s.Ordered) (empty : ∀ shown, s.symbol? id shown = none)
    (own : NodeId → Bool) (name : String) : s.seen own id name = (s.parent? id).bind (s.seen own · name) := by
  rw [seen_eq ordered, empty]

end Scopes

namespace Resolution

variable {a b : Arena} {s t : Scopes}

structure Sane (a : Arena) (s : Scopes) : Prop where
  ordered : s.Ordered
  inner : ∀ {id : Nat}, 0 < id → id < s.size → ∃ p, s.parent? id = some p
  named : ∀ {id name symbol}, s.symbol? id name = some symbol →
    (a.kind? symbol.node).bind Kind.bound? = some name
  lets : ∀ {id name symbol shown value next}, s.symbol? id name = some symbol →
    a.kind? symbol.node = some (.binding shown value next) →
    ∃ inner, symbol.scope = some inner ∧ s.parent? inner = some id
  tables : ∀ {id name symbol shown properties}, s.symbol? id name = some symbol →
    a.kind? symbol.node = some (.definition shown properties) → id = Scopes.outermost

theorem kind_of_inOwnValue {binding : NodeId} {path : List NodeId} (inside : inOwnValue a binding path = true) :
    ∃ name value next, a.kind? binding = some (.binding name value next) := by
  induction path with
  | nil => cases inside
  | cons child path ih =>
    cases path with
    | nil => cases inside
    | cons parent rest =>
      rw [inOwnValue, Bool.or_eq_true_iff, Bool.and_eq_true_iff] at inside
      obtain ⟨-, here⟩ | there := inside
      · split at here
        · rename_i name value next held
          exact ⟨name, value, next, held⟩
        · cases here
      · exact ih there

theorem lookup?_node (sane : Sane a s) (scope : Nat) (name : String) (path : List NodeId) (there : scope < s.size) :
    (lookup? a s scope name path).map Symbol.node = s.seen (inOwnValue a · path) scope name := by
  -- The fuel only has to exceed the scope, since every step outwards leads to an earlier one.
  have reach : ∀ id fuel : Nat, id < fuel → (outward a s name path fuel (s.lookup? id name)).map Symbol.node =
      s.seen (inOwnValue a · path) id name := by
    intro id
    induction id using Nat.strong_induction_on with
    | _ id ih =>
      intro fuel enough
      obtain _ | fuel := fuel
      · cases enough
      rw [s.lookup?_eq sane.ordered, s.seen_eq sane.ordered]
      cases found : s.symbol? id name with
      | some symbol =>
        simp only [outward]
        by_cases inside : inOwnValue a symbol.node path
        · obtain ⟨shown, value, next, held⟩ := kind_of_inOwnValue inside
          obtain ⟨inner, opened, around⟩ := sane.lets found held
          simp only [inside, if_true, opened, around, Option.bind_eq_bind, Option.bind_some,
            Scopes.lookupOuter?]
          cases outer : s.parent? id with
          | none => simp [outward]
          | some p =>
            have below := sane.ordered _ _ outer
            exact ih p below fuel (by omega)
        · simp [inside]
      | none =>
        cases outer : s.parent? id with
        | none => simp [outward]
        | some p =>
          have below := sane.ordered _ _ outer
          exact ih p below (fuel + 1) (by omega)
  exact reach scope (s.size + 1) (by omega)

theorem Sane.nested (sane : Sane a s) {p : Nat} (there : p < s.size) : Sane a (s.nested p).2 := by
  have old {id : Nat} {name : String} {symbol : Symbol} (found : (s.nested p).2.symbol? id name = some symbol) :
      s.symbol? id name = some symbol := by
    rw [Scopes.symbol?_nested] at found
    split at found
    · cases found
    · exact found
  refine ⟨fun id q found => ?_, fun {id} inside below => ?_, fun found => sane.named (old found),
    fun found held => ?_, fun found => sane.tables (old found)⟩
  · rw [Scopes.parent?_nested] at found
    split at found
    · rename_i new
      cases found
      rwa [new]
    · exact sane.ordered _ _ found
  · rw [Scopes.parent?_nested]
    split
    · exact ⟨p, rfl⟩
    · rename_i other
      rw [Scopes.size_nested] at below
      exact sane.inner inside (Nat.lt_of_le_of_ne (Nat.lt_succ_iff.1 below) other)
  · obtain ⟨inner, opened, around⟩ := sane.lets (old found) held
    exact ⟨inner, opened, by rwa [Scopes.parent?_nested, if_neg (Scopes.lt_size_of_parent? around).ne]⟩

theorem Sane.insert (sane : Sane a s) {id : Nat} (there : id < s.size) {name : String} {symbol : Symbol} (named :
    (a.kind? symbol.node).bind Kind.bound? = some name) (lets : ∀ {shown value next}, a.kind? symbol.node = some
    (.binding shown value next) → ∃ inner, symbol.scope = some inner ∧ s.parent? inner = some id) (tables : ∀ {shown
    properties}, a.kind? symbol.node = some (.definition shown properties) → id = Scopes.outermost) : Sane a (s.insert
    id name symbol) := by
  have cases {other : Nat} {shown : String} {found : Symbol}
      (bound : (s.insert id name symbol).symbol? other shown = some found) :
      (id = other ∧ name = shown ∧ symbol = found) ∨ s.symbol? other shown = some found := by
    rw [Scopes.symbol?_insert s there] at bound
    split at bound
    · rename_i here
      exact .inl ⟨here.1, here.2, Option.some_injective _ bound⟩
    · exact .inr bound
  refine ⟨fun _ _ found => ?_, fun inside below => ?_, fun found => ?_, fun found held => ?_, fun found held => ?_⟩
  · rw [Scopes.parent?_insert] at found
    exact sane.ordered _ _ found
  · rw [Scopes.size_insert] at below
    simpa using sane.inner inside below
  · obtain ⟨-, rfl, rfl⟩ | old := cases found
    · exact named
    · exact sane.named old
  · simp only [Scopes.parent?_insert]
    obtain ⟨rfl, -, rfl⟩ | old := cases found
    · exact lets held
    · exact sane.lets old held
  · obtain ⟨rfl, -, rfl⟩ | old := cases found
    · exact tables held
    · exact sane.tables old held

def Names (a b : Arena) : Prop :=
  ∀ x, b.kind? x = a.kind? x ∨
    ∃ name target, a.kind? x = some (.identifier name) ∧ b.kind? x = some (.reference target name)

theorem Names.refl (a : Arena) : Names a a := fun _ => .inl rfl

theorem Names.trans {c : Arena} (first : Names a b) (second : Names b c) : Names a c := by
  intro x
  obtain same | ⟨name, target, held, bound⟩ := second x
  · obtain same' | ⟨name, target, held, bound⟩ := first x
    · exact .inl (same.trans same')
    · exact .inr ⟨name, target, held, same.trans bound⟩
  · obtain same' | ⟨_, _, _, bound'⟩ := first x
    · exact .inr ⟨name, target, same'.symm.trans held, bound⟩
    · rw [bound'] at held
      cases held

theorem Names.kind_back (names : Names a b) {x : NodeId} {k : Kind} (held : b.kind? x = some k)
    (other : ∀ target name, k ≠ .reference target name) : a.kind? x = some k := by
  obtain same | ⟨name, target, -, found⟩ := names x
  · exact same.symm.trans held
  · rw [held] at found
    cases found
    exact absurd rfl (other target name)

theorem Names.inOwnValue (names : Names a b) (binding : NodeId) (path : List NodeId) :
    inOwnValue b binding path = inOwnValue a binding path := by
  induction path with
  | nil => rfl
  | cons child path ih =>
    cases path with
    | nil => rfl
    | cons parent rest =>
      rw [Resolution.inOwnValue, Resolution.inOwnValue, ih]
      obtain same | ⟨name, target, held, bound⟩ := names binding
      · rw [same]
      · rw [held, bound]

theorem Sane.names (sane : Sane a s) (names : Names a b) : Sane b s where
  ordered := sane.ordered
  inner := sane.inner
  named {_ _ symbol} found := by
    have named := sane.named found
    obtain same | ⟨_, _, held, -⟩ := names symbol.node
    · rwa [same]
    · rw [held] at named
      cases named
  lets found held := sane.lets found (names.kind_back held (by simp))
  tables found held := sane.tables found (names.kind_back held (by simp))

end Resolution

end DerivedTables
