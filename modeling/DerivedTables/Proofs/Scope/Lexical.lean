import DerivedTables.Proofs.Compilation.FrontEnd
import DerivedTables.Proofs.Tree.Paths

/-!
Lexical scoping, said of the arena alone.
-/

namespace DerivedTables

/-- The name under which a node can be referred to by what stands beside or below it. -/
def Kind.label? : Kind → Option String
  | .definition name _ | .assignment name _ | .column name _ | .derived name _ | .param name _ => some name
  | _ => none

def Kind.opens : Kind → Bool
  | .root .. | .definition .. | .function .. | .binding .. => true
  | _ => false

def Kind.declares : Kind → Bool
  | .root .. | .definition .. | .function .. | .identifier _ => true
  | _ => false

namespace Arena

variable {a b : Arena}
variable {k : Kind} {above : List NodeId} {x : NodeId}

def labels (a : Arena) (ids : List NodeId) : List (String × NodeId) :=
  ids.filterMap fun id => ((a.kind? id).bind Kind.label?).map fun name => (name, id)

/-- The names that `parent` makes visible in one of its children: all items of a program, all columns
of a table, the parameters of a function before its own name, and a let in what follows it. -/
def opened (a : Arena) (parent child : NodeId) : List (String × NodeId) :=
  match a.kind? parent with
  | some (.root definitions assignments _) => a.labels (definitions ++ assignments)
  | some (.definition _ properties) => a.labels properties
  | some (.function name params _) => a.labels params ++ (name.map fun name => (name, parent)).toList
  | some (.binding name _ next) => if child = next then [(name, parent)] else []
  | _ => []

/-- The innermost binder of a name along the path from its use to the root. -/
def visible (a : Arena) (name : String) : List NodeId → Option NodeId
  | child :: parent :: above =>
    ((a.opened parent child).lookup name).or (a.visible name (parent :: above))
  | _ => none

/-- The identifier at the start of the path, unless it is a member name. -/
def nameAt? (a : Arena) : List NodeId → Option String
  | [] => none
  | x :: above => if a.isPropertyName x above.head? then none else a.identifier? x

/-- What is asked of the node at the start of a path: a name has a binder, and nothing declares two
parts of one name. -/
structure ScopedAt (a : Arena) (x : NodeId) (above : List NodeId) : Prop where
  name : ∀ {name}, a.nameAt? (x :: above) = some name → (a.visible name (x :: above)).isSome
  items : ∀ {definitions assignments last}, a.kind? x = some (.root definitions assignments last) →
    ((a.labels (definitions ++ assignments)).map Prod.fst).Nodup
  properties : ∀ {name properties}, a.kind? x = some (.definition name properties) →
    ((a.labels properties).map Prod.fst).Nodup
  params : ∀ {name params body}, a.kind? x = some (.function name params body) →
    ((a.labels params).map Prod.fst).Nodup

/-- The kind of the node at the start of a path, once names are bound. -/
def boundKind? (a : Arena) (x : NodeId) (above : List NodeId) : Option Kind :=
  match a.nameAt? (x :: above) with
  | some name => (a.visible name (x :: above)).map fun target => .reference target name
  | none => a.kind? x

theorem nameAt?_of_other (held : a.kind? x = some k)
    (other : ∀ name, k ≠ .identifier name) : a.nameAt? (x :: above) = none := by
  have nothing : a.identifier? x = none := by
    rw [identifier?, held]
    split
    · rename_i name same
      cases same
      exact absurd rfl (other name)
    · rfl
  rw [nameAt?, nothing, ite_self]

theorem scopedAt_of_plain (held : a.kind? x = some k) (plain : k.declares = false) : a.ScopedAt x above := by
  refine ⟨fun {name} same => ?_, ?_, ?_, ?_⟩
  · have other : ∀ name, k ≠ .identifier name := by rintro name rfl; cases plain
    cases (nameAt?_of_other held other).symm.trans same
  all_goals
    intros
    rename_i held'
    cases held.symm.trans held'
    cases plain

theorem boundKind?_of_other (held : a.kind? x = some k)
    (other : ∀ name, k ≠ .identifier name) : a.boundKind? x above = some k := by
  rw [boundKind?, nameAt?_of_other held other, held]

theorem labels_cons {id : NodeId} {name : String} (label : (a.kind? id).bind Kind.label? = some name)
    (rest : List NodeId) : a.labels (id :: rest) = (name, id) :: a.labels rest := by
  rw [labels, List.filterMap_cons, label]
  rfl

theorem visible_cons (name : String) (child parent : NodeId) (above : List NodeId) :
    a.visible name (child :: parent :: above) =
      ((a.opened parent child).lookup name).or (a.visible name (parent :: above)) := rfl

end Arena

namespace Tree

open Arena

variable {a b : Arena} {lineage : Lineage} {view : View} {id : NodeId} {kind : Kind} {parts : List Tree}
  {t s : Tree} {ts : List Tree}

def Lexical (a : Arena) (lineage : Lineage) (t : Tree) : Option Tree → Prop
  | some t' => (∀ {x above}, a.Descends (t.id :: lineage) (x :: above) → a.ScopedAt x above) ∧
      ∀ {b : Arena}, t'.StandsIn b → ∀ {x above}, a.Descends (t.id :: lineage) (x :: above) →
        b.kind? x = a.boundKind? x above
  | none => ∃ x above, a.Descends (t.id :: lineage) (x :: above) ∧ ¬ a.ScopedAt x above

def LexicalAll (a : Arena) (lineage : Lineage) (ts : List Tree) : Option (List Tree) → Prop
  | some ts' => (∀ t ∈ ts, ∀ {x above}, a.Descends (t.id :: lineage) (x :: above) → a.ScopedAt x above) ∧
      ∀ {b : Arena}, (∀ t' ∈ ts', t'.StandsIn b) → ∀ t ∈ ts, ∀ {x above},
        a.Descends (t.id :: lineage) (x :: above) → b.kind? x = a.boundKind? x above
  | none => ∃ t ∈ ts, ∃ x above, a.Descends (t.id :: lineage) (x :: above) ∧ ¬ a.ScopedAt x above

theorem lexicalAll_mapM {bind : Tree → Option Tree} (each : ∀ t ∈ ts, Lexical a lineage t (bind t)) :
    LexicalAll a lineage ts (ts.mapM bind) := by
  induction ts with
  | nil => exact ⟨by simp, by simp⟩
  | cons t rest ih =>
    simp only [List.forall_mem_cons] at each
    have first := each.1
    have others := ih each.2
    rw [List.mapM_cons]
    cases here : bind t with
    | none =>
      rw [here] at first
      obtain ⟨x, above, path, broken⟩ := first
      exact ⟨t, by simp, x, above, path, broken⟩
    | some t' =>
      rw [here] at first
      cases there : rest.mapM bind with
      | none =>
        rw [there] at others
        obtain ⟨s, part, found⟩ := others
        exact ⟨s, List.mem_cons_of_mem _ part, found⟩
      | some rest' =>
        rw [there] at others
        refine ⟨List.forall_mem_cons.2 ⟨first.1, others.1⟩, fun {b} stand => ?_⟩
        rw [List.forall_mem_cons] at stand
        exact List.forall_mem_cons.2 ⟨first.2 stand.1, others.2 stand.2⟩

theorem Lexical.node (stands : (Tree.node id kind parts).StandsIn a) (noName : ∀ name, kind ≠ .identifier name)
    (own : a.ScopedAt id lineage) {resolved : Option (List Tree)} (below : LexicalAll a (id :: lineage) parts resolved)
    : Lexical a lineage (Tree.node id kind parts) (resolved.map (Tree.node id kind)) := by
  cases resolved with
  | none =>
    obtain ⟨s, part, x, above, path, broken⟩ := below
    exact ⟨x, above, stands.descends_iff.2 (.inr ⟨s, part, path⟩), broken⟩
  | some parts' =>
    refine ⟨fun {x above} path => ?_, fun {b} stands' x above path => ?_⟩
    · obtain same | ⟨s, part, inside⟩ := stands.descends_iff.1 path
      · cases same
        exact own
      · exact below.1 s part inside
    · obtain same | ⟨s, part, inside⟩ := stands.descends_iff.1 path
      · cases same
        exact stands'.held.trans (boundKind?_of_other stands.held noName).symm
      · exact below.2 (fun t' part => stands'.child part) s part inside

theorem lexical_leaf (stands : (node id kind []).StandsIn a) (noName : ∀ name, kind ≠ .identifier name)
    (own : a.ScopedAt id lineage) : Lexical a lineage (node id kind []) (some (node id kind [])) :=
  have nothing : LexicalAll a (id :: lineage) [] (some []) := ⟨by simp, by simp⟩
  Lexical.node stands noName own nothing

theorem lexical_identifier {name : String} (stands : (node id (.identifier name) []).StandsIn a)
    (seen : ∀ {shown}, a.nameAt? (id :: lineage) = some shown → (a.visible shown (id :: lineage)).isSome)
    (bound : ∀ {b : Arena}, t.StandsIn b → b.kind? id = a.boundKind? id lineage) :
    Lexical a lineage (node id (.identifier name) []) (some t) := by
  have only {x : NodeId} {above : List NodeId} (path : a.Descends (id :: lineage) (x :: above)) :
      x = id ∧ above = lineage := by
    obtain same | ⟨s, part, -⟩ := stands.descends_iff.1 path
    · cases same
      exact ⟨rfl, rfl⟩
    · cases part
  refine ⟨fun {x above} path => ?_, fun {b} stands' x above path => ?_⟩
  · obtain ⟨rfl, rfl⟩ := only path
    refine ⟨seen, ?_, ?_, ?_⟩
    all_goals
      intros
      rename_i held
      cases stands.held.symm.trans held
  · obtain ⟨rfl, rfl⟩ := only path
    exact bound stands'

theorem lexical_name {name : String} (stands : (node id (.identifier name) []).StandsIn a)
    (sees : view name = a.visible name (id :: lineage)) (used : a.isPropertyName id lineage.head? = false) : Lexical a
    lineage (node id (.identifier name) []) ((view name).map fun target => node id (.reference target name) []) := by
  have shown : a.nameAt? (id :: lineage) = some name := by
    simp [nameAt?, used, identifier?, stands.held]
  rw [sees]
  cases found : a.visible name (id :: lineage) with
  | none =>
    refine ⟨id, lineage, .here, fun own => ?_⟩
    have bound := own.name shown
    rw [found] at bound
    cases bound
  | some target =>
    refine lexical_identifier stands (fun {_} same => ?_) fun {b} stands' => ?_
    · cases shown.symm.trans same
      simp [found]
    · rw [boundKind?, shown]
      simp [found, stands'.held]

theorem lexical_member {name : String} (stands : (node id (.identifier name) []).StandsIn a)
    (member : a.isPropertyName id lineage.head? = true) :
    Lexical a lineage (node id (.identifier name) []) (some (node id (.identifier name) [])) := by
  have unnamed : a.nameAt? (id :: lineage) = none := by simp [nameAt?, member]
  refine lexical_identifier stands (fun {_} same => ?_) fun {b} stands' => ?_
  · cases unnamed.symm.trans same
  · rw [boundKind?, unnamed, stands'.held, stands.held]

theorem used_below (held : a.kind? id = some kind) (noAccess : ∀ s p, kind ≠ .access s p) (x : NodeId)
    (lineage : Lineage) : a.isPropertyName x (id :: lineage).head? = false := by
  rw [List.head?_cons, isPropertyName, Option.bind_some, held]
  split
  · rename_i same
    cases same
    exact absurd rfl (noAccess _ _)
  · rfl

theorem visible_below (held : a.kind? id = some kind) (quiet : kind.opens = false) (name : String)
    (x : NodeId) (lineage : Lineage) : a.visible name (x :: id :: lineage) = a.visible name (id :: lineage) := by
  have nothing : a.opened id x = [] := by
    rw [opened, held]
    cases kind <;> first | rfl | cases quiet
  rw [visible_cons, nothing, List.lookup_nil, Option.none_or]

theorem labels_params {params : List Tree} (leaves : ∀ t ∈ params, t.IsParam)
    (stand : ∀ t ∈ params, t.StandsIn a) : a.labels (params.map Tree.id) = paramNames params := by
  induction params with
  | nil => rfl
  | cons p rest ih =>
    simp only [List.forall_mem_cons] at leaves stand
    obtain ⟨name, declared, kind, shown⟩ := leaves.1.paramName?
    have label : (a.kind? p.id).bind Kind.label? = some name := by
      rw [stand.1.kind, kind]
      rfl
    rw [List.map_cons, labels_cons label, paramNames, List.filterMap_cons_some shown, ih leaves.2 stand.2]
    rfl

theorem labels_declared {items : List Tree} (stand : ∀ t ∈ items, t.StandsIn a) (declared : ∀ t ∈ items, ∃ name leaf,
    Resolution.declaration? t.kind = some (name, leaf)) : a.labels (items.map Tree.id) = declaredNames items := by
  induction items with
  | nil => rfl
  | cons t rest ih =>
    simp only [List.forall_mem_cons] at stand declared
    obtain ⟨name, leaf, shown⟩ := declared.1
    have label : (a.kind? t.id).bind Kind.label? = some name := by
      rw [stand.1.kind, Option.bind_some]
      cases kind : t.kind <;> rw [kind] at shown <;> cases shown <;> rfl
    rw [List.map_cons, labels_cons label, declaredNames_cons shown, ih stand.2 declared.2]

theorem lexical_function {name : Option String} {params : List Tree} {body : Tree} (leaves : ∀ t ∈ params, t.IsParam)
    (inside : body.Expression) (stands : (node id (.function name (params.map Tree.id) body.id) (params ++
    [body])).StandsIn a) (sees : ∀ shown, view shown = a.visible shown (id :: lineage)) (below : ∀ {view : View}, (∀
    shown, view shown = a.visible shown (body.id :: id :: lineage)) → a.isPropertyName body.id (id :: lineage).head? =
    false → Lexical a (id :: lineage) body (body.resolve view)) : Lexical a lineage (node id (.function name (params.map
    Tree.id) body.id) (params ++ [body])) ((node id (.function name (params.map Tree.id) body.id) (params ++
    [body])).resolve view) := by
  have stand : ∀ t ∈ params, t.StandsIn a := fun t part => stands.child (by simp [part])
  have names := labels_params leaves stand
  rw [resolve_function leaves inside]
  split
  · rename_i distinct
    have own : a.ScopedAt id lineage := by
      refine ⟨fun {shown} same => ?_, ?_, ?_, fun {_ _ _} held => ?_⟩
      · cases (nameAt?_of_other stands.held (by simp)).symm.trans same
      · intros
        rename_i held
        cases stands.held.symm.trans held
      · intros
        rename_i held
        cases stands.held.symm.trans held
      · cases stands.held.symm.trans held
        rwa [names]
    have view' (shown : String) : ((match name with
        | some name => view.with [(name, id)]
        | none => view).with (paramNames params)) shown = a.visible shown (body.id :: id :: lineage) := by
      have opened : a.opened id body.id =
          paramNames params ++ (name.map fun name => (name, id)).toList := by
        rw [opened, stands.held]
        exact congrArg (· ++ _) names
      rw [visible_cons, opened, List.lookup_append, View.with, ← sees]
      cases name with
      | none => simp
      | some own => simp [View.with, Option.or_assoc]
    have last := below view' (used_below stands.held (by simp) _ _)
    have all : LexicalAll a (id :: lineage) (params ++ [body]) ((body.resolve ((match name with
        | some name => view.with [(name, id)]
        | none => view).with (paramNames params))).map fun body => params ++ [body]) := by
      rw [← resolveAll_params leaves, resolveAll_eq_mapM]
      refine lexicalAll_mapM fun t part => ?_
      obtain part | part := List.mem_append.1 part
      · rw [(leaves t part).resolve]
        obtain ⟨p, shown, declared, rfl⟩ := leaves t part
        exact lexical_leaf (stand _ part) (by simp) (scopedAt_of_plain (stand _ part).held rfl)
      · obtain rfl := List.mem_singleton.1 part
        exact last
    have whole := Lexical.node stands (by simp) own all
    rw [Option.map_map] at whole
    exact whole
  · rename_i twice
    refine ⟨id, lineage, .here, fun own => twice ?_⟩
    rw [← names]
    exact own.params stands.held

theorem Expression.lexical (expression : t.Expression) (stands : t.StandsIn a) (once : t.ids.Nodup)
    (sees : ∀ name, view name = a.visible name (t.id :: lineage)) (used : a.isPropertyName t.id lineage.head? = false) :
    Lexical a lineage t (t.resolve view) := by
  induction expression generalizing view lineage with
  | @atom id kind atom =>
    by_cases named : ∃ name, kind = .identifier name
    · obtain ⟨name, rfl⟩ := named
      exact lexical_name stands (sees name) used
    · have noName : ∀ name, kind ≠ .identifier name := fun name same => named ⟨name, same⟩
      rw [resolve_leaf noName]
      refine lexical_leaf stands noName (scopedAt_of_plain stands.held ?_)
      cases kind <;> first | rfl | exact absurd rfl (noName _) | cases atom
  | @compound id kind parts compound _ ih =>
    have noName : ∀ name, kind ≠ .identifier name := by rintro name rfl; cases compound
    have noAccess : ∀ s p, kind ≠ .access s p := by rintro s p rfl; cases compound
    have plain : kind.declares = false := by cases kind <;> first | rfl | cases compound
    have quiet : kind.opens = false := by cases kind <;> first | rfl | cases compound
    rw [resolve_compound compound, resolveAll_eq_mapM]
    refine Lexical.node stands noName (scopedAt_of_plain stands.held plain) (lexicalAll_mapM fun s part => ?_)
    refine ih s part (stands.child part) (nodup_of_mem (List.nodup_cons.1 once).2 part) (fun name => ?_)
      (used_below stands.held noAccess _ _)
    rw [visible_below stands.held quiet]
    exact sees name
  | @access id name field source inside ih =>
    have apart : name ≠ source.id := by
      rintro rfl
      simp only [ids, idsOf, List.nodup_cons, List.nodup_append] at once
      exact once.2.2.2 source.id source.id_mem_ids source.id (by simp) rfl
    have member (x : NodeId) : a.isPropertyName x (id :: lineage).head? = (name == x) := by
      rw [List.head?_cons, isPropertyName, Option.bind_some, stands.held]
    have first := ih (stands.child (by simp))
      (nodup_of_mem (List.nodup_cons.1 once).2 (by simp))
      (fun shown => (sees shown).trans (visible_below stands.held rfl _ _ _).symm)
      (by rw [member]; simpa using apart)
    have second : Lexical a (id :: lineage) (node name (.identifier field) [])
        (some (node name (.identifier field) [])) :=
      lexical_member (stands.child (by simp)) (by rw [member]; simp)
    have all : LexicalAll a (id :: lineage) [source, node name (.identifier field) []]
        (List.mapM (fun t : Tree => if t.id = source.id then source.resolve view else some t) _) :=
      lexicalAll_mapM (by simpa [apart] using ⟨first, second⟩)
    have whole := Lexical.node stands (by simp) (scopedAt_of_plain stands.held rfl) all
    rw [resolve]
    cases found : source.resolve view <;> simpa [List.mapM_cons, apart, found] using whole
  | @binding id name value next bound follows valueIH nextIH =>
    have apart : value.id ≠ next.id := by
      intro same
      simp only [ids, idsOf, List.nodup_cons, List.nodup_append] at once
      exact once.2.2.2 value.id value.id_mem_ids next.id (by simp) same
    have first : Lexical a (id :: lineage) value (value.resolve view) := valueIH (stands.child (by simp))
      (nodup_of_mem (List.nodup_cons.1 once).2 (by simp)) (fun shown => by
        rw [visible_cons, opened, stands.held]
        simp [apart, sees]) (used_below stands.held (by simp) _ _)
    have second : Lexical a (id :: lineage) next (next.resolve (view.with [(name, id)])) := nextIH
      (stands.child (by simp)) (nodup_of_mem (List.nodup_cons.1 once).2 (by simp)) (fun shown => by
        rw [visible_cons, opened, stands.held, View.with]
        simp [sees]) (used_below stands.held (by simp) _ _)
    have all : LexicalAll a (id :: lineage) [value, next] (List.mapM (fun t : Tree =>
        if t.id = value.id then value.resolve view else next.resolve (view.with [(name, id)])) _) :=
      lexicalAll_mapM (by simpa [apart.symm] using ⟨first, second⟩)
    have whole := Lexical.node stands (by simp) (scopedAt_of_plain stands.held rfl) all
    rw [resolve]
    cases found : value.resolve view with
    | none => simpa [List.mapM_cons, found] using whole
    | some value' =>
      cases found' : next.resolve (view.with [(name, id)]) <;>
        simpa [List.mapM_cons, apart.symm, found, found'] using whole
  | @function id params body leaves inside ih =>
    exact lexical_function leaves inside stands sees fun sees' used' =>
      ih (stands.child (by simp)) (nodup_of_mem (List.nodup_cons.1 once).2 (by simp)) sees' used'

theorem lexical_single (plain : Resolution.declaration? kind ≠ none) (noTable : ∀ name properties, kind ≠ .definition
    name properties) (stands : (node id kind [s]).StandsIn a) (sees : ∀ name, view name = a.visible name (id ::
    lineage)) (below : (∀ name, view name = a.visible name (s.id :: id :: lineage)) → a.isPropertyName s.id (id ::
    lineage).head? = false → Lexical a (id :: lineage) s (s.resolve view)) : Lexical a lineage (node id kind [s]) ((node
    id kind [s]).resolve view) := by
  have noName : ∀ name, kind ≠ .identifier name := by rintro name rfl; exact plain rfl
  have noAccess : ∀ s p, kind ≠ .access s p := by rintro s p rfl; exact plain rfl
  have declares : kind.declares = false := by
    cases kind <;> first | rfl | exact absurd rfl plain | exact absurd rfl (noTable _ _)
  have quiet : kind.opens = false := by
    cases kind <;> first | rfl | exact absurd rfl plain | exact absurd rfl (noTable _ _)
  have inner := below (fun name => (sees name).trans (visible_below stands.held quiet _ _ _).symm)
    (used_below stands.held noAccess _ _)
  have all : LexicalAll a (id :: lineage) [s] (List.mapM (resolve view) [s]) :=
    lexicalAll_mapM (by simpa using inner)
  have whole := Lexical.node stands noName (scopedAt_of_plain stands.held declares) all
  rw [resolve_single plain]
  cases found : s.resolve view <;> simpa [List.mapM_cons, found] using whole

theorem IsProperty.lexical (property : t.IsProperty) (stands : t.StandsIn a) (once : t.ids.Nodup)
    (sees : ∀ name, view name = a.visible name (t.id :: lineage)) : Lexical a lineage t (t.resolve view) := by
  cases property with
  | column => exact lexical_leaf stands (by simp) (scopedAt_of_plain stands.held rfl)
  | derived inside =>
    refine lexical_single (by simp [Resolution.declaration?]) (by simp) stands sees fun sees' used' => ?_
    exact inside.lexical (stands.child (by simp)) (nodup_of_mem (List.nodup_cons.1 once).2 (by simp)) sees' used'
  | method leaves inside =>
    refine lexical_single (by simp [Resolution.declaration?]) (by simp) stands sees fun sees' used' => ?_
    have function := stands.child (List.mem_singleton.2 rfl)
    have once' := nodup_of_mem (List.nodup_cons.1 once).2 (List.mem_singleton.2 rfl)
    refine lexical_function leaves inside function sees' fun sees'' used'' => ?_
    exact inside.lexical (function.child (by simp)) (nodup_of_mem (List.nodup_cons.1 once').2 (by simp))
      sees'' used''

theorem IsItem.lexical (item : t.IsItem) (stands : t.StandsIn a) (once : t.ids.Nodup)
    (sees : ∀ name, view name = a.visible name (t.id :: lineage)) : Lexical a lineage t (t.resolveItem view) := by
  cases item with
  | @definition id name properties each =>
    have names : a.labels (properties.map Tree.id) = declaredNames properties :=
      labels_declared (fun t part => stands.child part) fun t part => (each t part).declares.1
    change ∀ name, view name = a.visible name (id :: lineage) at sees
    have opens (x : NodeId) : a.opened id x = declaredNames properties := by
      rw [opened, stands.held]
      exact names
    rw [resolveItem]
    split
    · rename_i distinct
      have own : a.ScopedAt id lineage := by
        refine ⟨fun {shown} same => ?_, ?_, fun {_ _} held => ?_, ?_⟩
        · cases (nameAt?_of_other stands.held (by simp)).symm.trans same
        · intros
          rename_i held
          cases stands.held.symm.trans held
        · cases stands.held.symm.trans held
          rwa [names]
        · intros
          rename_i held
          cases stands.held.symm.trans held
      rw [resolveAll_eq_mapM]
      refine Lexical.node stands (by simp) own (lexicalAll_mapM fun s part => ?_)
      refine (each s part).lexical (stands.child part) (nodup_of_mem (List.nodup_cons.1 once).2 part)
        fun shown => ?_
      rw [visible_cons, opens, ← sees]
      rfl
    · rename_i twice
      refine ⟨id, lineage, .here, fun own => twice ?_⟩
      rw [← names]
      exact own.properties stands.held
  | assignment inside =>
    rw [resolveItem]
    · refine lexical_single (by simp [Resolution.declaration?]) (by simp) stands sees fun sees' used' => ?_
      exact inside.lexical (stands.child (by simp)) (nodup_of_mem (List.nodup_cons.1 once).2 (by simp))
        sees' used'
    · simp

theorem IsProgram.lexical (program : t.IsProgram) (stands : t.StandsIn a) (once : t.ids.Nodup) :
    Lexical a [] t t.resolveProgram := by
  cases program with
  | @root id definitions assignments e tables values last =>
    have each : ∀ t ∈ definitions ++ assignments, t.IsItem := List.forall_mem_append.2 ⟨tables, values⟩
    have names : a.labels (definitions.map Tree.id ++ assignments.map Tree.id) =
        declaredNames (definitions ++ assignments ++ [e]) := by
      rw [Resolution.declaredNames_items last, ← List.map_append]
      exact labels_declared (fun t part => stands.child (List.mem_append_left _ part))
        fun t part => (each t part).declares
    have opens (x : NodeId) : a.opened id x = declaredNames (definitions ++ assignments ++ [e]) := by
      rw [opened, stands.held]
      exact names
    rw [resolveProgram]
    split
    · rename_i distinct
      have own : a.ScopedAt id [] := by
        refine ⟨fun {shown} same => ?_, fun {_ _ _} held => ?_, ?_, ?_⟩
        · cases (nameAt?_of_other stands.held (by simp)).symm.trans same
        · cases stands.held.symm.trans held
          rwa [names]
        all_goals
          intros
          rename_i held
          cases stands.held.symm.trans held
      have sees (s : Tree) (shown : String) : View.with (fun _ => none)
          (declaredNames (definitions ++ assignments ++ [e])) shown = a.visible shown [s.id, id] := by
        rw [visible_cons, opens]
        rfl
      refine Lexical.node stands (by simp) own (lexicalAll_mapM fun s part => ?_)
      have once' := nodup_of_mem (List.nodup_cons.1 once).2 part
      obtain item | expression := List.mem_append.1 part
      · exact (each s item).lexical (stands.child part) once' (sees s)
      · obtain rfl := List.mem_singleton.1 expression
        rw [Resolution.resolveItem_expression last]
        exact last.lexical (stands.child part) once' (sees s) (used_below stands.held (by simp) _ _)
    · rename_i twice
      refine ⟨id, [], .here, fun own => twice ?_⟩
      rw [← names]
      exact own.items stands.held

end Tree

namespace Resolution

open Tree Arena

theorem Names.size {a b : Arena} (names : Names a b) : b.size = a.size := by
  apply le_antisymm <;> refine Nat.le_of_not_lt fun below => ?_
  all_goals
    obtain ⟨k, held⟩ := Arena.exists_kind?_of_lt below
    obtain same | ⟨name, target, held', bound⟩ := names _
  · exact lt_irrefl _ (Arena.lt_size_of_kind? (same.symm.trans held))
  · exact lt_irrefl _ (Arena.lt_size_of_kind? held')
  · exact lt_irrefl _ (Arena.lt_size_of_kind? (same.trans held))
  · exact lt_irrefl _ (Arena.lt_size_of_kind? bound)

/-- Names are bound by the rule of lexical scoping, and only where it can be followed everywhere. -/
theorem resolveNames_lexical {program : Program} {c : Compilation}
    (lowered : Compilation.lower program = .ok c) :
    match resolveNames c.root ⟨c.arena, ⟨.initial, ∅⟩⟩ with
    | .ok root w' => root = c.root ∧ w'.arena.size = c.arena.size ∧
        (∀ x above, c.arena.Descends [c.root] (x :: above) → c.arena.ScopedAt x above ∧
          w'.arena.kind? x = c.arena.boundKind? x above ∧ x ∈ w'.notes.result.recorded) ∧
        ∀ x, (∀ above, ¬ c.arena.Descends [c.root] (x :: above)) → w'.arena.kind? x = c.arena.kind? x
    | .error _ _ => ∃ x above, c.arena.Descends [c.root] (x :: above) ∧ ¬ c.arena.ScopedAt x above := by
  obtain ⟨t, lowers, stands, once, root⟩ := Compilation.lower_eq_ok lowered
  have lexical := lowers.isProgram.lexical stands once
  have outcome := resolveNames_program lowers.isProgram stands once
  rw [root]
  cases found : t.resolveProgram with
  | none =>
    rw [found] at lexical outcome
    obtain ⟨e, w', failed⟩ := outcome
    rw [failed]
    exact lexical
  | some t' =>
    rw [found] at lexical outcome
    obtain ⟨w', done, bound⟩ := outcome
    rw [done]
    refine ⟨rfl, bound.names.size, fun x above path => ?_, fun x dead => bound.kept x fun inside => ?_⟩
    · obtain ⟨i, known, -⟩ := bound.entered x (stands.mem_ids path)
      exact ⟨lexical.1 path, lexical.2 bound.stands path, Std.TreeMap.mem_iff_isSome_getElem?.2 (by simp [known])⟩
    · obtain ⟨above, path⟩ := stands.exists_path [] inside
      exact dead above path

/-- `T { m(k: number) = { let k = k + a; return k }, a: number }` -/
def ownValue : Program :=
  ⟨[.definition "T" [
    .method "m" [⟨"k", some (.named "number" false), none⟩]
      (.block none [
        .binding none "k" (.binary none .add (.identifier none "k") (.identifier none "a")),
        .ret none (.identifier none "k")]) none,
    .property "a" (.named "number" false) none] none]⟩

/-- The value of the let reads the parameter and a column that comes later. -/
theorem ownValue_lexical : ∃ c root w', Compilation.lower ownValue = .ok c ∧
    resolveNames c.root ⟨c.arena, ⟨.initial, ∅⟩⟩ = .ok root w' ∧
    ∀ x above, c.arena.Descends [c.root] (x :: above) → w'.arena.kind? x = c.arena.boundKind? x above := by
  obtain ⟨c, lowered, succeeds⟩ : ∃ c, Compilation.lower ownValue = .ok c ∧
      (match resolveNames c.root ⟨c.arena, ⟨.initial, ∅⟩⟩ with
        | .ok _ _ => true
        | .error _ _ => false) = true :=
    except_any (by decide +kernel)
  have lexical := resolveNames_lexical lowered
  split at succeeds
  · rename_i root w' resolved
    rw [resolved] at lexical
    exact ⟨c, root, w', lowered, resolved, fun x above path => (lexical.2.2.1 x above path).2.1⟩
  · cases succeeds

end Resolution

end DerivedTables
