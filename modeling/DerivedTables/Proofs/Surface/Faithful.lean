import DerivedTables.Proofs.Eval.Touching
import DerivedTables.Proofs.Lowering.Program
import DerivedTables.Proofs.Scope.Program
import DerivedTables.Proofs.Scope.Unaliased
import DerivedTables.Proofs.Surface.StraightLine

/-!
Lowering, name resolution and alias removal keep the meaning of straight-line expressions.
-/

namespace DerivedTables

open Tree Alias Bindings

variable {N : Type} {view : View} {aliases more : Aliases} {env : List (String × Value N)}
  {ρ ρ' : Bindings N} {ids : List NodeId}

def Shows (view : View) (aliases : Aliases) (ρ : Bindings N) (env : List (String × Value N))
    (ids : List NodeId) : Prop :=
  ∀ name v, env.lookup name = some v → ∃ id, view name = some id ∧ id ∉ ids ∧
    standsFor aliases id ∉ ids ∧ ρ[standsFor aliases id]? = some v

theorem standsFor_congr {id : NodeId} (same : more[id]? = aliases[id]?) : standsFor more id = standsFor aliases id := by
  rw [standsFor, standsFor, same]

theorem Shows.part {inside : List NodeId} (shows : Shows view aliases ρ env ids) (subset : inside ⊆ ids)
    (off : ∀ x ∉ ids, more[x]? = aliases[x]?) (agree : AgreeOff ids ρ ρ') : Shows view more ρ' env inside := by
  intro name v found
  obtain ⟨id, visible, apart, clear, bound⟩ := shows name v found
  have same := standsFor_congr (off id apart)
  refine ⟨id, visible, fun listed => apart (subset listed), fun listed => clear (subset (same ▸ listed)), ?_⟩
  rw [same, agree _ clear, bound]

theorem Shows.with {inside : List NodeId} {id : NodeId} {name : String} {u : Value N}
    (shows : Shows view aliases ρ env ids) (subset : inside ⊆ ids) (off : ∀ x ∉ ids, more[x]? = aliases[x]?)
    (agree : AgreeOff ids ρ ρ') (apart : id ∉ inside) (clear : standsFor more id ∉ inside)
    (bound : ρ'[standsFor more id]? = some u) : Shows (view.with [(name, id)]) more ρ' ((name, u) :: env) inside := by
  intro shown v found
  rw [Resolution.View.with_cons, Resolution.View.with_nil]
  by_cases same : name = shown
  · subst same
    rw [List.lookup_cons, beq_self_eq_true] at found
    cases found
    exact ⟨id, if_pos rfl, apart, clear, bound⟩
  · have differs : (shown == name) = false := by simpa using Ne.symm same
    rw [List.lookup_cons, differs] at found
    rw [if_neg same]
    exact shows.part subset off agree shown v found

variable {s : Setting N} {id : NodeId} {kind : Kind} {t t₁ : Tree} {ts ts₁ : List Tree} {v : Value N}

structure Ready (s : Setting N) (view : View) (aliases : Aliases) (ρ : Bindings N)
    (env : List (String × Value N)) (t t₁ : Tree) : Prop where
  resolved : t.resolve view = some t₁
  stands : (t₁.unalias aliases).1.StandsIn s.arena
  once : t.ids.Nodup
  fresh : ∀ x ∈ t.ids, aliases[x]? = none
  shows : Shows view aliases ρ env t.ids

structure ReadyAll (s : Setting N) (view : View) (aliases : Aliases) (ρ : Bindings N)
    (env : List (String × Value N)) (ts ts₁ : List Tree) : Prop where
  resolved : resolveAll view ts = some ts₁
  stands : ∀ t ∈ (unaliasAll aliases ts₁).1, t.StandsIn s.arena
  once : (idsOf ts).Nodup
  fresh : ∀ x ∈ idsOf ts, aliases[x]? = none
  shows : Shows view aliases ρ env (idsOf ts)

theorem ReadyAll.cons (ready : ReadyAll s view aliases ρ env (t :: ts) (t₁ :: ts₁)) : Ready
    s view aliases ρ env t t₁ ∧ ∀ ρ', AgreeOff t.ids ρ ρ' → ReadyAll s view (t₁.unalias aliases).2 ρ' env ts ts₁ := by
  obtain ⟨_, here, done⟩ := Option.bind_eq_some_iff.1 ready.resolved
  obtain ⟨_, there, same⟩ := Option.map_eq_some_iff.1 done
  cases same
  obtain ⟨once, once', disjoint⟩ := List.nodup_append.1 ready.once
  have stands := ready.stands
  rw [unaliasAll, List.forall_mem_cons] at stands
  have off : ∀ x ∉ t.ids, (t₁.unalias aliases).2[x]? = aliases[x]? := by
    rw [← (ids_resolve here).2]
    exact unalias_off t₁ aliases
  have first : t.ids ⊆ idsOf (t :: ts) := List.subset_append_left _ _
  have second : idsOf ts ⊆ idsOf (t :: ts) := List.subset_append_right _ _
  refine ⟨⟨here, stands.1, once, fun x inside => ready.fresh x (first inside),
    ready.shows.part first (fun _ _ => rfl) (.refl _ _)⟩, fun ρ' agree =>
    ⟨there, stands.2, once', fun x inside => ?_, ready.shows.part second (fun x outside => ?_)
      (agree.mono first)⟩⟩
  · rw [off x fun here => disjoint x here x inside rfl, ready.fresh x (second inside)]
  · exact off x fun inside => outside (first inside)

theorem length_resolveAll (done : resolveAll view ts = some ts₁) : ts₁.length = ts.length := by
  induction ts generalizing ts₁ with
  | nil =>
    cases done
    rfl
  | cons t rest ih =>
    obtain ⟨_, -, done⟩ := Option.bind_eq_some_iff.1 done
    obtain ⟨rest₁, there, rfl⟩ := Option.map_eq_some_iff.1 done
    exact congrArg (· + 1) (ih there)

theorem Ready.parts (ready : Ready s view aliases ρ env (node id kind ts) t₁) (compound : kind.isCompound = true) : ∃
    ts₁, t₁ = node id kind ts₁ ∧ ReadyAll s view aliases ρ env ts ts₁ ∧ (t₁.unalias aliases).1.id = id ∧ s.arena.kind?
    id = some (kind.withChildren ((unaliasAll aliases ts₁).1.map Tree.id)) := by
  have resolved := ready.resolved
  rw [resolve_compound compound] at resolved
  obtain ⟨ts₁, below, rfl⟩ := Option.map_eq_some_iff.1 resolved
  have noReference : ∀ target shown, kind ≠ .reference target shown := by
    rintro target shown rfl; cases compound
  have noLet : ∀ name value next, kind ≠ .binding name value next := by
    rintro name value next rfl; cases compound
  have stands := ready.stands
  rw [unalias_other noReference noLet] at stands ⊢
  have inside : idsOf ts ⊆ (node id kind ts).ids := List.subset_cons_self ..
  refine ⟨ts₁, rfl, ⟨below, fun t part => stands.child part, (List.nodup_cons.1 ready.once).2,
    fun x listed => ready.fresh x (inside listed),
    ready.shows.part inside (fun _ _ => rfl) (.refl _ _)⟩, rfl, stands.held⟩

theorem choose?_eq_some {test yes no : Option (Value N)} (found : choose? test yes no = some v) :
    ∃ b, test = some (.boolean b) ∧ (if b then yes else no) = some v := by
  unfold choose? at found
  split at found
  · exact ⟨true, rfl, found⟩
  · exact ⟨false, rfl, found⟩
  · cases found

variable [Arithmetic N]

structure Faithful (s : Setting N) (value : List (String × Value N) → Option (Value N)) (t : Tree) :
    Prop where
  expression : t.Expression
  gives : ∀ {view aliases ρ env t₁ v}, Ready s view aliases ρ env t t₁ → value env = some v →
    s.Gives t.ids ρ (t₁.unalias aliases).1.id v
  named : ∀ {view env t₁ v}, t.resolve view = some t₁ → value env = some v →
    ∀ {target shown}, t₁.kind = .reference target shown →
      ∃ name, view name = some target ∧ env.lookup name = some v

def Kind.literalValue? : Kind → Option (Value N)
  | .string value => some (.string value)
  | .number value => some (.number (Arithmetic.literal value))
  | .boolean value => some (.boolean value)
  | .null => some .null
  | _ => none

theorem faithful_literal {value : Value N} (literal : kind.literalValue? = some value) :
    Faithful s (fun _ => some value) (node id kind []) := by
  cases kind <;> cases literal
  all_goals
    refine ⟨.atom rfl, fun {_ _ _ _ _ _} ready found => ?_, fun {_ _ _ _} resolved _ {_ _} same => ?_⟩
    · cases found
      have held := ready.stands.kind
      cases ready.resolved
      refine .leaf ?_
      simp only [Setting.evalWithin, Setting.kind_of_kind? held]
      rfl
    · cases resolved
      cases same

theorem faithful_identifier {name : String} : Faithful s (·.lookup name) (node id (.identifier name) []) := by
  refine ⟨.atom rfl, fun {view aliases ρ env t₁ v} ready found => ?_, fun {view env t₁ v} resolved found {_ _} same => ?_⟩
  · obtain ⟨target, visible, -, -, bound⟩ := ready.shows name v found
    have held := ready.stands.kind
    have resolved := ready.resolved
    rw [resolve, visible] at resolved
    cases resolved
    rw [unalias, kind_node, target_follow] at held
    exact .reference held bound
  · obtain ⟨target, visible, rfl⟩ := Option.map_eq_some_iff.1 resolved
    cases same
    exact ⟨name, visible, found⟩

theorem named_compound {P : Prop} (compound : kind.isCompound = true)
    (resolved : (node id kind ts).resolve view = some t₁) {target : NodeId} {shown : String}
    (same : t₁.kind = .reference target shown) : P := by
  rw [resolve_compound compound] at resolved
  obtain ⟨ts₁, -, rfl⟩ := Option.map_eq_some_iff.1 resolved
  cases same
  cases compound

theorem Operator.value?_cases {op : Operator} {u : Value N} {w : Option (Value N)} (found : op.value? u w = some v) :
    (∃ b, u = .boolean b ∧ v = .boolean b ∧ (op = .and ∧ b = false ∨ op = .or ∧ b = true)) ∨ ∃ x, w = some x ∧
    op.combine? u x = some v := by
  unfold value? at found
  split at found
  · cases found
    exact .inl ⟨false, rfl, rfl, .inl ⟨rfl, rfl⟩⟩
  · cases found
    exact .inl ⟨true, rfl, rfl, .inr ⟨rfl, rfl⟩⟩
  · exact .inr (Option.bind_eq_some_iff.1 found)

section Compound

variable {first second third : List (String × Value N) → Option (Value N)}

theorem faithful_binary {op : Operator} {l r : Tree} (lhs : Faithful s first l) (rhs : Faithful s second r) : Faithful s
    (fun env => (first env).bind fun u => op.value? u (second env)) (node id (.binary op l.id r.id) [l, r]) := by
  refine ⟨.compound rfl (by simp [lhs.expression, rhs.expression]),
    fun {view aliases ρ env t₁ v} ready found => ?_,
    fun {_ _ _ _} resolved _ {_ _} => named_compound rfl resolved⟩
  obtain ⟨u, lvalue, found⟩ := Option.bind_eq_some_iff.1 found
  obtain ⟨ts₁, rfl, readyAll, whole, held⟩ := ready.parts rfl
  obtain ⟨l₁, r₁, rfl⟩ := List.length_eq_two.1 (length_resolveAll readyAll.resolved)
  obtain ⟨lready, further⟩ := readyAll.cons
  have left := lhs.gives lready lvalue
  rw [whole]
  obtain ⟨b, rfl, rfl, decides⟩ | ⟨x, rvalue, combined⟩ := Operator.value?_cases found
  · exact (Setting.Gives.decided held left decides).mono (by simp [Tree.ids, idsOf])
  · have right (ρ₁ : Bindings N) (agree : AgreeOff l.ids ρ ρ₁) : s.Gives r.ids ρ₁ _ x :=
      rhs.gives (further ρ₁ agree).cons.1 rvalue
    exact (Setting.Gives.binary held left right combined).mono (by simp [Tree.ids, idsOf])

theorem faithful_conditional {c y n : Tree} (test : Faithful s first c) (hit : Faithful s second y)
    (miss : Faithful s third n) : Faithful s (fun env => choose? (first env) (second env) (third env))
    (node id (.conditional c.id y.id n.id) [c, y, n]) := by
  refine ⟨.compound rfl (by simp [test.expression, hit.expression, miss.expression]),
    fun {view aliases ρ env t₁ v} ready found => ?_,
    fun {_ _ _ _} resolved _ {_ _} => named_compound rfl resolved⟩
  obtain ⟨b, tested, found⟩ := choose?_eq_some found
  obtain ⟨ts₁, rfl, readyAll, whole, held⟩ := ready.parts rfl
  obtain ⟨c₁, y₁, n₁, rfl⟩ := List.length_eq_three.1 (length_resolveAll readyAll.resolved)
  obtain ⟨cready, further⟩ := readyAll.cons
  have branch (ρ₁ : Bindings N) (agree : AgreeOff c.ids ρ ρ₁) :
      s.Gives (y.ids ++ n.ids) ρ₁ (if b then (y₁.unalias (c₁.unalias aliases).2).1.id
        else (n₁.unalias (y₁.unalias (c₁.unalias aliases).2).2).1.id) v := by
    obtain ⟨yready, beyond⟩ := (further ρ₁ agree).cons
    cases b with
    | true => exact (hit.gives yready found).mono (List.subset_append_left _ _)
    | false =>
      have nready := (beyond ρ₁ (.refl _ _)).cons.1
      exact (miss.gives nready found).mono (List.subset_append_right _ _)
  rw [whole]
  exact (Setting.Gives.conditional held (test.gives cready tested) branch).mono (by simp [Tree.ids, idsOf])

theorem faithful_effect {e next : Tree} (ignored : Faithful s first e) (follows : Faithful s second next) :
    Faithful s (fun env => (first env).bind fun _ => second env) (node id (.effect e.id next.id) [e, next]) := by
  refine ⟨.compound rfl (by simp [ignored.expression, follows.expression]),
    fun {view aliases ρ env t₁ v} ready found => ?_,
    fun {_ _ _ _} resolved _ {_ _} => named_compound rfl resolved⟩
  obtain ⟨u, dropped, found⟩ := Option.bind_eq_some_iff.1 found
  obtain ⟨ts₁, rfl, readyAll, whole, held⟩ := ready.parts rfl
  obtain ⟨e₁, next₁, rfl⟩ := List.length_eq_two.1 (length_resolveAll readyAll.resolved)
  obtain ⟨eready, further⟩ := readyAll.cons
  have after (ρ₁ : Bindings N) (agree : AgreeOff e.ids ρ ρ₁) : s.Gives next.ids ρ₁ _ v :=
    follows.gives (further ρ₁ agree).cons.1 found
  rw [whole]
  exact (Setting.Gives.effect held (ignored.gives eready dropped) after).mono (by simp [Tree.ids, idsOf])

theorem faithful_access {name : NodeId} {property : String} {o : Tree} (object : Faithful s first o) : Faithful s
    (fun env => field? (first env) property)
    (node id (.access o.id name) [o, node name (.identifier property) []]) := by
  refine ⟨.access object.expression, fun {view aliases ρ env t₁ v} ready found => ?_,
    fun {_ _ _ _} resolved _ {_ _} same => ?_⟩
  · unfold field? at found
    split at found
    · rename_i fields value
      obtain ⟨o₁, below, rfl⟩ := Option.map_eq_some_iff.1 ready.resolved
      have stands := ready.stands
      rw [unalias_other (by simp) (by simp)] at stands ⊢
      have oready : Ready s view aliases ρ env o o₁ := by
        have inside : o.ids ⊆ (node id (.access o.id name) [o, node name (.identifier property) []]).ids := by
          simp [Tree.ids, idsOf]
        refine ⟨below, stands.child (by simp [unaliasAll]), ?_, fun x listed => ready.fresh x (inside listed),
          ready.shows.part inside (fun _ _ => rfl) (.refl _ _)⟩
        exact nodup_of_mem (List.nodup_cons.1 ready.once).2 (by simp)
      have member := (stands.child (s := node name (.identifier property) []) (by
        simp [unaliasAll, unalias, Kind.withChildren])).held
      exact (Setting.Gives.access stands.held member (object.gives oready value) found).mono
        (by simp [Tree.ids, idsOf])
    · cases found
  · obtain ⟨o₁, -, rfl⟩ := Option.map_eq_some_iff.1 resolved
    cases same

theorem faithful_binding {name : String} {value next : Tree} (bound : Faithful s first value)
    (follows : Faithful s second next) : Faithful s (fun env => (first env).bind fun u => second ((name, u) :: env))
    (node id (.binding name value.id next.id) [value, next]) := by
  refine ⟨.binding bound.expression follows.expression, fun {view aliases ρ env t₁ v} ready found => ?_,
    fun {_ _ _ _} resolved _ {_ _} same => ?_⟩
  · obtain ⟨u, given, found⟩ := Option.bind_eq_some_iff.1 found
    obtain ⟨value₁, here, done⟩ := Option.bind_eq_some_iff.1 ready.resolved
    obtain ⟨next₁, there, rfl⟩ := Option.map_eq_some_iff.1 done
    obtain ⟨new, once⟩ := List.nodup_cons.1 ready.once
    obtain ⟨once_value, once_next, disjoint⟩ := List.nodup_append.1 once
    rw [idsOf_singleton] at once_next disjoint
    have inValue : value.ids ⊆ (node id (.binding name value.id next.id) [value, next]).ids := by
      simp [Tree.ids, idsOf]
    have inNext : next.ids ⊆ (node id (.binding name value.id next.id) [value, next]).ids := by
      simp [Tree.ids, idsOf]
    have apart : id ∉ next.ids := fun inside => new (by simp [idsOf, inside])
    by_cases renames : ∃ target shown, value₁.kind = .reference target shown
    · obtain ⟨target, shown, same⟩ := renames
      obtain ⟨y, visible, known⟩ := bound.named here given same
      obtain ⟨_, visible', -, clear, held⟩ := ready.shows y u known
      obtain rfl := Option.some_injective _ (visible.symm.trans visible')
      have whole : (node id (.binding name value.id next.id) [value₁, next₁]).unalias aliases =
          next₁.unalias (aliases.insert id (follow aliases target shown)) := by
        rw [unalias, same]
      have stood : standsFor (aliases.insert id (follow aliases target shown)) id =
          standsFor aliases target := by
        rw [← target_follow aliases target shown, standsFor]
        simp
      have off : ∀ x ≠ id, (aliases.insert id (follow aliases target shown))[x]? = aliases[x]? := by
        intro x other
        rw [Std.TreeMap.getElem?_insert, if_neg]
        simpa using Ne.symm other
      have stands := ready.stands
      rw [whole] at stands ⊢
      refine (follows.gives ⟨there, stands, once_next, fun x inside => ?_, ?_⟩ found).mono inNext
      · rw [off x fun same => apart (same ▸ inside), ready.fresh x (inNext inside)]
      · refine ready.shows.with inNext (fun x outside => off x ?_) (.refl _ _) apart ?_ ?_
        · rintro rfl
          exact outside (by simp [Tree.ids])
        · exact stood ▸ fun inside => clear (inNext inside)
        · exact stood ▸ held
    · have stands := ready.stands
      rw [unalias_binding fun target shown same => renames ⟨target, shown, same⟩] at stands ⊢
      have off : ∀ x ∉ value.ids, (value₁.unalias aliases).2[x]? = aliases[x]? := by
        rw [← (ids_resolve here).2]
        exact unalias_off value₁ aliases
      have vready : Ready s view aliases ρ env value value₁ :=
        ⟨here, stands.child (by simp [unaliasAll]), once_value, fun x inside => ready.fresh x (inValue inside),
          ready.shows.part inValue (fun _ _ => rfl) (.refl _ _)⟩
      have kept : (value₁.unalias aliases).2[id]? = none := by
        rw [off id fun inside => new (by simp [idsOf, inside]), ready.fresh id (by simp [Tree.ids])]
      have stood : standsFor (value₁.unalias aliases).2 id = id := by simp [standsFor, kept]
      have after (ρ₁ : Bindings N) (agree : AgreeOff value.ids ρ ρ₁) :
          s.Gives next.ids (ρ₁.insert id u) (next₁.unalias (value₁.unalias aliases).2).1.id v := by
        refine follows.gives ⟨there, stands.child (by simp [unaliasAll]), once_next, fun x inside => ?_, ?_⟩ found
        · rw [off x fun other => disjoint x other x inside rfl, ready.fresh x (inNext inside)]
        · refine ready.shows.with inNext (fun x outside => off x fun inside => outside (inValue inside))
            ((agree.mono inValue).trans (.insert ρ₁ u (by simp [Tree.ids]))) apart (by rwa [stood]) ?_
          rw [stood]
          simp
      exact (Setting.Gives.binding stands.held (bound.gives vready given) after).mono
        (by simp [Tree.ids, idsOf])
  · obtain ⟨value₁, -, done⟩ := Option.bind_eq_some_iff.1 resolved
    obtain ⟨next₁, -, rfl⟩ := Option.map_eq_some_iff.1 done
    cases same

end Compound

theorem Faithful.congr {value value' : List (String × Value N) → Option (Value N)}
    (faithful : Faithful s value t) (same : ∀ env, value' env = value env) : Faithful s value' t :=
  funext same ▸ faithful

theorem faithful_none {value : List (String × Value N) → Option (Value N)} (expression : t.Expression)
    (none : ∀ env, value env = none) : Faithful s value t where
  expression := expression
  gives {_ _ _ env _ _} _ found := by cases (none env).symm.trans found
  named {_ env _ _} _ found := by cases (none env).symm.trans found

/-- Along the recursion of lowering: expressions, blocks. -/
theorem lowering_faithful (s : Setting N) : (∀ (e : Expr) {t}, e.Lowers t → Faithful s e.value? t) ∧
    (∀ es {t}, BlockLowers es t → Faithful s (blockValue? · es) t) ∧ ∀ _ : List Expr, True := by
  refine Lowering.lowerExpr.mutual_induct _ _ _ ?string ?number ?boolean ?identifier ?context ?binary
    ?member ?lambda ?call ?ifThen ?ifElse ?binding ?block ?ret ?rows ?paren ?nil ?last ?early ?letThen
    ?ifThenThen ?ifElseThen ?effectThen ?none ?more
  case string | number | boolean =>
    intro span value t lowers
    rw [Expr.Lowers] at lowers
    obtain ⟨id, rfl⟩ := lowers
    exact (faithful_literal rfl).congr fun env => by rw [Expr.value?]
  case identifier =>
    intro span name t lowers
    rw [Expr.Lowers] at lowers
    obtain ⟨id, rfl⟩ := lowers
    exact faithful_identifier.congr fun env => by rw [Expr.value?]
  case context | lambda | call | binding | ret | rows =>
    intros
    rename_i lowers
    exact faithful_none (lowers_expression.1 _ lowers) fun env => by rw [Expr.value?] <;> simp
  case binary =>
    intro span op lhs rhs left right t lowers
    rw [Expr.Lowers] at lowers
    obtain ⟨id, l, r, lhs, rhs, rfl⟩ := lowers
    exact (faithful_binary (left lhs) (right rhs)).congr fun env => by rw [Expr.value?]
  case member =>
    intro span object property inside t lowers
    rw [Expr.Lowers] at lowers
    obtain ⟨id, name, o, lowers, rfl⟩ := lowers
    exact (faithful_access (inside lowers)).congr fun env => by rw [Expr.value?]
  case ifThen =>
    intro span condition thenBranch test hit t lowers
    rw [Expr.Lowers] at lowers
    obtain ⟨id, c, y, n, tested, taken, rfl⟩ := lowers
    have ends : Faithful s (fun _ => some .null) (node n .null []) := faithful_literal rfl
    exact (faithful_conditional (test tested) (hit taken) ends).congr fun env => by rw [Expr.value?]
  case ifElse =>
    intro span condition thenBranch elseBranch test hit miss t lowers
    rw [Expr.Lowers] at lowers
    obtain ⟨id, c, y, n, tested, taken, passed, rfl⟩ := lowers
    exact (faithful_conditional (test tested) (hit taken) (miss passed)).congr fun env => by
      rw [Expr.value?]
  case block | paren =>
    intro span inner inside t lowers
    rw [Expr.Lowers] at lowers
    exact (inside lowers).congr fun env => by rw [Expr.value?]
  case nil =>
    intro t lowers
    rw [BlockLowers] at lowers
    obtain ⟨id, rfl⟩ := lowers
    exact (faithful_literal rfl).congr fun env => by rw [blockValue?]
  case last =>
    intro span value inside t lowers
    rw [BlockLowers] at lowers
    exact (inside lowers).congr fun env => by rw [blockValue?]
  case early =>
    intro span value rest more _ t lowers
    rw [BlockLowers] at lowers
    · cases lowers
    · exact more
  case letThen =>
    intro span name value rest after inside t lowers
    rw [BlockLowers] at lowers
    obtain ⟨id, v, next, lowers, follows, -, rfl⟩ := lowers
    exact (faithful_binding (inside lowers) (after follows)).congr fun env => by rw [blockValue?]
  case ifThenThen =>
    intro span condition thenBranch rest after test hit t lowers
    rw [BlockLowers] at lowers
    obtain ⟨id, c, y, next, tested, taken, follows, rfl⟩ := lowers
    exact (faithful_conditional (test tested) (hit taken) (after follows)).congr fun env => by
      rw [blockValue?]
  case ifElseThen =>
    intro span condition thenBranch elseBranch rest _ _ _ _ t lowers
    exact faithful_none (lowers_expression.2.1 _ lowers) fun env => by rw [blockValue?]
  case effectThen =>
    intro expr rest _ noReturn noLet noIf noIfElse after inside t lowers
    rw [BlockLowers] at lowers
    · obtain ⟨id, e, next, lowers, follows, rfl⟩ := lowers
      refine (faithful_effect (inside lowers) (after follows)).congr fun env => ?_
      rw [blockValue?]
      all_goals assumption
    all_goals assumption
  case none | more =>
    intros
    trivial

end DerivedTables
