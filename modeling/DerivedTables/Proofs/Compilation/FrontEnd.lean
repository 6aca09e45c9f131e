import DerivedTables.Compilation.Compile
import DerivedTables.Proofs.Surface.Faithful
import DerivedTables.Tree.Item

/-!
What a program has become when its names are bound.
-/

namespace DerivedTables

open Tree Alias Bindings Lowering

theorem Pass.placed_eq_ok {ε ω α : Type} {pass : Pass ε ω α} {a : Arena} {notes : ω} {place : ε → Arena → CompileError}
    {x : α} {w : Workspace ω} : pass.placed a notes place = .ok (x, w) ↔ pass ⟨a, notes⟩ = .ok x w := by
  unfold Pass.placed EStateM.run
  cases pass ⟨a, notes⟩ <;> simp

theorem Pass.placed_eq_error {ε ω α : Type} {pass : Pass ε ω α} {a : Arena} {notes : ω}
    {place : ε → Arena → CompileError} {e : CompileError} (failed : pass.placed a notes place = .error e) :
    ∃ err w, pass ⟨a, notes⟩ = .error err w ∧ e = place err w.arena := by
  unfold Pass.placed EStateM.run at failed
  cases ran : pass ⟨a, notes⟩ with
  | ok x w =>
    rw [ran] at failed
    cases failed
  | error err w =>
    rw [ran] at failed
    cases failed
    exact ⟨err, w, rfl, rfl⟩

/-- Along the recursion of lowering: every name that is used is visible. -/
theorem resolve_straightLine :
    (∀ (e : Expr) {scope}, e.isStraightLine scope = true → ∀ {t}, e.Lowers t → ∀ {view : View},
      (∀ name ∈ scope, (view name).isSome) → (t.resolve view).isSome) ∧
    (∀ es {scope}, blockIsStraightLine scope es = true → ∀ {t}, BlockLowers es t → ∀ {view : View},
      (∀ name ∈ scope, (view name).isSome) → (t.resolve view).isSome) ∧ ∀ _ : List Expr, True := by
  refine lowerExpr.mutual_induct _ _ _ ?string ?number ?boolean ?identifier ?context ?binary ?member
    ?lambda ?call ?ifThen ?ifElse ?binding ?block ?ret ?rows ?paren ?nil ?last ?early ?letThen
    ?ifThenThen ?ifElseThen ?effectThen ?none ?more
  case string | number | boolean =>
    intro span value scope _ t lowers view _
    rw [Expr.Lowers] at lowers
    obtain ⟨id, rfl⟩ := lowers
    rfl
  case identifier =>
    intro span name scope straight t lowers view visible
    rw [Expr.Lowers] at lowers
    obtain ⟨id, rfl⟩ := lowers
    rw [Expr.isStraightLine, List.contains_iff_mem] at straight
    rw [resolve, Option.isSome_map]
    exact visible name straight
  case context | lambda | call | binding | ret | rows =>
    intros
    rename_i straight _ _ _ _
    simp [Expr.isStraightLine] at straight
  case binary =>
    intro span op lhs rhs left right scope straight t lowers view visible
    rw [Expr.isStraightLine, Bool.and_eq_true] at straight
    rw [Expr.Lowers] at lowers
    obtain ⟨id, l, r, lhs, rhs, rfl⟩ := lowers
    rw [resolve_compound rfl, Option.isSome_map]
    exact resolveAll_isSome (by simp [left straight.1 lhs visible, right straight.2 rhs visible])
  case member =>
    intro span object property inside scope straight t lowers view visible
    rw [Expr.isStraightLine] at straight
    rw [Expr.Lowers] at lowers
    obtain ⟨id, name, o, lowers, rfl⟩ := lowers
    rw [resolve, Option.isSome_map]
    exact inside straight lowers visible
  case ifThen =>
    intro span condition thenBranch test hit scope straight t lowers view visible
    rw [Expr.isStraightLine, Bool.and_eq_true] at straight
    rw [Expr.Lowers] at lowers
    obtain ⟨id, c, y, n, tested, taken, rfl⟩ := lowers
    rw [resolve_compound rfl, Option.isSome_map]
    exact resolveAll_isSome (by simp [test straight.1 tested visible, hit straight.2 taken visible]; rfl)
  case ifElse =>
    intro span condition thenBranch elseBranch test hit miss scope straight t lowers view visible
    rw [Expr.isStraightLine, Bool.and_eq_true, Bool.and_eq_true] at straight
    rw [Expr.Lowers] at lowers
    obtain ⟨id, c, y, n, tested, taken, passed, rfl⟩ := lowers
    rw [resolve_compound rfl, Option.isSome_map]
    exact resolveAll_isSome (by simp [test straight.1.1 tested visible, hit straight.1.2 taken visible,
      miss straight.2 passed visible])
  case block | paren =>
    intro span inner inside scope straight t lowers view visible
    rw [Expr.isStraightLine] at straight
    rw [Expr.Lowers] at lowers
    exact inside straight lowers visible
  case nil =>
    intro scope _ t lowers view _
    rw [BlockLowers] at lowers
    obtain ⟨id, rfl⟩ := lowers
    rfl
  case last =>
    intro span value inside scope straight t lowers view visible
    rw [blockIsStraightLine] at straight
    rw [BlockLowers] at lowers
    exact inside straight lowers visible
  case early =>
    intro span value rest more _ scope straight t lowers
    rw [BlockLowers] at lowers
    · cases lowers
    · exact more
  case letThen =>
    intro span name value rest after inside scope straight t lowers view visible
    rw [blockIsStraightLine, Bool.and_eq_true] at straight
    rw [BlockLowers] at lowers
    obtain ⟨id, v, next, lowers, follows, -, rfl⟩ := lowers
    obtain ⟨v₁, bound⟩ := Option.isSome_iff_exists.1 (inside straight.1 lowers visible)
    rw [resolve, bound, Option.bind_some, Option.isSome_map]
    refine after straight.2 follows (List.forall_mem_cons.2 ⟨?_, fun shown known => ?_⟩)
    · rw [Resolution.View.with_cons, if_pos rfl]
      rfl
    · rw [Resolution.View.with_cons]
      split
      · rfl
      · exact visible shown known
  case ifThenThen =>
    intro span condition thenBranch rest after test hit scope straight t lowers view visible
    rw [blockIsStraightLine, Bool.and_eq_true, Bool.and_eq_true] at straight
    rw [BlockLowers] at lowers
    obtain ⟨id, c, y, next, tested, taken, follows, rfl⟩ := lowers
    rw [resolve_compound rfl, Option.isSome_map]
    exact resolveAll_isSome (by simp [test straight.1.1 tested visible, hit straight.1.2 taken visible,
      after straight.2 follows visible])
  case ifElseThen =>
    intro span condition thenBranch elseBranch rest _ _ _ _ scope straight
    cases straight
  case effectThen =>
    intro expr rest _ noReturn noLet noIf noIfElse after inside scope straight t lowers view visible
    rw [blockIsStraightLine, Bool.and_eq_true] at straight
    · rw [BlockLowers] at lowers
      · obtain ⟨id, e, next, lowers, follows, rfl⟩ := lowers
        rw [resolve_compound rfl, Option.isSome_map]
        exact resolveAll_isSome (by simp [inside straight.1 lowers visible, after straight.2 follows visible])
      all_goals assumption
    all_goals assumption
  case none | more =>
    intros
    trivial

namespace Compilation

variable {program : Program} {c c' : Compilation} {t t' : Tree}

structure Binds (c : Compilation) (t : Tree) : Prop where
  root : c.root = (t.unalias ∅).1.id
  stands : (t.unalias ∅).1.StandsIn c.arena
  once : (t.unalias ∅).1.ids.Nodup

theorem resolve_program (shape : t.IsProgram) (stands : t.StandsIn c.arena) (once : t.ids.Nodup)
    (root : c.root = t.id) :
    match t.resolveProgram with
    | some t' => ∃ c', c.resolve = .ok c' ∧ c'.Binds t'
    | none => ∃ e, c.resolve = .error e := by
  have outcome := Resolution.resolveNames_program shape stands once
  rw [← root] at outcome
  cases resolved : t.resolveProgram with
  | none =>
    rw [resolved] at outcome
    obtain ⟨e, w', failed⟩ := outcome
    refine ⟨scopeError e w'.arena, ?_⟩
    simp only [resolve, Pass.placed, EStateM.run, failed]
    rfl
  | some t' =>
    rw [resolved] at outcome
    obtain ⟨w', found, bound⟩ := outcome
    have same : c.root = t'.id := root.trans bound.same.1.symm
    obtain ⟨b, removed, rewritten⟩ := removeAll_run (w := ⟨w'.arena, ∅⟩) bound.stands (bound.same.2 ▸ once)
    rw [← same] at removed
    refine ⟨⟨b, (t'.unalias ∅).1.id, w'.notes.result, .resolved, c.typePasses, c.rows, c.storage⟩, ?_,
      rfl, rewritten.stands, rewritten.once⟩
    simp only [resolve, Pass.placed, EStateM.run, found]
    simp only [bind, Except.bind, removed]
    rfl

theorem lower_eq_ok (done : lower program = .ok c) :
    ∃ t, program.Lowers t ∧ t.StandsIn c.arena ∧ t.ids.Nodup ∧ c.root = t.id := by
  obtain ⟨⟨_, w⟩, placed, same⟩ := except_bind_eq_ok.1 done
  cases same
  obtain ⟨t, rfl, grown, lowers⟩ := (lowerProgram_judged program _).run (Pass.placed_eq_ok.1 placed)
  exact ⟨t, lowers, grown.stands, grown.once, rfl⟩

end Compilation

section Function

variable {f : String} {params : List Param} {body : Expr} {span span' : Option Span} {ps : List Tree}

theorem lower_function {scope : List String} (straight : body.isStraightLine scope = true) :
    ∃ c, Compilation.lower ⟨[.assignment f (.lambda span params body) span']⟩ = .ok c := by
  have sound (fault : TreeError) : ¬ Program.Violates ⟨[.assignment f (.lambda span params body) span']⟩ fault := by
    rintro (⟨_, listed, violates⟩ | violates)
    · obtain rfl := List.mem_singleton.1 listed
      obtain ⟨part, inside, here⟩ := (Expr.violates_iff rfl rfl).1 violates
      obtain rfl : part = body := List.mem_singleton.1 inside
      cases straight.symm.trans (here.not_straightLine scope).1
    · exact Expr.not_violates_empty violates
  obtain ⟨r, w, lowered⟩ := (lowerProgram_judged _ ⟨.empty, 0⟩).accepts.1.2 sound
  refine ⟨⟨w.arena, r, .initial, .lowered, none, none, none⟩, ?_⟩
  simp only [Compilation.lower, Pass.placed, EStateM.run, lowered]
  rfl

theorem ParamsLower.paramNames (lowers : ParamsLower params ps) :
    Tree.paramNames ps = (params.map Param.name).zip (ps.map Tree.id) := by
  induction lowers with
  | nil => rfl
  | cons here _ ih =>
    obtain ⟨id, rfl⟩ := here
    rw [Tree.paramNames, List.filterMap_cons, ← Tree.paramNames, ih]
    rfl

def functionTree (f : String) (r a g e : NodeId) (ps : List Tree) (b : Tree) : Tree :=
  node r (.root [] [a] e) [node a (.assignment f g)
    [node g (.function none (ps.map Tree.id) b.id) (ps ++ [b])], node e .null []]

theorem lowers_function {t : Tree} (lowers : Program.Lowers ⟨[.assignment f (.lambda span params body) span']⟩ t) : ∃ r
    a g e ps b, ParamsLower params ps ∧ body.Lowers b ∧ t = functionTree f r a g e ps b := by
  obtain ⟨r, _, _, _, _, ⟨a, _, _, value, ⟨rfl, rfl, rfl⟩, rfl⟩, last, rfl⟩ := lowers
  rw [Expr.Lowers] at value
  obtain ⟨g, ps, b, leaves, inside, rfl⟩ := value
  rw [BlockLowers] at last
  obtain ⟨e, rfl⟩ := last
  exact ⟨r, a, g, e, ps, b, leaves, inside, rfl⟩

theorem resolve_functionTree {r a g e : NodeId} {b : Tree} (leaves : ∀ t ∈ ps, t.IsParam) (inside : b.Expression)
    (distinct : ((paramNames ps).map Prod.fst).Nodup) : (functionTree f r a g e ps b).resolveProgram =
    (b.resolve ((View.with (fun _ => none) [(f, a)]).with (paramNames ps))).map (functionTree f r a g e ps) := by
  have names : declaredNames [node a (.assignment f g) [node g (.function none (ps.map Tree.id) b.id)
      (ps ++ [b])], node e .null []] = [(f, a)] := rfl
  rw [functionTree, resolveProgram, names, if_pos (by simp), List.mapM_cons, resolveItem,
    resolve_single (by simp [Resolution.declaration?]), resolve_function leaves inside,
    if_pos distinct]
  · cases found : b.resolve ((View.with (fun _ => none) [(f, a)]).with (paramNames ps)) with
    | none => rfl
    | some b' =>
      rw [← (ids_resolve found).1]
      rfl
  all_goals simp

theorem unalias_functionTree {r a g e : NodeId} {b : Tree} {aliases : Aliases} (leaves : ∀ t ∈ ps, t.IsParam) :
    ((functionTree f r a g e ps b).unalias aliases).1 = functionTree f r a g e ps (b.unalias aliases).1 := by
  simp [functionTree, unalias, unaliasAll, unaliasAll_params leaves, Kind.withChildren]

variable {N : Type}

theorem shows_params {names : List String} {ids : List NodeId} {vs : List (Value N)} (view : View)
    (ρ : Bindings N) (once : ids.Nodup) (fits : ids.length = vs.length) {name : String} {v : Value N}
    (found : (names.zip vs).lookup name = some v) :
    ∃ id ∈ ids, view.with (names.zip ids) name = some id ∧ (Setting.bound ids vs ρ)[id]? = some v := by
  induction names generalizing ids vs ρ with
  | nil => cases found
  | cons first rest ih =>
    cases vs with
    | nil => cases found
    | cons u vs =>
      cases ids with
      | nil => cases fits
      | cons x ids =>
        obtain ⟨apart, once⟩ := List.nodup_cons.1 once
        rw [List.zip_cons_cons, Resolution.View.with_cons]
        by_cases same : first = name
        · subst same
          rw [List.zip_cons_cons, List.lookup_cons, beq_self_eq_true] at found
          cases found
          refine ⟨x, List.mem_cons_self .., if_pos rfl, ?_⟩
          rw [Setting.bound, Setting.bound_of_not_mem apart]
          simp
        · have differs : (name == first) = false := by simpa using Ne.symm same
          rw [List.zip_cons_cons, List.lookup_cons, differs] at found
          rw [if_neg same]
          obtain ⟨id, listed, visible, held⟩ := ih (ρ.insert x u) once (Nat.succ.inj fits) found
          exact ⟨id, List.mem_cons_of_mem _ listed, visible, held⟩

variable [Arithmetic N]

theorem Setting.Calls.of_gives {s : Setting N} {a g b : NodeId} {ids inside : List NodeId}
    {vs : List (Value N)} {v : Value N} (assigned : s.arena.kind? a = some (.assignment f g))
    (function : s.arena.kind? g = some (.function none ids b)) (fits : ids.length = vs.length)
    (gives : s.Gives inside (bound ids vs ∅) b v) : s.Calls a vs v := by
  obtain ⟨depth, ρ', -, done⟩ := gives.run
  refine ⟨depth + 3, ρ', ?_⟩
  have done := done (depth + 2) (Nat.le_add_right _ _)
  simp only [callWithin, calleeWithin, kind_of_kind? assigned, kind_of_kind? function, pure_bind, fits,
    ne_eq, not_true_eq_false, if_false]
  exact (bind_of_ok (bindAll ids vs ∅)).trans done

theorem functionTree_calls {r a g e : NodeId} {b b' : Tree} {value : List (String × Value N) → Option (Value N)}
    {vs : List (Value N)} {v : Value N} {c : Compilation} {context : List (String × Value N)}
    (faithful : Faithful ⟨c.arena, context⟩ value b) (leaves : ParamsLower params ps)
    (once : (functionTree f r a g e ps b).ids.Nodup)
    (resolved : b.resolve ((View.with (fun _ => none) [(f, a)]).with (paramNames ps)) = some b')
    (binds : c.Binds (functionTree f r a g e ps b')) (fits : params.length = vs.length)
    (means : value ((params.map Param.name).zip vs) = some v) : c.arena.kind? c.root = some (.root [] [a] e) ∧
    c.arena.isAssignmentOf f a = true ∧ (Setting.mk c.arena context).Calls a vs v := by
  have count : (ps.map Tree.id).length = vs.length := by
    rw [List.length_map, ← fits, List.Forall₂.length_eq leaves]
  obtain ⟨root, stands, -⟩ := binds
  rw [unalias_functionTree leaves.isParam] at root stands
  have assigned := stands.child (.head _)
  have function := assigned.child (.head _)
  have body : (b'.unalias ∅).1.StandsIn c.arena := function.child (by simp)
  refine ⟨root ▸ stands.held, by simp [Arena.isAssignmentOf, assigned.held], ?_⟩
  simp only [functionTree, Tree.ids, idsOf, idsOf_append, List.nodup_cons, List.nodup_append] at once
  obtain ⟨-, ⟨-, ⟨⟨-, onceParams, onceBody, disjoint⟩, -⟩⟩, -⟩ := once
  refine .of_gives assigned.held function.held count
    (faithful.gives ⟨resolved, body, ?_, fun _ _ => Std.TreeMap.getElem?_emptyc, fun name u found => ?_⟩ means)
  · simpa using onceBody
  · obtain ⟨id, listed, visible, held⟩ := shows_params (View.with (fun _ => none) [(f, a)]) ∅
      (nodup_map_id onceParams) count found
    have apart : id ∉ b.ids := by
      obtain ⟨p, part, rfl⟩ := List.mem_map.1 listed
      exact fun inside => disjoint p.id (mem_idsOf.2 ⟨p, part, p.id_mem_ids⟩) p.id (by simp [inside]) rfl
    rw [leaves.paramNames]
    exact ⟨id, visible, apart, apart, held⟩

/-- Lowering, name resolution, alias removal and evaluation, taken together, give a function of
straight-line code the meaning of its body. -/
theorem straightLine_calls (f : String) (params : List Param) (body : Expr) (span span' : Option Span)
    (distinct : (params.map Param.name).Nodup) (straight : body.isStraightLine (params.map Param.name) = true)
    {vs : List (Value N)} {v : Value N} (fits : params.length = vs.length)
    (means : body.value? ((params.map Param.name).zip vs) = some v) (context : List (String × Value N)) : ∃ c a e,
    (Compilation.lower ⟨[.assignment f (.lambda span params body) span']⟩ >>= Compilation.resolve) = .ok c ∧
    c.arena.kind? c.root = some (.root [] [a] e) ∧ c.arena.isAssignmentOf f a = true ∧
    (Setting.mk c.arena context).Calls a vs v := by
  obtain ⟨c₀, lowered⟩ : ∃ c, Compilation.lower ⟨[.assignment f (.lambda span params body) span']⟩ = .ok c :=
    lower_function straight
  obtain ⟨t, lowers, stands, once, root⟩ := Compilation.lower_eq_ok lowered
  have outcome := Compilation.resolve_program lowers.isProgram stands once root
  obtain ⟨r, a, g, e, ps, b, leaves, inside, rfl⟩ := lowers_function lowers
  have names : (paramNames ps).map Prod.fst = params.map Param.name := by
    rw [leaves.paramNames, List.map_fst_zip]
    simp [List.Forall₂.length_eq leaves]
  have visible : ∀ name ∈ params.map Param.name,
      ((View.with (fun _ => none) [(f, a)]).with (paramNames ps) name).isSome := by
    intro name listed
    rw [← names, List.mem_map] at listed
    obtain ⟨⟨_, id⟩, listed, rfl⟩ := listed
    simp only [View.with, Option.isSome_or, Bool.or_eq_true]
    refine .inl (Option.ne_none_iff_isSome.1 fun missing => ?_)
    simpa using List.lookup_eq_none_iff.1 missing _ listed
  obtain ⟨b', resolved⟩ := Option.isSome_iff_exists.1 (resolve_straightLine.1 body straight inside visible)
  rw [resolve_functionTree leaves.isParam (lowers_expression.1 _ inside) (names ▸ distinct), resolved] at outcome
  obtain ⟨c, done, binds⟩ := outcome
  refine ⟨c, a, e, ?_, functionTree_calls ((lowering_faithful _).1 body inside) leaves once resolved binds fits
    means⟩
  rw [lowered]
  exact done

end Function

/-- `{ let y = x == y; let x = y; if x { return y }; return x }`: both lets shadow a parameter, and the
second one only renames. -/
def shadowing : Expr :=
  .block none [
    .binding none "y" (.binary none .eq (.identifier none "x") (.identifier none "y")),
    .binding none "x" (.identifier none "y"),
    .ifThen none (.identifier none "x") (.block none [.ret none (.identifier none "y")]),
    .ret none (.identifier none "x")]

theorem shadowing_calls :
    ∃ c a e, (Compilation.lower ⟨[.assignment "f" (.lambda none [⟨"x", none, none⟩, ⟨"y", none, none⟩]
        shadowing) none]⟩ >>= Compilation.resolve) = .ok c ∧ c.arena.kind? c.root = some (.root [] [a] e) ∧
      c.arena.isAssignmentOf "f" a = true ∧
      (Setting.mk (N := Float) c.arena []).Calls a [.string "u", .string "u"] (.boolean true) :=
  straightLine_calls "f" [⟨"x", none, none⟩, ⟨"y", none, none⟩] shadowing none none (by decide) (by decide) rfl
    rfl []

end DerivedTables
