import DerivedTables.Proofs.Scope.Entering
import DerivedTables.Proofs.Tree.Expression

/-!
Binding the names of a tree, said without scopes.
-/

namespace DerivedTables

namespace Tree

variable {params : List Tree} {body : Tree}

def paramName? : Tree → Option (String × NodeId)
  | node id (.param name _) _ => some (name, id)
  | _ => none

def paramNames (ts : List Tree) : List (String × NodeId) := ts.filterMap paramName?

mutual
/-- The tree with its names bound, unless one of them stands for nothing or a function has two
parameters of one name. A let is visible in what follows it and not in its own value. -/
def resolve (view : View) : Tree → Option Tree
  | node id (.identifier name) parts =>
    (view name).map fun target => node id (.reference target name) parts
  | node id (.access s p) [source, property] =>
    (source.resolve view).map fun source => node id (.access s p) [source, property]
  | node id (.binding name v k) [value, next] =>
    (value.resolve view).bind fun value =>
      (next.resolve (view.with [(name, id)])).map fun next => node id (.binding name v k) [value, next]
  | node id (.function name params body) parts =>
    let outer := match name with
      | some name => view.with [(name, id)]
      | none => view
    if ((paramNames parts).map Prod.fst).Nodup then
      (resolveAll (outer.with (paramNames parts)) parts).map (node id (.function name params body))
    else none
  | node id kind parts => (resolveAll view parts).map (node id kind)
def resolveAll (view : View) : List Tree → Option (List Tree)
  | [] => some []
  | t :: rest => (t.resolve view).bind fun t => (resolveAll view rest).map (t :: ·)
end

theorem resolveAll_eq_mapM (view : View) (ts : List Tree) : resolveAll view ts = ts.mapM (resolve view) := by
  induction ts with
  | nil => rfl
  | cons t rest ih =>
    rw [resolveAll, List.mapM_cons, ih]
    cases t.resolve view with
    | none => rfl
    | some t' => cases rest.mapM (resolve view) <;> rfl

variable {view : View} {id : NodeId} {kind : Kind} {parts : List Tree} {t t' : Tree}

theorem resolve_leaf (noName : ∀ name, kind ≠ .identifier name) :
    (node id kind []).resolve view = some (node id kind []) := by
  cases kind <;> first | rfl | exact absurd rfl (noName _)

theorem resolve_compound (compound : kind.isCompound = true) :
    (node id kind parts).resolve view = (resolveAll view parts).map (node id kind) := by
  cases kind <;> first | rfl | cases compound

theorem IsParam.resolve (leaf : t.IsParam) (view : View) : t.resolve view = some t := by
  obtain ⟨id, name, declared, rfl⟩ := leaf
  rfl

theorem IsParam.paramName? (leaf : t.IsParam) :
    ∃ name declared, t.kind = .param name declared ∧ t.paramName? = some (name, t.id) := by
  obtain ⟨id, name, declared, rfl⟩ := leaf
  exact ⟨name, declared, rfl, rfl⟩

theorem Expression.paramName? (expression : t.Expression) : t.paramName? = none := by
  induction expression with
  | atom atom => cases ‹Kind› <;> first | rfl | cases atom
  | compound compound => cases ‹Kind› <;> first | rfl | cases compound
  | access | binding | function => rfl

theorem paramNames_function (inside : body.Expression) : paramNames (params ++ [body]) = paramNames params := by
  simp [paramNames, inside.paramName?]

theorem map_snd_paramNames (leaves : ∀ t ∈ params, t.IsParam) :
    (paramNames params).map Prod.snd = params.map Tree.id := by
  induction params with
  | nil => rfl
  | cons p rest ih =>
    simp only [List.forall_mem_cons] at leaves
    obtain ⟨name, declared, -, shown⟩ := leaves.1.paramName?
    rw [paramNames, List.filterMap_cons_some shown, List.map_cons, List.map_cons]
    exact congrArg _ (ih leaves.2)

theorem resolveAll_params (leaves : ∀ t ∈ params, t.IsParam) :
    resolveAll view (params ++ [body]) = (body.resolve view).map fun body => params ++ [body] := by
  induction params with
  | nil => cases found : body.resolve view <;> simp [resolveAll, found]
  | cons p rest ih =>
    simp only [List.forall_mem_cons] at leaves
    rw [List.cons_append, resolveAll, leaves.1.resolve, Option.bind_some, ih leaves.2, Option.map_map]
    rfl

theorem resolveAll_isSome {ts : List Tree} (each : ∀ t ∈ ts, (t.resolve view).isSome) :
    (resolveAll view ts).isSome := by
  induction ts with
  | nil => rfl
  | cons t rest ih =>
    simp only [List.forall_mem_cons] at each
    obtain ⟨t', here⟩ := Option.isSome_iff_exists.1 each.1
    rw [resolveAll, here, Option.bind_some, Option.isSome_map]
    exact ih each.2

theorem resolve_function {name : Option String} {ps : List NodeId}
    {b : NodeId} (leaves : ∀ t ∈ params, t.IsParam) (inside : body.Expression) :
    (node id (.function name ps b) (params ++ [body])).resolve view =
      if ((paramNames params).map Prod.fst).Nodup then
        (body.resolve ((match name with
          | some name => view.with [(name, id)]
          | none => view).with (paramNames params))).map fun body =>
            node id (.function name ps b) (params ++ [body])
      else none := by
  simp only [resolve, paramNames_function inside, resolveAll_params leaves, Option.map_map]
  rfl

/-- The tree with some of its names bound. -/
inductive Resolves : Tree → Tree → Prop
  | same (t : Tree) : Resolves t t
  | name (id target : NodeId) (name : String) (parts : List Tree) :
    Resolves (node id (.identifier name) parts) (node id (.reference target name) parts)
  | inside {id : NodeId} {kind : Kind} {parts parts' : List Tree} (count : parts.length = parts'.length)
    (each : ∀ p ∈ parts.zip parts', Resolves p.1 p.2) : Resolves (node id kind parts) (node id kind parts')

theorem Resolves.of_parts {ts ts' : List Tree} (related : List.Forall₂ Resolves ts ts') : (node id kind ts).Resolves (node id kind ts') :=
  .inside related.length_eq fun _ pair => (List.forall₂_iff_zip.1 related).2 pair

theorem forall₂_of_mapM {ts ts' : List Tree} {bind : Tree → Option Tree} (done : ts.mapM bind = some ts') :
    List.Forall₂ (fun t t' => t ∈ ts ∧ bind t = some t') ts ts' := by
  induction ts generalizing ts' with
  | nil =>
    cases done
    exact .nil
  | cons t rest ih =>
    rw [List.mapM_cons] at done
    obtain ⟨t', here, done⟩ := Option.bind_eq_some_iff.1 done
    obtain ⟨rest', there, done⟩ := Option.bind_eq_some_iff.1 done
    cases done
    exact .cons ⟨.head _, here⟩ ((ih there).imp fun _ _ both => ⟨.tail _ both.1, both.2⟩)

theorem resolves_mapM {ts ts' : List Tree} {bind : Tree → Option Tree} (each : ∀ t ∈ ts, ∀ t', bind t = some t' → t.Resolves t')
    (done : ts.mapM bind = some ts') : List.Forall₂ Resolves ts ts' :=
  (forall₂_of_mapM done).imp fun t t' both => each t both.1 t' both.2

theorem resolves_of_resolve (done : t.resolve view = some t') : t.Resolves t' := by
  induction t generalizing view t' with
  | node id kind parts ih =>
    have all {view : View} {parts' : List Tree} (done : resolveAll view parts = some parts') : List.Forall₂ Resolves parts parts' :=
      resolves_mapM (fun t part t' => ih t part) (resolveAll_eq_mapM view parts ▸ done)
    unfold resolve at done
    split at done
    · rename_i same
      cases same
      obtain ⟨target, -, rfl⟩ := Option.map_eq_some_iff.1 done
      exact .name ..
    · rename_i same
      cases same
      obtain ⟨source, inside, rfl⟩ := Option.map_eq_some_iff.1 done
      exact .of_parts (.cons (ih _ (by simp) inside) (.cons (.same _) .nil))
    · rename_i same
      cases same
      obtain ⟨value, bound, done⟩ := Option.bind_eq_some_iff.1 done
      obtain ⟨next, follows, rfl⟩ := Option.map_eq_some_iff.1 done
      exact .of_parts (.cons (ih _ (by simp) bound) (.cons (ih _ (by simp) follows) .nil))
    · rename_i same
      cases same
      simp only [Option.ite_none_right_eq_some, Option.map_eq_some_iff] at done
      obtain ⟨-, parts', below, rfl⟩ := done
      exact .of_parts (all below)
    · rename_i same
      cases same
      obtain ⟨parts', below, rfl⟩ := Option.map_eq_some_iff.1 done
      exact .of_parts (all below)

theorem resolves_of_resolveAll {ts ts' : List Tree} (done : resolveAll view ts = some ts') : List.Forall₂ Resolves ts ts' :=
  resolves_mapM (fun _ _ _ => resolves_of_resolve) (resolveAll_eq_mapM view ts ▸ done)

theorem ids_of_forall₂ {ts ts' : List Tree} (related : List.Forall₂ (fun t t' => t'.id = t.id ∧ t'.ids = t.ids) ts ts') :
    ts'.map Tree.id = ts.map Tree.id ∧ idsOf ts' = idsOf ts := by
  induction related with
  | nil => exact ⟨rfl, rfl⟩
  | cons here _ ih => exact ⟨by simp [here.1, ih.1], by simp [idsOf, here.2, ih.2]⟩

theorem Resolves.ids_eq (resolves : t.Resolves t') : t'.id = t.id ∧ t'.ids = t.ids := by
  induction resolves with
  | same | name => exact ⟨rfl, rfl⟩
  | inside count each ih => simp [ids, ids_of_forall₂ (List.forall₂_iff_zip.2 ⟨count, fun {t t'} pair => ih (t, t') pair⟩)]

theorem ids_resolve (done : t.resolve view = some t') : t'.id = t.id ∧ t'.ids = t.ids := (resolves_of_resolve done).ids_eq

theorem Resolves.all_ids {ts ts' : List Tree} (related : List.Forall₂ Resolves ts ts') :
    ts'.map Tree.id = ts.map Tree.id ∧ idsOf ts' = idsOf ts :=
  ids_of_forall₂ (related.imp fun _ _ => Resolves.ids_eq)

end Tree

end DerivedTables
