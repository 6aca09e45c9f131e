import DerivedTables.Proofs.Rows.Calm
import DerivedTables.Proofs.Rows.Synthesis
import DerivedTables.Proofs.Rows.Turned

/-!
What recognition puts in the place of a node whose parts are done, with the type of each new node,
and the walk over a whole tree as one such step after another.
-/

namespace DerivedTables

open Tree

variable {a b d : Arena} {t : Tree} {ts us : List Tree}

namespace Tree

/-- Recognition does nothing at such a node. -/
structure Idle (t : Tree) : Prop where
  unmarked : ∀ operand, t.kind ≠ .rows operand
  member : ∀ source property, t.kind = .access source property →
    ∀ s ∈ t.parts.head?, s.kind.isCollection = false ∧ s.kind.isAggregate = false
  callee : ∀ callee args, t.kind = .invoke callee args → ∀ s ∈ t.parts.head?, ∀ member source,
    s.kind ≠ .intent member source

end Tree

namespace Rows

/-- A stage for the predicate comes after those of what the filter is called on, if there are any. -/
inductive Filtered (a d : Arena) (node : NodeId) (source predicate : Tree) : Tree → Prop
  | first {made stage : NodeId} (other : ∀ s stages, source.kind ≠ .pipeline s stages) (ty : d.ty? made = a.ty? node)
    (stageTy : d.ty? stage = a.ty? predicate.id) : Filtered a d node source predicate
      (.node made (.pipeline source.id [stage]) [source, .node stage (.filter predicate.id) [predicate]])
  | next {made stage s : NodeId} {stages : List NodeId} (joins : source.kind = .pipeline s stages)
    (ty : d.ty? made = a.ty? node) (stageTy : d.ty? stage = a.ty? predicate.id) : Filtered a d node source predicate
      (.node made (.pipeline s (stages ++ [stage]))
        (source.parts ++ [.node stage (.filter predicate.id) [predicate]]))

def AnyRow (a d : Arena) (param body fold : Tree) : Prop :=
  ∃ (acc row : Slot) (use holds : Tree) (id : NodeId), acc.ty = .boolean ∧ row.ty = (a.ty? param.id).getD .unknown ∧
    Slot.FunctionOver d [acc, row] (.node id (.binary .or use.id holds.id) [use, holds]) fold ∧ acc.Use d use ∧
    body.Copy a d (.ofList [(param.id, row.redirect)]) holds ∧ d.ty? id = some .boolean

/-- Where the accumulator of a fold of such a type starts. -/
inductive Started (d : Arena) (initial : Tree) : Ty → Tree → Prop
  | number : Started d initial .number initial
  | boolean {start : Tree}
    {worth : Fold.Worth}
    (counted : Assembled d (fun (_ : Unit) ty t => ty = .boolean ∧ t = initial) (worth.selected (.leaf ())) .number start) :
    Started d initial .boolean start

def Aggregated (a d : Arena) (function source initial t' : Tree) : Prop :=
  ∃ (fold : Fold) (p q s start forward inverse view : Tree) (ty : Ty) (made : NodeId),
    fold.node = function.id ∧ fold.Planted a p q s ∧ function.ids = fold.node :: idsOf [p, q, s] ∧
      (a.ty? fold.body).map Ty.effective = some ty ∧ fold.Functions a d forward inverse view ty ∧
      Started d initial ty start ∧ d.ty? made = some ty ∧
      t' = .node made (.reduce source.id start.id forward.id inverse.id view.id) [source, start, forward, inverse, view]

/-- What a call of the member makes of what it is called on and of its arguments. -/
inductive Called (a d : Arena) (node : NodeId) (source : Tree) : RowMember → List Tree → Tree → Prop
  | filter {id : NodeId} {name : Option String} {param body t' : Tree}
    (made : Filtered a d node source (.node id (.function name [param.id] body.id) [param, body]) t') :
    Called a d node source .filter [.node id (.function name [param.id] body.id) [param, body]] t'
  | includes {b : Arena} {id start : NodeId} {name : Option String} {param body fold t' : Tree}
    (asked : AnyRow a b param body fold) (first : a.Retains b) (stands : fold.StandsIn b)
    (fresh : ∀ x ∈ fold.ids, a.size ≤ x) (startTy : d.ty? start = some .boolean)
    (made : Aggregated b d fold source (.node start (.boolean false) []) t') :
    Called a d node source .includes [.node id (.function name [param.id] body.id) [param, body]] t'
  | reduce {function initial t' : Tree} (made : Aggregated a d function source initial t') :
    Called a d node source .reduce [function, initial] t'

inductive Left (a d : Arena) : Tree → Tree → Prop
  | idle {t : Tree} (idle : t.Idle) : Left a d t t
  | dataset {id operand made definition : NodeId} {parts : List Tree} {name : String}
    (table : a.definitionOf? operand = some (definition, name)) (ty : d.ty? made = a.ty? id) :
    Left a d (.node id (.rows operand) parts) (.node made (.dataset name definition) [])
  | intent {id property made : NodeId} {source : Tree} {rest : List Tree} {member : RowMember}
    (collection : source.kind.isCollection = true)
    (named : RowMember.ofName? ((a.identifier? property).getD "") = some member) :
    Left a d (.node id (.access source.id property) (source :: rest)) (.node made (.intent member source.id) [source])
  | call {id callee : NodeId} {source t' : Tree} {args : List Tree} {member : RowMember}
    (called : Called a d id source member args t') :
    Left a d (.node id (.invoke callee (args.map Tree.id)) (.node callee (.intent member source.id) [source] :: args)) t'

end Rows

namespace Rows

inductive Miscalled (a : Arena) (node : NodeId) : RowMember → List Tree → RowsError → Prop
  | count {member : RowMember} {args : List Tree} (wrong : args.length ≠ arity member) :
    Miscalled a node member args (.argumentCount node member (arity member) args.length)
  | lambda {member : RowMember} {function : Tree} {rest : List Tree} (other : function.kind.isFunction = false) :
    Miscalled a node member (function :: rest) (.argumentShape function.id member 0 "a lambda")
  | params {id body : NodeId} {name : Option String} {params : List NodeId} {parts : List Tree} {initial : Tree}
    (wrong : params.length ≠ 2) :
    Miscalled a node .reduce [.node id (.function name params body) parts, initial] (.paramCount id params.length)
  | row {member : RowMember} {id body : NodeId} {name : Option String} {params : List NodeId} {parts : List Tree}
    (wrong : params.length ≠ 1) (other : member ≠ .reduce) :
    Miscalled a node member [.node id (.function name params body) parts] (.argumentShape id member 0 "a lambda of one row")
  | fold {member : RowMember} {args : List Tree} {b : Arena} {fold : NodeId} {e : RowsError} (other : member ≠ .filter)
    (failed : Fold.check b fold = .error e) (fault : e.isFoldError = true) : Miscalled a node member args e

inductive Faulty (a : Arena) : Tree → RowsError → Prop
  | rows {id operand : NodeId} {parts : List Tree} (missing : a.definitionOf? operand = none) :
    Faulty a (.node id (.rows operand) parts) (.notATable id)
  | member {id property : NodeId} {source : Tree} {rest : List Tree} (collection : source.kind.isCollection = true)
    (unknown : RowMember.ofName? ((a.identifier? property).getD "") = none) :
    Faulty a (.node id (.access source.id property) (source :: rest))
      (.unknownMember id ((a.identifier? property).getD ""))
  | aggregate {id property : NodeId} {source : Tree} {rest : List Tree} (aggregate : source.kind.isAggregate = true) :
    Faulty a (.node id (.access source.id property) (source :: rest)) (.chainAfterReduce id)
  | call {id callee : NodeId} {source : Tree} {args : List Tree} {member : RowMember} {e : RowsError}
    (miscalled : Miscalled a id member args e) :
    Faulty a (.node id (.invoke callee (args.map Tree.id)) (.node callee (.intent member source.id) [source] :: args)) e

theorem Faulty.not_dangling {e : RowsError} (faulty : Faulty a t e) : ¬ Dangling e := by
  rintro ⟨node, rfl⟩
  cases faulty with
  | call miscalled =>
    cases miscalled with
    | fold _ _ fault => cases fault

end Rows

theorem Fold.check_error {id acc row body : NodeId} {name : Option String} {e : RowsError} (held : a.kind? id = some
    (.function name [acc, row] body)) (failed : Fold.check a id = .error e) : e.isFoldError = true := by
  obtain failed | ⟨fold, -, failed⟩ := except_bind_eq_error failed
  · obtain fault | ⟨_, -, other⟩ | ⟨_, _, _, same, other, -⟩ := Fold.of_error held failed
    · exact fault
    · cases other
    · cases same
      exact absurd rfl other
  · dsimp only at failed
    split at failed
    · cases stuck : fold.steps.find? fun step => !step.op.isArithmetic with
      | none =>
        rw [stuck] at failed
        cases failed
      | some step =>
        rw [stuck] at failed
        cases failed
        rfl
    · split at failed
      · cases chained : fold.chainOf with
        | ok =>
          rw [chained] at failed
          cases failed
        | error =>
          rw [chained] at failed
          cases failed
          exact Fold.chainOf_error chained
      · cases failed
        rfl

theorem Makes.setSpan {ω : Type} {fits : Arena → Tree → Prop} {r : NodeId} {w : Workspace ω}
    (makes : Makes a b ts us fits r w) (x : NodeId) (span : Option Span) :
    Makes a b ts us fits r { w with arena := w.arena.setSpan x span } := by
  obtain ⟨retains, t, rfl, built, fit⟩ := makes
  have spanned := w.arena.retains_setSpan x span
  exact ⟨retains.trans spanned, t, rfl, built.extend spanned.kinds, fun d later => fit d (spanned.trans later)⟩

namespace Fold

variable {ω : Type} {w : Workspace ω} {source initial start forward inverse view : Tree} {ty : Ty}

theorem Shown.ty_eq {φ : Formula Unit} (shown : Shown d φ ty t) : ∃ params, d.ty? t.id = some (.function params ty) := by
  obtain ⟨acc, body, -, wraps, assembled⟩ := shown
  have typed : d.ty? body.id = some ty := assembled.ty_eq fun _ _ _ ⟨same, _, use, typed⟩ => by
    rw [same, use]
    exact typed
  exact ⟨_, by rw [wraps.ty, typed, Option.getD_some]⟩

theorem Functions.view_ty {fold : Fold} (functions : fold.Functions a d forward inverse view ty) :
    ∃ params, d.ty? view.id = some (.function params ty) := by
  cases functions with
  | numeric _ _ _ shown => exact shown.ty_eq
  | boolean _ _ _ shown => exact shown.ty_eq

theorem reduce_makes {params : Fields} (built : Rebuilt a w.arena ts [source, start, forward, inverse, view]) (typed :
    w.arena.ty? view.id = some (.function params ty)) : Pass.Ends Dangling (reduce source.id start.id forward.id
    inverse.id view.id : Pass RowsError ω NodeId) w (Makes a w.arena ts [] fun d t' => ∃ made, d.ty? made = some ty ∧ t'
    = .node made (.reduce source.id start.id forward.id inverse.id view.id) [source, start, forward, inverse, view]) :=
    by
  refine .arena ?_
  rw [typed]
  have built : Rebuilt a w.arena ts ([] ++ [source, start, forward, inverse, view]) := built
  exact Pass.push_makes built rfl fun d later typed => ⟨_, typed, rfl⟩

end Fold

section

variable {ω : Type} {w : Workspace ω} {function source initial : Tree}

theorem invertFold_makes (stands : function.StandsIn w.arena) (once : function.ids.Nodup) (built : Rebuilt a w.arena ts
    [source, initial]) : Pass.Ends Dangling (invertFold function.id source.id initial.id : Pass RowsError ω NodeId) w
    (Makes a w.arena ts [] fun d t' => Rows.Aggregated w.arena d function source initial t') := by
  refine .arena (.ofExcept (fun e failed => Fold.of_not_dangling stands.kind failed) fun fold found => ?_)
  obtain ⟨node, p, q, s, planted, listed⟩ := Fold.Planted.of_ok stands once found
  have here : Rebuilt w.arena w.arena [source, initial] [source, initial] := .keep built.stand built.once
  have spanned {m : Pass RowsError ω NodeId} (made : Pass.Ends Dangling m w (Makes a w.arena ts [] fun d t' =>
      Rows.Aggregated w.arena d function source initial t')) :
      Pass.Ends Dangling (do
        let r ← m
        Pass.modifyArena (·.setSpan r (w.arena.span? function.id))
        return r) w (Makes a w.arena ts [] fun d t' => Rows.Aggregated w.arena d function source initial t') :=
    made.bind fun r w' makes => .of_ok rfl (makes.setSpan r _)
  cases typed : (w.arena.ty? fold.body).map Ty.effective with
  | none => exact .throw (by rintro ⟨_, ⟨⟩⟩)
  | some ty =>
    cases ty with
    | number =>
      refine spanned (Fold.invertNumeric_ends_of planted (.refl _) here ?_)
      rintro forward inverse view w₁ later made functions
      obtain ⟨params, viewTy⟩ := (functions _ (.refl _)).view_ty
      refine (Fold.reduce_makes made viewTy).mono ?_
      rintro _ w₂ ⟨later', t', rfl, made', reduced⟩
      refine ⟨later.trans later', t', rfl, built.trans made', fun d last => ?_⟩
      obtain ⟨made, ty, shape⟩ := reduced d last
      exact ⟨fold, p, q, s, initial, forward, inverse, view, .number, made, node, planted, listed, typed,
        functions d (later'.trans last), .number, ty, shape⟩
    | boolean =>
      refine spanned (Fold.invertBoolean_ends_of planted (.refl _) here ?_)
      rintro chain forward inverse view w₁ - later made functions
      have last : ([initial] ++ [forward, inverse, view]).Perm ([forward, inverse, view] ++ [initial]) :=
        List.perm_append_comm
      have made : Rebuilt w.arena w₁.arena [source, initial] ([source, forward, inverse, view] ++ [initial]) :=
        made.perm (last.cons source)
      have asked (d : Arena) (_ : w₁.arena.Retains d) :
          Assembled d (fun (_ : Unit) ty t => ty = .boolean ∧ t = initial) (.leaf ()) .boolean initial := .leaf ⟨rfl, rfl⟩
      refine (Fold.select_makes (Fold.Worth.of chain) made asked).bind ?_
      rintro _ w₂ ⟨later₂, start, rfl, made, counted⟩
      have first : ([forward, inverse, view] ++ [start]).Perm ([start] ++ [forward, inverse, view]) :=
        List.perm_append_comm
      obtain ⟨params, viewTy⟩ := (functions _ later₂).view_ty
      refine (Fold.reduce_makes (made.perm (first.cons source)) viewTy).mono ?_
      rintro _ w₃ ⟨later₃, t', rfl, made', reduced⟩
      refine ⟨(later.trans later₂).trans later₃, t', rfl, built.trans made', fun d last => ?_⟩
      obtain ⟨made, ty, shape⟩ := reduced d last
      exact ⟨fold, p, q, s, start, forward, inverse, view, .boolean, made, node, planted, listed, typed,
        functions d (later₂.trans (later₃.trans last)), .boolean (counted d (later₃.trans last)), ty, shape⟩
    | _ => exact .throw (by rintro ⟨_, ⟨⟩⟩)

end

namespace Rows

variable {bad : RowsError → Prop} {w : Workspace RowsSummary}

theorem allocLike_makes {kind : Kind} {vs : List Tree} (like : NodeId) (built : Rebuilt a w.arena ts (us ++ vs))
    (slots : kind.children = vs.map Tree.id) : Pass.Ends bad (allocLike like kind) w
    (Makes a w.arena ts us fun d t' => ∃ made, d.ty? made = w.arena.ty? like ∧ t' = .node made kind vs) :=
  .arena (Pass.push_makes (n := ⟨kind, w.arena.ty? like, none⟩) built slots fun _ _ typed => ⟨_, typed, rfl⟩)

theorem filter_makes {source predicate : Tree} (node : NodeId) (there : node < w.arena.size)
    (built : Rebuilt a w.arena ts [source, predicate]) : Pass.Ends bad (filter node source.id predicate.id) w
    (Makes a w.arena ts [] fun d t' => Filtered w.arena d node source predicate t') := by
  have built : Rebuilt a w.arena ts ([source] ++ [predicate]) := built
  refine (allocLike_makes predicate.id built rfl).bind ?_
  rintro _ w₁ ⟨later, stage, rfl, built, staged⟩
  have standing := built.stand source (by simp)
  have like : w₁.arena.ty? node = w.arena.ty? node := later.ty there
  have piping {kind : Kind} {vs : List Tree} (notes : RowsSummary) (built : Rebuilt a w₁.arena ts ([] ++ vs))
      (slots : kind.children = vs.map Tree.id) := @allocLike_makes a ts [] bad ⟨w₁.arena, notes⟩ kind vs node built slots
  obtain ⟨sid, kind, parts⟩ := source
  refine .kind standing.held ?_
  split
  · rename_i s stages _ _
    have slots : (Kind.pipeline s (stages ++ [stage.id])).children = (parts ++ [stage]).map Tree.id := by
      rw [List.map_append, ← standing.filled]
      rfl
    refine .step rfl (.step rfl ((piping _ built.parts slots).mono ?_))
    rintro _ w₂ ⟨later', t', rfl, built, made⟩
    refine ⟨later.trans later', t', rfl, built, fun d last => ?_⟩
    obtain ⟨id, stageTy, rfl⟩ := staged d (later'.trans last)
    obtain ⟨made, ty, rfl⟩ := made d last
    exact .next rfl (ty.trans like) stageTy
  · rename_i other
    have built : Rebuilt a w₁.arena ts ([] ++ [.node sid kind parts, stage]) := built
    refine .step rfl (.step rfl ((piping _ built rfl).mono ?_))
    rintro _ w₂ ⟨later', t', rfl, built, made⟩
    refine ⟨later.trans later', t', rfl, built, fun d last => ?_⟩
    obtain ⟨id, stageTy, rfl⟩ := staged d (later'.trans last)
    obtain ⟨made, ty, rfl⟩ := made d last
    exact .first other (ty.trans like) stageTy

theorem anyRow_makes {param body : Tree} (predicate : NodeId) (base : a.Retains w.arena) (built : Rebuilt a w.arena ts us)
    (there : param.id < a.size) (stands : body.StandsIn a) (once : (idsOf [param, body]).Nodup) :
    Pass.Ends bad (anyRow predicate param.id body.id) w (Makes a w.arena ts us fun d t' => AnyRow a d param body t') := by
  refine .arena ((Slot.make_makes _ _ built).bind ?_)
  rintro acc w₁ ⟨later₁, built, accTy⟩
  refine (Slot.make_makes _ _ built).bind ?_
  rintro row w₂ ⟨later₂, built, rowTy⟩
  have free : ∀ x ∈ body.ids, (Std.TreeMap.ofList [(param.id, row.redirect)] : Redirects)[x]? = none := by
    intro x inside
    rw [Fold.getElem?_single, if_neg]
    rintro rfl
    rw [idsOf, idsOf_singleton] at once
    exact (List.nodup_append.1 once).2.2 _ param.id_mem_ids _ inside rfl
  refine (Pass.deepCopy_makes (base.trans (later₁.trans later₂)) built stands (nodup_of_mem once (by simp)) free).bind ?_
  rintro _ w₃ ⟨later₃, holds, rfl, built, copied⟩
  refine (Slot.use_makes acc built).bind ?_
  rintro _ w₄ ⟨later₄, use, rfl, built, used⟩
  rw [List.append_assoc, List.singleton_append] at built
  have pushed : Pass.Ends bad (Pass.allocTyped (.binary .or use.id holds.id) .boolean : Recognizing NodeId) w₄
      (Makes a w₄.arena ts (us ++ [acc.leaf] ++ [row.leaf]) fun d t' => ∃ id, d.ty? id = some .boolean ∧
        t' = .node id (.binary .or use.id holds.id) [use, holds]) :=
    Pass.push_makes (built.perm ((List.Perm.swap use holds []).append_left _)) rfl fun d later typed => ⟨_, typed, rfl⟩
  refine pushed.bind ?_
  rintro _ w₅ ⟨later₅, whole, rfl, built, wholeMade⟩
  refine (Slot.function_makes none [acc, row] (by simpa using built)).bind ?_
  rintro _ w₆ ⟨later₆, fold, rfl, built, wraps⟩
  refine .step rfl (.of_ok rfl (Makes.setSpan ?_ _ _))
  refine ⟨((later₁.trans later₂).trans (later₃.trans later₄)).trans (later₅.trans later₆), fold, rfl, built, fun d last => ?_⟩
  have afterwards := later₆.trans last
  obtain ⟨id, typed, rfl⟩ := wholeMade d afterwards
  refine ⟨acc, row, use, holds, id, accTy, ?_, wraps d last, used d (later₅.trans afterwards),
    copied d ((later₄.trans later₅).trans afterwards), typed⟩
  rw [rowTy, base.ty there]

theorem aggregate_makes {function source initial : Tree} {name : Option String} {acc row body : NodeId} (stands :
    function.StandsIn w.arena) (once : function.ids.Nodup) (shape : function.kind = .function name [acc, row] body)
    (built : Rebuilt a w.arena ts [source, initial]) : Pass.Ends (fun e => ¬ (Fold.check w.arena function.id = .error e
    ∧ e.isFoldError = true)) (aggregate function.id source.id initial.id) w (Makes a w.arena ts [] fun d t' =>
    Aggregated w.arena d function source initial t') := by
  have inverting (notes : RowsSummary) := invertFold_makes (w := ⟨w.arena, notes⟩) stands once built
  have blames (notes : RowsSummary) {e : RowsError} {w' : Workspace RowsSummary}
      (failed : invertFold function.id source.id initial.id ⟨w.arena, notes⟩ = .error e w') :
      Fold.check w.arena function.id = .error e ∧ e.isFoldError = true := by
    have tree := stands.treeWithin ((stands.height_le_size once).trans (Nat.le_succ _))
    obtain ⟨e, checked, ran⟩ | ⟨_, -, r, w₁, ran, -⟩ :=
      invertFold_checked (w := ⟨w.arena, notes⟩) tree source.id initial.id
    · cases ran.symm.trans failed
      exact ⟨checked, Fold.check_error (stands.kind.trans (congrArg some shape)) checked⟩
    · cases ran.symm.trans failed
  exact .step rfl ⟨(inverting _).ok, fun failed => not_not_intro (blames _ failed)⟩

theorem callOn_makes {source function : Tree} {rest : List Tree} (node : NodeId) (member : RowMember) (there : node <
    w.arena.size) (stand : ∀ t ∈ source :: function :: rest, t.StandsIn w.arena) (once : (idsOf (source :: function ::
    rest)).Nodup) (count : (function :: rest).length = arity member) : Pass.Ends (fun e => ¬ Miscalled w.arena node
    member (function :: rest) e) (callOn node member source.id function.id (rest.map Tree.id)) w (Makes w.arena w.arena
    (source :: function :: rest) [] fun d t' => Called w.arena d node source member (function :: rest) t') := by
  have built := Rebuilt.keep stand once
  have stands := stand function (by simp)
  have once' := nodup_of_mem once (show function ∈ source :: function :: rest by simp)
  obtain ⟨id, kind, parts⟩ := function
  refine .kind stands.held ?_
  split
  · rename_i name params body
    split
    · rename_i param
      obtain rfl : rest = [] := by simpa [arity] using count
      obtain ⟨_, s, rfl, front, rfl⟩ := stands.function_parts
      obtain ⟨p, rfl, rfl⟩ := List.map_eq_singleton_iff.1 front
      refine (filter_makes node there built).mono ?_
      rintro _ w' ⟨later, t', rfl, made, filtered⟩
      exact ⟨later, t', rfl, made, fun d last => .filter (filtered d last)⟩
    · rename_i param
      obtain rfl : rest = [] := by simpa [arity] using count
      obtain ⟨_, s, rfl, front, rfl⟩ := stands.function_parts
      obtain ⟨p, rfl, rfl⟩ := List.map_eq_singleton_iff.1 front
      have there : p.id < w.arena.size := stands.lt_size _ (by simp [ids, idsOf])
      refine (anyRow_makes id (.refl _) built there (stands.child (by simp)) (List.nodup_cons.1 once').2).bind ?_
      rintro _ w₁ ⟨later₁, fold, rfl, made, asked⟩
      refine Pass.Ends.bind (show Pass.Ends _ _ _ (Makes w.arena w₁.arena _ _ fun d t' =>
        ∃ id, d.ty? id = some .boolean ∧ t' = .node id (.boolean false) []) from
          Pass.leaf_makes made rfl fun d later typed => ⟨_, typed, rfl⟩) ?_
      rintro _ w₂ ⟨later₂, initial, rfl, built, start⟩
      have once' : fold.ids.Nodup := nodup_of_mem built.once (by simp)
      have fresh : ∀ x ∈ fold.ids, w.arena.size ≤ x := fun x inside =>
        (made.origin (mem_idsOf.2 ⟨fold, by simp, inside⟩)).resolve_left fun other => by
          have once := made.once
          rw [idsOf_append, idsOf_singleton] at once
          exact (List.nodup_append.1 once).2.2 x other x inside rfl
      obtain ⟨acc, row, _, _, _, -, -, wraps, -⟩ := asked _ (.refl _)
      obtain ⟨shown, shape⟩ := wraps.shape
      have given : Rebuilt w.arena w₂.arena _ [source, initial] :=
        built.sublist ((List.singleton_sublist.2 (by simp)).cons_cons source)
      have aggregating := aggregate_makes (built.stand fold (by simp)) once' (congrArg Tree.kind shape) given
      refine (aggregating.weaken fun e other blamed => other (.fold (by simp) blamed.1 blamed.2)).mono ?_
      · rintro _ w₃ ⟨later₃, t', rfl, whole, aggregated⟩
        refine ⟨(later₁.trans later₂).trans later₃, t', rfl, whole, fun d last => ?_⟩
        have aggregated := aggregated d last
        obtain ⟨start, startTy, rfl⟩ := start d (later₃.trans last)
        exact .includes (asked w₂.arena later₂) (later₁.trans later₂) (built.stand fold (by simp)) fresh startTy aggregated
    · rename_i initial more slots
      obtain ⟨i, others, rfl, rfl, rfl⟩ := List.map_eq_cons_iff.1 slots
      obtain rfl : others = [] := by simpa [arity] using count
      have given : Rebuilt w.arena w.arena _ [source, i] := built.sublist ((List.singleton_sublist.2 (by simp)).cons_cons source)
      have aggregating := aggregate_makes stands once' rfl given
      refine (aggregating.weaken fun e other blamed => other (.fold (by simp) blamed.1 blamed.2)).mono ?_
      · rintro _ w' ⟨later, t', rfl, made, aggregated⟩
        exact ⟨later, t', rfl, made, fun d last => .reduce (aggregated d last)⟩
    · rename_i wrong
      obtain ⟨initial, rfl⟩ := List.length_eq_one_iff.1 (show rest.length = 1 by simpa [arity] using count)
      refine .throw (not_not_intro (.params fun two => ?_))
      obtain ⟨acc, row, rfl⟩ := List.length_eq_two.1 two
      exact wrong _ _ _ _ rfl rfl
    · rename_i member params _ _ _ notReduce notFilter notIncludes _
      obtain rfl : rest = [] := by
        cases member with
        | reduce => exact (notReduce rfl).elim
        | filter | includes => simpa [arity] using count
      refine .throw (not_not_intro (.row (fun one => ?_) notReduce))
      obtain ⟨param, rfl⟩ := List.length_eq_one_iff.1 one
      cases member with
      | reduce => exact notReduce rfl
      | filter => exact notFilter _ rfl rfl
      | includes => exact notIncludes _ rfl rfl
  · rename_i other
    refine .throw (not_not_intro (@Miscalled.lambda _ _ _ (.node id kind parts) _ ?_))
    cases kind with
    | function => exact (other _ _ _ rfl).elim
    | _ => rfl

theorem call_makes {source : Tree} {args : List Tree} (node : NodeId) (member : RowMember) (there : node < w.arena.size)
    (stand : ∀ t ∈ source :: args, t.StandsIn w.arena) (once : (idsOf (source :: args)).Nodup) : Pass.Ends
    (fun e => ¬ Miscalled w.arena node member args e) (call node member source.id (args.map Tree.id)) w
    (Makes w.arena w.arena (source :: args) [] fun d t' => Called w.arena d node source member args t') := by
  cases args with
  | nil => exact .throw (not_not_intro (@Miscalled.count _ _ _ [] (by cases member <;> simp [arity])))
  | cons function rest =>
    rw [List.map_cons]
    unfold call
    dsimp only
    split
    · rename_i wrong
      rw [← List.map_cons, List.length_map] at wrong ⊢
      exact .throw (not_not_intro (.count wrong))
    · rename_i count
      refine (callOn_makes node member there stand once (by simpa using count)).bind fun r w₁ made => .step rfl ?_
      split
      · exact .of_ok rfl (made.setSpan _ _)
      · exact .pure made

theorem dataset_makes (node operand : NodeId) (parts : List Tree) (built : Rebuilt a w.arena ts us) : Pass.Ends (fun e
    => ¬ Faulty w.arena (.node node (.rows operand) parts) e) (dataset node operand) w (Makes a w.arena ts us fun d t'
    => ∃ name definition made, w.arena.definitionOf? operand = some (definition, name) ∧ d.ty? made = w.arena.ty? node ∧
    t' = .node made (.dataset name definition) []) := by
  refine .arena ?_
  split
  · rename_i definition name found
    have pushed {bad : RowsError → Prop} (span : Option Span) : Pass.Ends bad
        (Pass.push ⟨.dataset name definition, w.arena.ty? node, span⟩ : Recognizing NodeId) w
        (Makes a w.arena ts us fun d t' => ∃ name definition made, w.arena.definitionOf? operand = some (definition, name) ∧
          d.ty? made = w.arena.ty? node ∧ t' = .node made (.dataset name definition) []) :=
      Pass.leaf_makes built rfl fun d later typed => ⟨name, definition, _, found, typed, rfl⟩
    exact .step rfl (.step rfl ((pushed _).bind fun r w₁ made => .of_ok rfl made))
  · rename_i missing
    exact .throw (not_not_intro (.rows missing))

theorem intent_makes (node property : NodeId) {source : Tree} (rest : List Tree) (built : Rebuilt a w.arena ts [source]) :
    Pass.Ends (fun e => ¬ Faulty w.arena (.node node (.access source.id property) (source :: rest)) e)
      (intent node source.id property) w fun r w' =>
      (r = none ∧ w' = w ∧ source.kind.isCollection = false ∧ source.kind.isAggregate = false) ∨
        ∃ x, r = some x ∧ source.kind.isCollection = true ∧ Makes a w.arena ts [] (fun _ t' => ∃ member made,
          RowMember.ofName? ((w.arena.identifier? property).getD "") = some member ∧
            t' = .node made (.intent member source.id) [source]) x w' := by
  have stands := built.stand source (by simp)
  have built : Rebuilt a w.arena ts ([] ++ [source]) := built
  obtain ⟨sid, kind, parts⟩ := source
  refine .kind stands.held ?_
  split
  case h_1 | h_2 =>
    refine .arena ?_
    dsimp only
    split
    · rename_i member named
      have pushed {bad : RowsError → Prop} (span : Option Span) : Pass.Ends bad (Pass.push ⟨.intent member sid, none, span⟩) w
          (Makes a w.arena ts [] fun _ t' => ∃ member made,
            RowMember.ofName? ((w.arena.identifier? property).getD "") = some member ∧
              t' = .node made (.intent member sid) [.node sid _ parts]) :=
        Pass.push_makes built rfl fun d later typed => ⟨member, _, named, rfl⟩
      exact .step rfl ((pushed _).bind fun r w₁ made => .pure (.inr ⟨r, rfl, rfl, made⟩))
    · rename_i unknown
      exact .throw (not_not_intro (@Faulty.member _ _ _ (.node sid _ parts) _ rfl unknown))
  case h_3 => exact .throw (not_not_intro (@Faulty.aggregate _ _ _ (.node sid _ parts) _ rfl))
  case h_4 noData noPipe noReduce =>
    refine .pure (.inl ⟨rfl, rfl, ?_⟩)
    cases kind with
    | dataset => exact (noData _ _ rfl).elim
    | pipeline => exact (noPipe _ _ rfl).elim
    | reduce => exact (noReduce _ _ _ _ _ rfl).elim
    | _ => exact ⟨rfl, rfl⟩

theorem leave_left {lineage : Lineage} (stands : t.StandsIn w.arena) (once : t.ids.Nodup) : Pass.Ends
    (fun e => ¬ Faulty w.arena t e) (leave t.id lineage ()) w fun r w' => w.arena.Retains w'.arena ∧ ∃ t', r.getD t.id =
    t'.id ∧ Rewritten w.arena w'.arena t t' ∧ Left w.arena w'.arena t t' := by
  obtain ⟨id, kind, parts⟩ := t
  have built := Rebuilt.keep (fun t part => stands.child part) (List.nodup_cons.1 once).2
  have there : id < w.arena.size := Arena.lt_size_of_kind? stands.held
  have kept (idle : (Tree.node id kind parts).Idle) : w.arena.Retains w.arena ∧
      ∃ t', (none : Option NodeId).getD id = t'.id ∧ Rewritten w.arena w.arena (.node id kind parts) t' ∧
        Left w.arena w.arena (.node id kind parts) t' :=
    ⟨.refl _, _, rfl, .refl stands once, .idle idle⟩
  have made {fits : Arena → Tree → Prop} {r : NodeId} {w' : Workspace RowsSummary}
      (makes : Makes w.arena w.arena parts [] fits r w') (left : ∀ d t', fits d t' → Left w.arena d (.node id kind parts) t') :
      w.arena.Retains w'.arena ∧ ∃ t', (some r).getD id = t'.id ∧ Rewritten w.arena w'.arena (.node id kind parts) t' ∧
        Left w.arena w'.arena (.node id kind parts) t' := by
    obtain ⟨later, t', rfl, built, fit⟩ := makes
    exact ⟨later, t', rfl, built.rewritten fun x => List.mem_cons_of_mem _, left _ _ (fit _ (.refl _))⟩
  refine .kind stands.held ?_
  split
  · rename_i operand
    refine (dataset_makes id operand parts (built.sublist (List.nil_sublist _))).bind fun r w' makes => .pure (made makes ?_)
    rintro d _ ⟨name, definition, x, table, ty, rfl⟩
    exact .dataset table ty
  · rename_i source property
    obtain ⟨s, rest, rfl, rfl, -⟩ := List.map_eq_cons_iff.1 stands.filled.symm
    refine (intent_makes id property rest (built.sublist ((List.nil_sublist rest).cons_cons s))).mono ?_
    rintro r w' (⟨rfl, rfl, free⟩ | ⟨x, rfl, collection, makes⟩)
    · refine kept ⟨by simp, fun _ _ _ s here => ?_, by simp⟩
      obtain rfl : _ = s := Option.some_injective _ here
      exact free
    · refine made makes ?_
      rintro d _ ⟨member, x, named, rfl⟩
      exact .intent collection named
  · rename_i callee args
    obtain ⟨c, rest, rfl, rfl, rfl⟩ := List.map_eq_cons_iff.1 stands.filled.symm
    have standing := stands.child (.head _)
    obtain ⟨cid, ckind, cparts⟩ := c
    refine .kind standing.held ?_
    split
    · obtain ⟨source, rfl, rfl⟩ := List.map_eq_singleton_iff.1 standing.filled.symm
      have opened : Rebuilt w.arena w.arena _ (source :: rest) := built.parts
      refine ((call_makes id _ there opened.stand opened.once).weaken fun e other miscalled => other (.call miscalled)).bind ?_
      rintro _ w' ⟨later, t', rfl, made', called⟩
      exact .pure (made ⟨later, t', rfl, opened.trans made', called⟩ fun d t' called => .call called)
    · rename_i other
      refine .pure (kept ⟨by simp, by simp, fun _ _ _ s here member x => ?_⟩)
      obtain rfl : _ = s := Option.some_injective _ here
      exact other member x
  · rename_i unmarked noAccess noCall
    exact .pure (kept ⟨unmarked, fun s p same => absurd same (noAccess s p), fun c args same => absurd same (noCall c args)⟩)

end Rows

def Kind.isMarker : Kind → Bool
  | rows _ => true
  | _ => false

@[simp] theorem Kind.isMarker_withChildren (k : Kind) (filled : List NodeId) :
    (k.withChildren filled).isMarker = k.isMarker := by
  unfold withChildren
  split <;> rfl

namespace Rows

variable {w : Workspace RowsSummary}

theorem leave_datasets {lineage : Lineage} {r : Option NodeId} {w' : Workspace RowsSummary} (stands : t.StandsIn w.arena)
    (done : leave t.id lineage () w = .ok r w') : w'.notes.datasets = w.notes.datasets + t.kind.isMarker.toNat := by
  rw [leave, bind_of_ok (Pass.kind_of_some stands.kind)] at done
  generalize t.kind = k at done
  split at done
  · obtain ⟨_, _, ran, done⟩ := bind_eq_ok.1 done
    cases done
    obtain ⟨_, _, seen, ran⟩ := bind_eq_ok.1 ran
    cases seen
    cases found : w.arena.definitionOf? _ with
    | none =>
      rw [found] at ran
      cases ran
    | some table =>
      rw [found] at ran
      cases ran
      rfl
  · exact (intent_calm ..).keeps done
  · obtain ⟨l, _, seen, called⟩ := bind_eq_ok.1 done
    obtain ⟨rfl, -⟩ := Pass.kind_run seen
    split at called
    · obtain ⟨_, _, ran, last⟩ := bind_eq_ok.1 called
      cases last
      exact (call_calm ..).keeps ran
    · cases called
      rfl
  · rename_i unmarked _ _
    cases done
    cases k with
    | rows operand => exact (unmarked operand rfl).elim
    | _ => rfl

theorem Called.makes {node : NodeId} {source t' : Tree} {member : RowMember} {args : List Tree}
    (called : Called a d node source member args t') : member.Makes t'.kind := by
  have aggregate {a : Arena} {function source initial : Tree} (made : Aggregated a d function source initial t') :
      t'.kind.isAggregate = true := by
    obtain ⟨_, _, _, _, _, _, _, _, _, _, -, -, -, -, -, -, -, rfl⟩ := made
    rfl
  cases called with
  | filter made => cases made <;> rfl
  | includes _ _ _ _ _ made => exact aggregate made
  | reduce made => exact aggregate made

theorem Left.turned {t' : Tree} (left : Left a d t t') : t.Turned t' := by
  cases left with
  | idle idle => exact .same idle.unmarked
  | dataset => exact .dataset rfl rfl
  | intent collection => exact .intent collection rfl
  | call called => exact .call (c := .node _ _ _) rfl called.makes

/-- Trees are walked one after the other, and each is left once what is below it is done. -/
inductive Walked : Arena → List Tree → List Tree → Arena → Prop
  | nil (a : Arena) : Walked a [] [] a
  | cons {a b c d e : Arena} {id : NodeId} {kind : Kind} {parts parts' ts ts' : List Tree} {t' : Tree}
    (below : Walked a parts parts' b)
    (written : (if parts'.map Tree.id = kind.children then b else b.setKind id (kind.withChildren (parts'.map Tree.id))) = c)
    (done : Rewritten a c (.node id kind parts) (.node id (kind.withChildren (parts'.map Tree.id)) parts'))
    (later : c.Retains d) (whole : Rewritten c d (.node id (kind.withChildren (parts'.map Tree.id)) parts') t')
    (left : Left c d (.node id (kind.withChildren (parts'.map Tree.id)) parts') t') (rest : Walked d ts ts' e) :
    Walked a (.node id kind parts :: ts) (t' :: ts') e

theorem Walked.append {ts' us' : List Tree} (first : Walked a ts ts' b) (second : Walked b us us' d) :
    Walked a (ts ++ us) (ts' ++ us') d := by
  induction first with
  | nil => exact second
  | cons below written done later whole left _ _ ih => exact .cons below written done later whole left (ih second)

theorem Walked.length_eq {ts' : List Tree} (walked : Walked a ts ts' b) : ts'.length = ts.length := by
  induction walked with
  | nil => rfl
  | cons _ _ _ _ _ _ _ _ ih => rw [List.length_cons, ih, List.length_cons]

end Rows

def Arena.isMarked (a : Arena) (x : NodeId) : Bool := (a.kind? x).any Kind.isMarker

end DerivedTables
