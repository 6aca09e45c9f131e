import DerivedTables.Proofs.Lowering.Continued
import DerivedTables.Proofs.Lowering.Faults
import DerivedTables.Proofs.Tree.Ends
import DerivedTables.Proofs.Tree.Growth
import DerivedTables.Proofs.Tree.Unsplit

/-!
Which expressions are lowered, and to which trees.
-/

namespace DerivedTables

open Lowering Tree

def ParamsLower (params : List Param) (ts : List Tree) : Prop :=
  List.Forall₂ (fun param t => ∃ id, t = node id (.param param.name (param.declared.map declaredTy)) [])
    params ts

mutual
def Expr.Lowers : Expr → Tree → Prop
  | .string _ value, t => ∃ id, t = node id (.string value) []
  | .number _ value, t => ∃ id, t = node id (.number value) []
  | .boolean _ value, t => ∃ id, t = node id (.boolean value) []
  | .identifier _ name, t => ∃ id, t = node id (.identifier name) []
  | .context _ name, t => ∃ id, t = node id (.context name) []
  | .binary _ op lhs rhs, t => ∃ id l r, lhs.Lowers l ∧ rhs.Lowers r ∧
      t = node id (.binary op l.id r.id) [l, r]
  | .member _ object property, t => ∃ id name o, object.Lowers o ∧
      t = node id (.access o.id name) [o, node name (.identifier property) []]
  | .lambda _ params body, t => ∃ id ps b, ParamsLower params ps ∧ body.Lowers b ∧
      t = node id (.function none (ps.map Tree.id) b.id) (ps ++ [b])
  | .call _ callee args, t => ∃ id f ts, callee.Lowers f ∧ ArgsLower args ts ∧
      t = node id (.invoke f.id (ts.map Tree.id)) (f :: ts)
  | .ifThen _ condition thenBranch, t => ∃ id c y n, condition.Lowers c ∧ thenBranch.Lowers y ∧
      t = node id (.conditional c.id y.id n) [c, y, node n .null []]
  | .ifElse _ condition thenBranch elseBranch, t => ∃ id c y n,
      condition.Lowers c ∧ thenBranch.Lowers y ∧ elseBranch.Lowers n ∧
      t = node id (.conditional c.id y.id n.id) [c, y, n]
  | .binding .., _ => False
  | .block _ exprs, t => BlockLowers exprs t
  | .ret _ value, t => value.Lowers t
  | .rows _ operand, t => ∃ id o, operand.Lowers o ∧ t = node id (.rows o.id) [o]
  | .paren _ inner, t => inner.Lowers t
def ArgsLower : List Expr → List Tree → Prop
  | [], ts => ts = []
  | arg :: rest, ts => ∃ t others, arg.Lowers t ∧ ArgsLower rest others ∧ ts = t :: others
def BlockLowers : List Expr → Tree → Prop
  | [], t => ∃ id, t = node id .null []
  | [.ret _ value], t => value.Lowers t
  | .ret _ _ :: _, _ => False
  | .binding _ name value :: rest, t => ∃ id v next, value.Lowers v ∧ BlockLowers rest next ∧
      next.id < id ∧ t = node id (.binding name v.id next.id) [v, next]
  | .ifThen _ condition thenBranch :: rest, t => ∃ id c y next,
      condition.Lowers c ∧ thenBranch.Lowers y ∧ BlockLowers rest next ∧
      t = node id (.conditional c.id y.id next.id) [c, y, next]
  | .ifElse _ condition thenBranch elseBranch :: rest, t => ∃ id k, ∃ count : Nat, ∃ c y n next joined,
      condition.Lowers c ∧ thenBranch.Lowers y ∧ elseBranch.Lowers n ∧ BlockLowers rest next ∧
      Continued (· ∈ endingsOf (.conditional c.id y.id n.id) [c, y, n]) id
        ("$system_" ++ toString count) (node k (.conditional c.id y.id n.id) [c, y, n]) joined ∧
      id < k ∧ t = node id (.binding ("$system_" ++ toString count) next.id joined.id) [next, joined]
  | expr :: rest, t => ∃ id e next, expr.Lowers e ∧ BlockLowers rest next ∧
      t = node id (.effect e.id next.id) [e, next]
end

namespace Lowering

variable {w w' : Workspace Nat} {r : NodeId}

theorem lowerBlock_ifElse {span : Option Span} {condition thenBranch elseBranch : Expr}
    {rest : List Expr}
    (done : lowerBlock (.ifElse span condition thenBranch elseBranch :: rest) w = .ok r w') :
    ∃ next w₁ c w₂ y w₃ n w₄ joined w₅,
      lowerBlock rest w = .ok next w₁ ∧ r = w₁.arena.size ∧
      lowerExpr condition ⟨w₁.arena.push ⟨.null, none, span⟩, w₁.notes + 1⟩ = .ok c w₂ ∧
      lowerExpr thenBranch w₂ = .ok y w₃ ∧ lowerExpr elseBranch w₃ = .ok n w₄ ∧
      (fallThrough r ("$system_" ++ toString w₁.notes)).walk w₄.arena.size false
        ⟨w₄.arena.push ⟨.conditional c y n, none, span⟩, w₄.notes⟩ = .ok joined w₅ ∧
      w' = ⟨w₅.arena.setKind r (.binding ("$system_" ++ toString w₁.notes) next joined), w₅.notes⟩ := by
  rw [lowerBlock] at done
  obtain ⟨next, w₁, lowered, done⟩ := bind_eq_ok.1 done
  obtain ⟨name, _, named, done⟩ := bind_eq_ok.1 done
  cases named
  obtain ⟨_, _, aside, done⟩ := bind_eq_ok.1 done
  cases aside
  obtain ⟨c, w₂, test, done⟩ := bind_eq_ok.1 done
  obtain ⟨y, w₃, hit, done⟩ := bind_eq_ok.1 done
  obtain ⟨n, w₄, miss, done⟩ := bind_eq_ok.1 done
  obtain ⟨_, _, made, done⟩ := bind_eq_ok.1 done
  cases made
  obtain ⟨joined, w₅, walked, done⟩ := bind_eq_ok.1 done
  obtain ⟨_, _, filled, done⟩ := bind_eq_ok.1 done
  cases filled
  cases done
  exact ⟨next, w₁, c, w₂, y, w₃, n, w₄, joined, w₅, lowered, rfl, test, hit, miss, walked, rfl⟩

theorem conditional_grown {a b c d : Arena} {tc ty tn : Tree} (test : Grown a b tc) (hit : Grown b c ty)
    (miss : Grown c d tn) (span : Option Span) : Grown a (d.push ⟨.conditional tc.id ty.id tn.id, none, span⟩)
    (node d.size (.conditional tc.id ty.id tn.id) [tc, ty, tn]) :=
  ((test.single.append hit.single).append miss.single).node rfl

theorem joined_grown {a b c d e : Arena} {next tc ty tn : Tree} {span : Option Span} {name : String}
    {notes : Nat} {joined : NodeId} {w : Workspace Nat}
    (after : Grown a b next) (test : Grown (b.push ⟨.null, none, span⟩) c tc) (hit : Grown c d ty) (miss : Grown d e tn)
    (walked : (fallThrough b.size name).walk e.size false
      ⟨e.push ⟨.conditional tc.id ty.id tn.id, none, span⟩, notes⟩ = .ok joined w) : ∃ t, t.id = joined ∧
      Continued (· ∈ endingsOf (.conditional tc.id ty.id tn.id) [tc, ty, tn]) b.size name
        (node e.size (.conditional tc.id ty.id tn.id) [tc, ty, tn]) t ∧
      Grown a (w.arena.setKind b.size (.binding name next.id joined))
        (node b.size (.binding name next.id joined) [next, t]) := by
  have whole := conditional_grown test hit miss span
  obtain ⟨t, rfl, rewritten, continued⟩ := walk_fallThrough whole.stands whole.once walked
  have spliced := whole.rewritten rewritten
  have parts : GrownAll a w.arena [next, t] :=
    (after.single.append (.nil (b.extends_push _))).append spliced.single
  refine ⟨t, rfl, continued, parts.fill (spliced.larger.kind_of_some (b.kind?_push_size _))
    after.larger.size ?_ rfl⟩
  intro listed
  obtain listed | listed := List.mem_append.1 listed
  · exact (after.stands.lt_size _ listed).ne rfl
  · rw [idsOf_singleton] at listed
    have beyond := spliced.fresh _ listed
    rw [Arena.size_push] at beyond
    exact Nat.not_succ_le_self _ beyond

theorem fallThrough_calm (p : Prop) (binding : NodeId) (name : String) : (fallThrough binding name).Calm p := by
  refine ⟨fun id lineage state => .bind (.kind _) fun k => ?_, fun id lineage state => .bind (.kind _) fun k =>
    .bind .arena fun a => ?_⟩
  · split <;> exact .pure _
  · split
    · split
      · exact .bind (.push rfl) fun _ => .pure _
      · exact .pure _
    · exact .pure _

theorem exists_joined {id binding condition thenBranch elseBranch : NodeId} {name : String} {parts : List Tree}
    (stands : (node id (.conditional condition thenBranch elseBranch) parts).StandsIn w.arena)
    (once : (node id (.conditional condition thenBranch elseBranch) parts).ids.Nodup) :
    ∃ joined w', (fallThrough binding name).walk id false w = .ok joined w' ∧ (w.arena.Unsplit → w'.arena.Unsplit) := by
  obtain ⟨t', w', visited, -⟩ := visit_node (fun t _ => fallsThrough binding name t) [] rfl (by simp)
    ((Nat.le_succ (heightOf parts)).trans (stands.height_le_size once)) stands once
  have walked : (fallThrough binding name).walk id false w = .ok t'.id w' := (bind_of_ok (Pass.arena_run w)).trans visited
  exact ⟨_, _, walked, fun start => (((fallThrough_calm _ _ _).walk _ _).run start walked).1⟩

section Judging

variable {α β : Type} {faults others : TreeError → Prop} {m : LowerPass α} {f : α → LowerPass β}
  {mid post : α → Workspace Nat → Prop} {last : β → Workspace Nat → Prop}

def Judges (faults : TreeError → Prop) (m : LowerPass α) (w : Workspace Nat) (post : α → Workspace Nat → Prop) : Prop :=
  Pass.Ends (fun e => ¬ faults e) m w fun x w' =>
    ((∀ e, ¬ faults e) ∧ (w.arena.Unsplit → w'.arena.Unsplit)) ∧ post x w'

namespace Judges

theorem run {x : α} (judges : Judges faults m w post) (done : m w = .ok x w') : post x w' := (judges.ok done).2

theorem mono (judges : Judges faults m w post) (listed : ∀ e, faults e → others e)
    (seen : ∀ e, others e → ∃ e', faults e') : Judges others m w post where
  ok done :=
    have ⟨⟨sound, kept⟩, here⟩ := judges.ok done
    ⟨⟨fun e other => (seen e other).elim sound, kept⟩, here⟩
  error failed := not_not.2 (listed _ (not_not.1 (judges.error failed)))

theorem congr (judges : Judges faults m w post) (same : ∀ e, others e ↔ faults e) : Judges others m w post :=
  judges.mono (fun e => (same e).2) fun e other => ⟨e, (same e).1 other⟩

theorem bind (first : Judges faults m w mid) (second : ∀ x w', mid x w' → Judges others (f x) w' last) :
    Judges (fun e => faults e ∨ others e) (m >>= f) w last := by
  refine ⟨fun done => ?_, fun failed => ?_⟩
  · obtain ⟨x, w₁, ran, done⟩ := bind_eq_ok.1 done
    have ⟨⟨sound, kept⟩, here⟩ := first.ok ran
    have ⟨⟨sound', kept'⟩, there⟩ := (second x w₁ here).ok done
    exact ⟨⟨fun e => not_or.2 ⟨sound e, sound' e⟩, fun start => kept' (kept start)⟩, there⟩
  · obtain failed | ⟨x, w₁, ran, failed⟩ := bind_eq_error failed
    · exact not_not.2 (.inl (not_not.1 (first.error failed)))
    · exact not_not.2 (.inr (not_not.1 ((second x w₁ (first.run ran)).error failed)))

theorem done {x : α} (ran : m w = .ok x w') (kept : w.arena.Unsplit → w'.arena.Unsplit) (here : post x w') :
    Judges (Expr.AnyViolates []) m w post := .of_ok ran ⟨⟨by simp [Expr.AnyViolates], kept⟩, here⟩

theorem pure {x : α} (here : post x w) : Judges (Expr.AnyViolates []) (pure x) w post := .done rfl id here

theorem alloc {kind : Kind} {span : Option Span} {post : NodeId → Workspace Nat → Prop} (other : kind.isSplit = false)
    (here : post w.arena.size ⟨w.arena.push ⟨kind, none, span⟩, w.notes⟩) :
    Judges (Expr.AnyViolates []) (Pass.allocSpanned kind span) w post :=
  .done rfl (fun start => start.push (by simp [other])) here

theorem after (first : Judges (Expr.AnyViolates []) m w mid) (second : ∀ x w', mid x w' → Judges faults (f x) w' last) :
    Judges faults (m >>= f) w last :=
  (first.bind second).congr (by simp [Expr.AnyViolates])

theorem before (first : Judges faults m w mid) (second : ∀ x w', mid x w' → Judges (Expr.AnyViolates []) (f x) w' last) :
    Judges faults (m >>= f) w last :=
  (first.bind second).congr (by simp [Expr.AnyViolates])

theorem step {x : α} (ran : m w = .ok x w') (kept : w.arena.Unsplit → w'.arena.Unsplit)
    (rest : Judges faults (f x) w' last) : Judges faults (m >>= f) w last :=
  Pass.Ends.step ran (Pass.Ends.mono rest fun _ _ here => ⟨⟨here.1.1, fun start => here.1.2 (kept start)⟩, here.2⟩)

theorem make {kind : Kind} {span : Option Span} {f : NodeId → LowerPass β} (other : kind.isSplit = false)
    (rest : Judges faults (f w.arena.size) ⟨w.arena.push ⟨kind, none, span⟩, w.notes⟩ last) :
    Judges faults (Pass.allocSpanned kind span >>= f) w last :=
  .step rfl (fun start => start.push (by simp [other])) rest

theorem parts {e : Expr} (judges : Judges (Expr.AnyViolates e.parts) m w post) (block : e.isBlock = false)
    (other : e.isLet = false) : Judges e.Violates m w post :=
  judges.congr fun _ => Expr.violates_iff block other

theorem cons {γ : Type} {violates : γ → TreeError → Prop} {y : γ} {ys : List γ} (first : Judges (violates y) m w mid)
    (second : ∀ x w', mid x w' → Judges (fun fault => ∃ z ∈ ys, violates z fault) (f x) w' last) :
    Judges (fun fault => ∃ z ∈ y :: ys, violates z fault) (m >>= f) w last :=
  (first.bind second).congr (by simp)

theorem part {e : Expr} {es : List Expr} (first : Judges e.Violates m w mid)
    (second : ∀ x w', mid x w' → Judges (Expr.AnyViolates es) (f x) w' last) :
    Judges (Expr.AnyViolates (e :: es)) (m >>= f) w last := first.cons second

theorem element {e : Expr} {rest : List Expr} {span : Option Span} (other : e.isLet = false)
    (going : rest ≠ [] → ∀ place value, e ≠ .ret place value)
    (judges : Judges (fun fault => (Expr.block span rest).Violates fault ∨ e.Violates fault) m w post) :
    Judges (Expr.block span (e :: rest)).Violates m w post :=
  judges.congr fun _ => (Expr.violates_cons other going).trans or_comm

theorem throw (e : TreeError) : Judges (· = e) (throw e : LowerPass α) w post := Pass.Ends.throw (by simp)

theorem accepts (judges : Judges faults m w post) : ((∃ x w', m w = .ok x w') ↔ ∀ e, ¬ faults e) ∧
    ∀ e w', m w = .error e w' → faults e := by
  have named (e w') (failed : m w = .error e w') : faults e := not_not.1 (judges.error failed)
  refine ⟨⟨fun ⟨_, _, done⟩ => (judges.ok done).1.1, fun sound => ?_⟩, named⟩
  cases ran : m w with
  | ok x w' => exact ⟨x, w', rfl⟩
  | error e w' => exact absurd (named e w' ran) (sound e)

end Judges

end Judging

def Made (w : Workspace Nat) (shape : Tree → Prop) (r : NodeId) (w' : Workspace Nat) : Prop :=
  ∃ t, t.id = r ∧ Grown w.arena w'.arena t ∧ shape t

def MadeAll (w : Workspace Nat) (shape : List Tree → Prop) (made : List NodeId) (w' : Workspace Nat) : Prop :=
  ∃ ts, ts.map Tree.id = made ∧ GrownAll w.arena w'.arena ts ∧ shape ts

variable {shape : Tree → Prop} {kind : Kind} {span : Option Span}

theorem Judges.leaf (other : kind.isSplit = false) (slots : kind.children = []) (fits : ∀ id, shape (node id kind [])) :
    Judges (Expr.AnyViolates []) (Pass.allocSpanned kind span) w (Made w shape) :=
  .alloc other ⟨Tree.node w.arena.size kind [], rfl, .leaf w.arena slots, fits _⟩

theorem Judges.node {w₀ : Workspace Nat} {ts : List Tree} (other : kind.isSplit = false) (grown : GrownAll w₀.arena w.arena ts)
    (slots : kind.children = ts.map Tree.id) (fits : shape (Tree.node w.arena.size kind ts)) :
    Judges (Expr.AnyViolates []) (Pass.allocSpanned kind span) w (Made w₀ shape) :=
  .alloc other ⟨_, rfl, grown.node slots, fits⟩

theorem lowerParams_judged (params : List Param) (w : Workspace Nat) :
    Judges (Expr.AnyViolates []) (lowerParams params) w (MadeAll w (ParamsLower params)) := by
  induction params generalizing w with
  | nil => exact .pure ⟨[], rfl, .nil (.refl _), .nil⟩
  | cons param rest ih =>
    rw [lowerParams, List.mapM_cons]
    refine .make rfl ((ih _).before ?_)
    rintro _ w₂ ⟨ts, rfl, grown, lowers⟩
    have leaf := Grown.leaf w.arena
      (n := ⟨.param param.name (param.declared.map declaredTy), none, param.span⟩) rfl
    exact .pure ⟨_ :: ts, rfl, leaf.single.append grown, .cons ⟨_, rfl⟩ lowers⟩

/-- Along the recursion of lowering: expressions, blocks, arguments. -/
theorem lowering_judged : (∀ e w, Judges e.Violates (lowerExpr e) w (Made w e.Lowers)) ∧
    (∀ es span w, Judges (Expr.block span es).Violates (lowerBlock es) w (Made w (BlockLowers es))) ∧
    ∀ es w, Judges (Expr.AnyViolates es) (lowerArgs es) w (MadeAll w (ArgsLower es)) := by
  refine lowerExpr.mutual_induct _ _ _ ?string ?number ?boolean ?identifier ?context ?binary ?member
    ?lambda ?call ?ifThen ?ifElse ?binding ?block ?ret ?rows ?paren ?nil ?last ?early ?letThen
    ?ifThenThen ?ifElseThen ?effectThen ?none ?more
  case string | number | boolean | identifier | context =>
    intros
    rw [lowerExpr]
    refine .parts (.leaf rfl rfl fun id => ?_) rfl rfl
    rw [Expr.Lowers]
    exact ⟨id, rfl⟩
  case binary =>
    intro span op lhs rhs left right w
    rw [lowerExpr]
    refine .parts ((left w).part ?_) rfl rfl
    rintro _ w₁ ⟨l, rfl, lgrown, lhs⟩
    refine (right w₁).part ?_
    rintro _ w₂ ⟨r, rfl, rgrown, rhs⟩
    refine .node rfl (lgrown.single.append rgrown.single) rfl ?_
    rw [Expr.Lowers]
    exact ⟨_, l, r, lhs, rhs, rfl⟩
  case member =>
    intro span object property inside w
    rw [lowerExpr]
    refine .parts ((inside w).part ?_) rfl rfl
    rintro _ w₁ ⟨o, rfl, grown, lowers⟩
    have name := Grown.leaf w₁.arena (n := ⟨.identifier property, none, none⟩) rfl
    refine .make rfl (.node rfl (grown.single.append name.single) rfl ?_)
    rw [Expr.Lowers]
    exact ⟨_, _, o, lowers, rfl⟩
  case lambda =>
    intro span params body inside w
    rw [lowerExpr]
    refine .parts ((lowerParams_judged params w).after ?_) rfl rfl
    rintro _ w₁ ⟨ps, rfl, pgrown, leaves⟩
    refine (inside w₁).part ?_
    rintro _ w₂ ⟨b, rfl, bgrown, lowers⟩
    refine .node rfl (pgrown.append bgrown.single) (by simp [Kind.children]) ?_
    rw [Expr.Lowers]
    exact ⟨_, ps, b, leaves, lowers, rfl⟩
  case call =>
    intro span callee args function given w
    rw [lowerExpr]
    refine .parts ((function w).part ?_) rfl rfl
    rintro _ w₁ ⟨f, rfl, fgrown, lowers⟩
    refine (given w₁).before ?_
    rintro _ w₂ ⟨ts, rfl, tgrown, others⟩
    refine .node rfl (fgrown.single.append tgrown) rfl ?_
    rw [Expr.Lowers]
    exact ⟨_, f, ts, lowers, others, rfl⟩
  case ifThen =>
    intro span condition thenBranch test hit w
    rw [lowerExpr]
    refine .parts ((test w).part ?_) rfl rfl
    rintro _ w₁ ⟨c, rfl, cgrown, tested⟩
    refine (hit w₁).part ?_
    rintro _ w₂ ⟨y, rfl, ygrown, taken⟩
    have null := Grown.leaf w₂.arena (n := ⟨.null, none, none⟩) rfl
    refine .make rfl (.node rfl ((cgrown.single.append ygrown.single).append null.single) rfl ?_)
    rw [Expr.Lowers]
    exact ⟨_, c, y, _, tested, taken, rfl⟩
  case ifElse =>
    intro span condition thenBranch elseBranch test hit miss w
    rw [lowerExpr]
    refine .parts ((test w).part ?_) rfl rfl
    rintro _ w₁ ⟨c, rfl, cgrown, tested⟩
    refine (hit w₁).part ?_
    rintro _ w₂ ⟨y, rfl, ygrown, taken⟩
    refine (miss w₂).part ?_
    rintro _ w₃ ⟨n, rfl, ngrown, passed⟩
    refine .node rfl ((cgrown.single.append ygrown.single).append ngrown.single) rfl ?_
    rw [Expr.Lowers]
    exact ⟨_, c, y, n, tested, taken, passed, rfl⟩
  case binding =>
    intro span name value w
    rw [lowerExpr]
    exact (Judges.throw _).mono (fun _ same => same ▸ .stray span name value) fun _ _ => ⟨_, rfl⟩
  case block =>
    intro span exprs inside w
    rw [lowerExpr, show (Expr.block span exprs).Lowers = BlockLowers exprs by funext t; rw [Expr.Lowers]]
    exact inside span w
  case ret =>
    intro span value inside w
    rw [lowerExpr, show (Expr.ret span value).Lowers = value.Lowers by funext t; rw [Expr.Lowers]]
    exact .parts ((inside w).congr (by simp [Expr.AnyViolates, Expr.parts])) rfl rfl
  case paren =>
    intro span value inside w
    rw [lowerExpr, show (Expr.paren span value).Lowers = value.Lowers by funext t; rw [Expr.Lowers]]
    exact .parts ((inside w).congr (by simp [Expr.AnyViolates, Expr.parts])) rfl rfl
  case rows =>
    intro span operand inside w
    rw [lowerExpr]
    refine .parts ((inside w).part ?_) rfl rfl
    rintro _ w₁ ⟨o, rfl, grown, lowers⟩
    refine .node rfl grown.single rfl ?_
    rw [Expr.Lowers]
    exact ⟨_, o, lowers, rfl⟩
  case nil =>
    intro span w
    rw [lowerBlock]
    refine (Judges.leaf rfl rfl fun id => ?_).congr (by simp [Expr.AnyViolates, Expr.not_violates_empty])
    rw [BlockLowers]
    exact ⟨id, rfl⟩
  case last =>
    intro place value inside span w
    rw [lowerBlock, show BlockLowers [.ret place value] = value.Lowers by funext t; rw [BlockLowers]]
    refine (inside w).congr fun fault => ?_
    rw [Expr.violates_cons rfl (by simp), or_iff_left Expr.not_violates_empty, Expr.violates_iff rfl rfl]
    simp [Expr.AnyViolates, Expr.parts]
  case early =>
    intro place value rest more after span w
    rw [lowerBlock]
    · have dropped : Judges _ (discard (lowerBlock rest)) w fun _ _ => True := (after span w).before fun _ _ _ => .pure trivial
      refine (dropped.bind fun _ _ _ => .throw _).mono ?_ fun _ _ => ⟨_, .inr rfl⟩
      rintro fault (violates | rfl)
      · exact .later violates
      · cases rest with
        | nil => exact (more rfl).elim
        | cons next rest => exact .early span place value next rest
    · exact more
  case letThen =>
    intro place name value rest after inside span w
    rw [lowerBlock]
    refine Judges.congr ((after span w).bind ?_) fun fault => Expr.violates_let.trans or_comm
    rintro _ w₁ ⟨next, rfl, ngrown, follows⟩
    refine (inside w₁).before ?_
    rintro _ w₂ ⟨v, rfl, vgrown, lowers⟩
    have earlier : next.id < w₂.arena.size :=
      (ngrown.stands.lt_size _ next.id_mem_ids).trans_le vgrown.larger.size
    refine .node rfl ((ngrown.single.append vgrown.single).perm (.swap ..)) rfl ?_
    rw [BlockLowers]
    exact ⟨_, v, next, lowers, follows, earlier, rfl⟩
  case ifThenThen =>
    intro place condition thenBranch rest after test hit span w
    rw [lowerBlock]
    refine Judges.element rfl (by simp) ((after span w).bind ?_)
    rintro _ w₁ ⟨next, rfl, ngrown, follows⟩
    refine .parts ((test w₁).part ?_) rfl rfl
    rintro _ w₂ ⟨c, rfl, cgrown, tested⟩
    refine (hit w₂).part ?_
    rintro _ w₃ ⟨y, rfl, ygrown, taken⟩
    have parts : GrownAll w.arena w₃.arena [c, y, next] :=
      ((ngrown.single.append cgrown.single).append ygrown.single).perm
        (List.perm_append_singleton next [c, y]).symm
    refine .node rfl parts rfl ?_
    rw [BlockLowers]
    exact ⟨_, c, y, next, tested, taken, follows, rfl⟩
  case ifElseThen =>
    intro place condition thenBranch elseBranch rest after test hit miss span w
    rw [lowerBlock]
    refine Judges.element rfl (by simp) ((after span w).bind ?_)
    rintro _ w₁ ⟨next, rfl, ngrown, follows⟩
    refine .parts (.step rfl id (.make rfl ((test _).part ?_))) rfl rfl
    rintro _ w₂ ⟨c, rfl, cgrown, tested⟩
    refine (hit w₂).part ?_
    rintro _ w₃ ⟨y, rfl, ygrown, taken⟩
    refine (miss w₃).part ?_
    rintro _ w₄ ⟨n, rfl, grown, passed⟩
    have whole := conditional_grown cgrown ygrown grown place
    obtain ⟨_, w₅, walked, kept⟩ := exists_joined (w := ⟨_, w₄.notes⟩) whole.stands whole.once
    obtain ⟨joined, rfl, continued, filled⟩ := joined_grown ngrown cgrown ygrown grown walked
    have later : w₁.arena.size < w₄.arena.size := by
      have larger := (cgrown.larger.size.trans ygrown.larger.size).trans grown.larger.size
      rwa [Arena.size_push] at larger
    refine .make rfl (.step walked kept (.done rfl (fun start => start.setKind (by simp [Kind.isSplit])) ⟨_, rfl, filled, ?_⟩))
    rw [BlockLowers]
    exact ⟨_, _, _, c, y, n, next, joined, tested, taken, passed, follows, continued, later, rfl⟩
  case effectThen =>
    intro expr rest _ noReturn noLet noIf noIfElse after inside span w
    rw [lowerBlock]
    · refine Judges.element (Expr.isLet_eq_false noLet) (fun _ place value => noReturn place value) ((after span w).bind ?_)
      rintro _ w₁ ⟨next, rfl, ngrown, follows⟩
      refine (inside w₁).before ?_
      rintro _ w₂ ⟨e, rfl, egrown, lowers⟩
      refine .node rfl ((ngrown.single.append egrown.single).perm (.swap ..)) rfl ?_
      rw [BlockLowers]
      · exact ⟨_, e, next, lowers, follows, rfl⟩
      all_goals assumption
    all_goals assumption
  case none =>
    intro w
    rw [lowerArgs]
    exact .pure ⟨[], rfl, .nil (.refl _), by rw [ArgsLower]⟩
  case more =>
    intro arg rest inside others w
    rw [lowerArgs]
    refine (inside w).part ?_
    rintro _ w₁ ⟨t, rfl, grown, lowers⟩
    refine (others w₁).before ?_
    rintro _ w₂ ⟨ts, rfl, tgrown, lower⟩
    exact .pure ⟨t :: ts, rfl, grown.single.append tgrown, by rw [ArgsLower]; exact ⟨t, ts, lowers, lower, rfl⟩⟩

end Lowering

end DerivedTables
