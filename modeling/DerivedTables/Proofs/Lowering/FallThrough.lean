import DerivedTables.Compilation.Compile
import DerivedTables.Proofs.Eval.Settled
import DerivedTables.Proofs.Lowering.Lowered
import DerivedTables.Tree.Item

/-!
Where an if with else falls through.
-/

namespace DerivedTables

open Lowering

namespace Tree

variable {parent : Kind}

/-- The nulls in tail position: of both branches of a conditional, of what follows a let or an
effect, and of the rest that a nested if with else binds. A let made before what follows it is one
of the latter. -/
@[simp] def tails : Tree → List NodeId
  | node id .null _ => [id]
  | node _ (.conditional ..) [_, thenBranch, elseBranch] => thenBranch.tails ++ elseBranch.tails
  | node _ (.effect ..) [_, next] => next.tails
  | node id (.binding ..) [value, next] => (if id < next.id then value.tails else []) ++ next.tails
  | _ => []

def itselfIfNull : Tree → List NodeId
  | node id .null _ => [id]
  | _ => []

/-- The nulls in tail position that are a then branch or the bound rest of a nested if with else. -/
@[simp] def overlooked : Tree → List NodeId
  | node _ (.conditional ..) [_, thenBranch, elseBranch] =>
    thenBranch.itselfIfNull ++ thenBranch.overlooked ++ elseBranch.overlooked
  | node _ (.effect ..) [_, next] => next.overlooked
  | node id (.binding ..) [value, next] =>
    (if id < next.id then value.itselfIfNull ++ value.overlooked else []) ++ next.overlooked
  | _ => []

/-- The nulls that look like the end of a branch, but in a condition, an operand, a discarded
statement or the value of a let. -/
@[simp] def strays : Tree → List NodeId
  | node _ .null _ => []
  | node _ (.conditional c y n) [condition, thenBranch, elseBranch] =>
    condition.endings (.conditional c y n) ++ thenBranch.strays ++ elseBranch.strays
  | node _ (.effect e k) [expr, next] => expr.endings (.effect e k) ++ next.strays
  | node id (.binding name v k) [value, next] =>
    (if id < next.id then value.strays else value.endings (.binding name v k)) ++ next.strays
  | t => t.endings .null

variable {a : Arena} {x : NodeId} {t : Tree}

theorem itself_tails (listed : x ∈ t.itselfIfNull) : x ∈ t.tails := by
  unfold itselfIfNull at listed
  split at listed
  · exact listed
  · cases listed

theorem id_of_itself (listed : x ∈ t.itselfIfNull) : x = t.id := by
  unfold itselfIfNull at listed
  split at listed
  · simpa using listed
  · cases listed

theorem tails_nulls (listed : x ∈ t.tails) : x ∈ t.nulls := by
  induction t using tails.induct with
  | case1 => exact listed
  | case2 id c y n tc ty tn yes no =>
    simp only [tails, nulls, nullsOf, List.mem_append] at listed ⊢
    grind
  | case3 id e k te tk next =>
    simp only [tails, nulls, nullsOf, List.mem_append] at listed ⊢
    grind
  | case4 id name v k tv tk value next =>
    simp only [tails, nulls, nullsOf, List.mem_append] at listed ⊢
    grind
  | case5 => rw [tails] at listed <;> first | cases listed | assumption

theorem overlooked_tails (listed : x ∈ t.overlooked) : x ∈ t.tails := by
  induction t using tails.induct with
  | case1 => cases listed
  | case2 id c y n tc ty tn yes no =>
    simp only [tails, overlooked, List.mem_append] at listed ⊢
    grind [itself_tails]
  | case3 id e k te tk next => exact next listed
  | case4 id name v k tv tk value next =>
    simp only [tails, overlooked, List.mem_append] at listed ⊢
    grind [itself_tails]
  | case5 => rw [overlooked] at listed <;> first | cases listed | assumption

theorem strays_nulls (listed : x ∈ t.strays) : x ∈ t.nulls := by
  induction t using tails.induct with
  | case1 => cases listed
  | case2 id c y n tc ty tn yes no =>
    simp only [strays, nulls, nullsOf, List.mem_append] at listed ⊢
    grind [endings_nulls]
  | case3 id e k te tk next =>
    simp only [strays, nulls, nullsOf, List.mem_append] at listed ⊢
    grind [endings_nulls]
  | case4 id name v k tv tk value next =>
    simp only [strays, nulls, nullsOf, List.mem_append] at listed ⊢
    grind [endings_nulls]
  | case5 => rw [strays] at listed <;> first | exact endings_nulls listed | assumption

theorem endings_split (listed : x ∈ t.endings parent) : x ∈ t.tails ∨ x ∈ t.strays := by
  induction t using tails.induct generalizing parent with
  | case1 id parts =>
    refine .inl ?_
    unfold endings at listed
    split at listed
    · exact listed
    · cases listed
  | case2 id c y n tc ty tn yes no =>
    simp only [endings, endingsOf, tails, strays, List.mem_append] at listed ⊢
    grind
  | case3 id e k te tk next =>
    simp only [endings, endingsOf, tails, strays, List.mem_append] at listed ⊢
    grind
  | case4 id name v k tv tk value next =>
    simp only [endings, endingsOf, tails, strays, List.mem_append] at listed ⊢
    grind
  | case5 t noNull noConditional noEffect noBinding =>
    rw [strays]
    · refine .inr ?_
      obtain ⟨id, kind, parts⟩ := t
      cases kind <;> first | exact listed | exact absurd rfl (noNull id parts)
    all_goals assumption

theorem strays_endings (listed : x ∈ t.strays) : x ∈ t.endings parent := by
  induction t using tails.induct generalizing parent with
  | case1 id parts => cases listed
  | case2 id c y n tc ty tn yes no =>
    simp only [endings, endingsOf, strays, List.mem_append] at listed ⊢
    grind
  | case3 id e k te tk next =>
    simp only [endings, endingsOf, strays, List.mem_append] at listed ⊢
    grind
  | case4 id name v k tv tk value next =>
    simp only [endings, endingsOf, strays, List.mem_append] at listed ⊢
    grind
  | case5 t noNull noConditional noEffect noBinding =>
    rw [strays] at listed
    · obtain ⟨id, kind, parts⟩ := t
      cases kind <;> first | exact listed | exact absurd rfl (noNull id parts)
    all_goals assumption

theorem tails_found (stands : t.StandsIn a) (tail : x ∈ t.tails) (kept : x ∉ t.overlooked)
    (ends : x ∈ t.itselfIfNull → endsBranch parent x) : x ∈ t.endings parent := by
  induction t using tails.induct generalizing parent with
  | case1 id parts =>
    obtain rfl : x = id := by simpa [tails] using tail
    simp [endings, ends (by simp [itselfIfNull])]
  | case2 id c y n tc ty tn yes no =>
    have slots := stands.filled
    simp only [Kind.children, List.map_cons, List.map_nil, List.cons.injEq, and_true] at slots
    obtain ⟨rfl, rfl, rfl⟩ := slots
    simp only [overlooked, List.mem_append, not_or] at kept
    obtain tail | tail := List.mem_append.1 tail
    · exact mem_endingsOf.2 ⟨ty, by simp, yes (stands.child (by simp)) tail kept.1.2 fun here => absurd here kept.1.1⟩
    · refine mem_endingsOf.2 ⟨tn, by simp, no (stands.child (by simp)) tail kept.2 fun here => ?_⟩
      simp [endsBranch, id_of_itself here]
  | case3 id e k te tk next =>
    have slots := stands.filled
    simp only [Kind.children, List.map_cons, List.map_nil, List.cons.injEq, and_true] at slots
    obtain ⟨rfl, rfl⟩ := slots
    refine mem_endingsOf.2 ⟨tk, by simp, next (stands.child (by simp)) tail kept fun here => ?_⟩
    simp [endsBranch, id_of_itself here]
  | case4 id name v k tv tk value next =>
    have slots := stands.filled
    simp only [Kind.children, List.map_cons, List.map_nil, List.cons.injEq, and_true] at slots
    obtain ⟨rfl, rfl⟩ := slots
    simp only [overlooked, List.mem_append, not_or] at kept
    obtain tail | tail := List.mem_append.1 tail
    · split at tail
      · rename_i later
        rw [if_pos later, List.mem_append, not_or] at kept
        exact mem_endingsOf.2 ⟨tv, by simp, value (stands.child (by simp)) tail kept.1.2 fun here =>
          absurd here kept.1.1⟩
      · cases tail
    · refine mem_endingsOf.2 ⟨tk, by simp, next (stands.child (by simp)) tail kept.2 fun here => ?_⟩
      simp [endsBranch, id_of_itself here]
  | case5 t noNull noConditional noEffect noBinding =>
    rw [tails] at tail
    · cases tail
    all_goals assumption

theorem endings_subset (listed : x ∈ t.endings parent) : x ∈ t.ids :=
  nulls_subset (endings_nulls listed)

theorem tails_subset (listed : x ∈ t.tails) : x ∈ t.ids := nulls_subset (tails_nulls listed)

theorem strays_subset (listed : x ∈ t.strays) : x ∈ t.ids := nulls_subset (strays_nulls listed)

theorem overlooked_subset (listed : x ∈ t.overlooked) : x ∈ t.ids :=
  tails_subset (overlooked_tails listed)

theorem tail_not_stray (once : t.ids.Nodup) (tail : x ∈ t.tails) : x ∉ t.strays := by
  induction t using tails.induct with
  | case1 => simp [strays]
  | case2 id c y n tc ty tn yes no =>
    simp only [ids, idsOf, List.nodup_cons, List.nodup_append, List.append_nil] at once
    simp only [tails, strays, List.mem_append, not_or] at tail ⊢
    grind [→ endings_subset, → tails_subset, → strays_subset]
  | case3 id e k te tk next =>
    simp only [ids, idsOf, List.nodup_cons, List.nodup_append, List.append_nil] at once
    simp only [tails, strays, List.mem_append, not_or] at tail ⊢
    grind [→ endings_subset, → tails_subset, → strays_subset]
  | case4 id name v k tv tk value next =>
    simp only [ids, idsOf, List.nodup_cons, List.nodup_append, List.append_nil] at once
    simp only [tails, strays, List.mem_append, not_or] at tail ⊢
    grind [→ endings_subset, → tails_subset, → strays_subset]
  | case5 t noNull noConditional noEffect noBinding =>
    rw [tails] at tail
    · cases tail
    all_goals assumption

theorem endings_itself (listed : x ∈ t.itselfIfNull) (passes : endsBranch parent t.id = false) :
    t.endings parent = [] := by
  unfold itselfIfNull at listed
  split at listed
  · rw [endings, if_neg (by simpa using passes)]
  · cases listed

theorem overlooked_not_found (stands : t.StandsIn a) (once : t.ids.Nodup)
    (passed : x ∈ t.overlooked) : x ∉ t.endings parent := by
  induction t using tails.induct generalizing parent with
  | case1 => cases passed
  | case2 id c y n tc ty tn yes no =>
    have slots := stands.filled
    simp only [Kind.children, List.map_cons, List.map_nil, List.cons.injEq, and_true] at slots
    obtain ⟨rfl, rfl, rfl⟩ := slots
    have yes := @yes (.conditional tc.id ty.id tn.id) (stands.child (by simp))
    have no := @no (.conditional tc.id ty.id tn.id) (stands.child (by simp))
    simp only [ids, idsOf, List.nodup_cons, List.nodup_append, List.append_nil] at once
    have differ : tn.id ≠ ty.id :=
      (once.2.2.1.2.2 ty.id ty.id_mem_ids tn.id tn.id_mem_ids).symm
    have thenPasses : endsBranch (.conditional tc.id ty.id tn.id) ty.id = false := by
      simpa [endsBranch] using differ
    simp only [endings, endingsOf, overlooked, List.mem_append, List.append_nil, not_or] at passed ⊢
    grind [→ endings_subset, → overlooked_subset, → id_of_itself, endings_itself, id_mem_ids]
  | case3 id e k te tk next =>
    have next := @next (.effect e k) (stands.child (by simp))
    simp only [ids, idsOf, List.nodup_cons, List.nodup_append, List.append_nil] at once
    simp only [endings, endingsOf, overlooked, List.mem_append, List.append_nil, not_or] at passed ⊢
    grind [→ endings_subset, → overlooked_subset]
  | case4 id name v k tv tk value next =>
    have slots := stands.filled
    simp only [Kind.children, List.map_cons, List.map_nil, List.cons.injEq, and_true] at slots
    obtain ⟨rfl, rfl⟩ := slots
    have value := @value (.binding name tv.id tk.id) (stands.child (by simp))
    have next := @next (.binding name tv.id tk.id) (stands.child (by simp))
    simp only [ids, idsOf, List.nodup_cons, List.nodup_append, List.append_nil] at once
    have differ : tk.id ≠ tv.id :=
      (once.2.2.2 tv.id tv.id_mem_ids tk.id tk.id_mem_ids).symm
    have valuePasses : endsBranch (.binding name tv.id tk.id) tv.id = false := by
      simpa [endsBranch] using differ
    simp only [endings, endingsOf, overlooked, List.mem_append, List.append_nil, not_or] at passed ⊢
    grind [→ endings_subset, → overlooked_subset, → id_of_itself, endings_itself, id_mem_ids]
  | case5 t noNull noConditional noEffect noBinding =>
    rw [overlooked] at passed
    · cases passed
    all_goals assumption

/-- What the walk takes for the ends of branches is what is in tail position exactly if it overlooks
nothing there and finds nothing elsewhere. -/
theorem endings_eq_tails_iff (parent : Kind) (stands : t.StandsIn a) (once : t.ids.Nodup)
    (other : t.itselfIfNull = []) : (∀ x, x ∈ t.endings parent ↔ x ∈ t.tails) ↔ t.overlooked = [] ∧ t.strays = [] := by
  constructor
  · intro same
    refine ⟨List.eq_nil_iff_forall_not_mem.2 fun x passed => ?_,
      List.eq_nil_iff_forall_not_mem.2 fun x stray => ?_⟩
    · exact overlooked_not_found stands once passed ((same x).2 (overlooked_tails passed))
    · exact tail_not_stray once ((same x).1 (strays_endings stray)) stray
  · rintro ⟨nothing, nowhere⟩ x
    refine ⟨fun found => (endings_split found).resolve_right (by simp [nowhere]), fun tail => ?_⟩
    exact tails_found stands tail (by simp [nothing]) (by simp [other])

end Tree

/-- An if with else is a let of the rest over the conditional, in which exactly the nulls that look
like the end of a branch go on with the let. These are the nulls in tail position of its branches
if and only if no then branch and no rest of a nested if with else is a null there, and no null
anywhere else looks like an end. -/
theorem ifElse_continues_at_endings {span : Option Span} {condition thenBranch elseBranch : Expr}
    {rest : List Expr} {w w' : Workspace Nat} {r : NodeId}
    (done : lowerBlock (.ifElse span condition thenBranch elseBranch :: rest) w = .ok r w') :
    ∃ next w₁ c w₂ y w₃ n w₄ k whole joined,
      lowerBlock rest w = .ok next.id w₁ ∧ next.StandsIn w₁.arena ∧
      lowerExpr condition ⟨w₁.arena.push ⟨.null, none, span⟩, w₁.notes + 1⟩ = .ok c.id w₂ ∧
      c.StandsIn w₂.arena ∧
      lowerExpr thenBranch w₂ = .ok y.id w₃ ∧ y.StandsIn w₃.arena ∧
      lowerExpr elseBranch w₃ = .ok n.id w₄ ∧ n.StandsIn w₄.arena ∧
      whole = Tree.node k (.conditional c.id y.id n.id) [c, y, n] ∧
      (Tree.node r (.binding ("$system_" ++ toString w₁.notes) next.id joined.id)
        [next, joined]).StandsIn w'.arena ∧
      Tree.Continued (· ∈ whole.endings .null) r ("$system_" ++ toString w₁.notes) whole joined ∧
      (Tree.Continued (· ∈ y.tails ++ n.tails) r ("$system_" ++ toString w₁.notes) whole joined ↔
        whole.overlooked = [] ∧ whole.strays = []) := by
  obtain ⟨_, w₁, _, w₂, _, w₃, _, w₄, _, w₅, lowered, rfl, first, second, third, walked, rfl⟩ :=
    lowerBlock_ifElse done
  obtain ⟨next, rfl, ngrown, -⟩ := (lowering_judged.2.1 rest none _).run lowered
  obtain ⟨c, rfl, cgrown, -⟩ := (lowering_judged.1 condition _).run first
  obtain ⟨y, rfl, ygrown, -⟩ := (lowering_judged.1 thenBranch _).run second
  obtain ⟨n, rfl, grown, -⟩ := (lowering_judged.1 elseBranch _).run third
  obtain ⟨joined, rfl, continued, made⟩ := joined_grown ngrown cgrown ygrown grown walked
  have whole := conditional_grown cgrown ygrown grown span
  refine ⟨next, w₁, c, w₂, y, w₃, n, w₄, _, _, joined, lowered, ngrown.stands, first, cgrown.stands,
    second, ygrown.stands, third, grown.stands, rfl, made.stands, continued, ?_⟩
  rw [← Tree.endings_eq_tails_iff .null whole.stands whole.once rfl]
  -- A null shows what became of it, and everything picked is a null.
  constructor
  · intro wanted x
    have agree := Tree.Continued.agree _ _ continued wanted x
    exact ⟨fun found => (agree (Tree.endings_nulls found)).1 found,
      fun tail => (agree (Tree.tails_nulls tail)).2 tail⟩
  · intro same
    exact Tree.Continued.congr _ _ (fun x _ => same x) continued

/-- `if c {} else { return 1 }; return 2` -/
def emptyThenBlock : List Expr :=
  [.ifElse none (.identifier none "c") (.block none []) (.block none [.ret none (.number none 1)]),
    .ret none (.number none 2)]

/-- The let of the rest, over what became of the conditional. -/
theorem emptyThenBlock_continues_at_endings : ∃ r w' name next whole joined, lowerBlock emptyThenBlock ⟨.empty, 0⟩ = .ok
    r w' ∧ (Tree.node r (.binding name next.id joined.id) [next, joined]).StandsIn w'.arena ∧ Tree.Continued
    (· ∈ whole.endings .null) r name whole joined := by
  cases done : lowerBlock emptyThenBlock ⟨.empty, 0⟩ with
  | error e w' =>
    have runs : (match lowerBlock emptyThenBlock ⟨.empty, 0⟩ with
      | .ok .. => true | .error .. => false) = true := by decide +kernel
    simp [done] at runs
  | ok r w' =>
    obtain ⟨next, w₁, -, -, -, -, -, -, -, whole, joined, -, -, -, -, -, -, -, -, -, stands, continued,
      -⟩ := ifElse_continues_at_endings done
    exact ⟨r, w', _, next, whole, joined, rfl, stands, continued⟩

def emptyThen : Program :=
  ⟨[.assignment "f" (.lambda none [⟨"c", none, none⟩] (.block none emptyThenBlock)) none]⟩

def Setting.isNull {N : Type} : EStateM.Result Fault (Bindings N) (Value N) → Bool
  | .ok .null _ => true
  | _ => false

theorem Setting.Calls.of_isNull {N : Type} [Arithmetic N] {s : Setting N} {function : NodeId} {args : List (Value N)}
    (depth : Nat) (null : isNull (s.callWithin depth function args ∅) = true) : s.Calls function args .null := by
  refine ⟨depth, ?_⟩
  unfold isNull at null
  split at null
  · rename_i ρ' done
    exact ⟨ρ', done⟩
  · cases null

/-- The empty branch is overlooked: it ends in null and never reaches `return 2`. -/
theorem emptyThen_gives_null :
    ∃ c, compile emptyThen ⟨.resolved, 32, true⟩ = .ok c ∧ c.arena.isAssignmentOf "f" 8 = true ∧
      (Setting.mk (N := Float) c.arena []).Calls 8 [.boolean true] .null := by
  obtain ⟨c, compiled, found⟩ : ∃ c, compile emptyThen ⟨.resolved, 32, true⟩ = .ok c ∧
      (c.arena.isAssignmentOf "f" 8 && Setting.isNull
        ((Setting.mk (N := Float) c.arena []).callWithin 4 8 [.boolean true] ∅)) = true :=
    except_any (by decide +kernel)
  obtain ⟨assigned, null⟩ := Bool.and_eq_true_iff.1 found
  exact ⟨c, compiled, assigned, .of_isNull 4 null⟩

end DerivedTables
