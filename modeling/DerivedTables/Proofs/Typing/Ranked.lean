import DerivedTables.Proofs.Scope.Recursion
import DerivedTables.Proofs.Typing.Accepted

/-!
How many passes the types need.
-/

namespace DerivedTables

/-- The nodes in the order in which a walk leaves them, each with the nodes around it. -/
def Arena.left (a : Arena) : Nat → Lineage → NodeId → List (NodeId × Lineage)
  | 0, _, _ => []
  | fuel + 1, lineage, id =>
    (((a.kind? id).elim [] Kind.children).flatMap (a.left fuel (id :: lineage))) ++ [(id, lineage)]

theorem Arena.fst_left (a : Arena) (fuel : Nat) (lineage : Lineage) (id : NodeId) :
    ((a.left fuel lineage id).map Prod.fst).Perm (a.preorder fuel id) := by
  induction fuel generalizing lineage id with
  | zero => exact .nil
  | succ fuel ih =>
    rw [left, preorder, List.map_append, List.map_flatMap]
    refine (List.perm_append_singleton id _).trans (.cons id ?_)
    cases a.kind? id with
    | none => exact .nil
    | some k => exact .flatMap_left _ fun child _ => ih _ child

namespace Typing

open Pass

/-- The nodes in the order in which a pass comes to them. -/
def order (a : Arena) (root : NodeId) : List (NodeId × Lineage) := a.left (a.size + 1) [] root

/-- The types that the rules can give, one after the other. -/
inductive Reached (env : Resolution) (a : Arena) : Arena → Prop
  | start : Reached env a a
  | step {b : Arena} {x : NodeId} {lineage : Lineage} {ty : Ty} (before : Reached env a b)
    (said : infer env b x lineage = .ok (some ty)) : Reached env a (b.setTy x ty)

/-- What the rule says at a node depends on no types but those of the given nodes. -/
def ReadsOnly (env : Resolution) (a : Arena) (known : Set NodeId) (x : NodeId) (lineage : Lineage) : Prop :=
  ∀ b c : Arena, Reached env a b → Reached env a c → (∀ y ∈ known, b.ty? y = c.ty? y) →
    infer env b x lineage = infer env c x lineage

/-- Every rule reads lower ranks only, and of its own rank what the walk has seen before. -/
def Ranked (env : Resolution) (a : Arena) (rank : NodeId → Nat) : List NodeId → List (NodeId × Lineage) → Prop
  | _, [] => True
  | seen, (x, lineage) :: rest =>
    ReadsOnly env a {y | rank y < rank x ∨ rank y = rank x ∧ y ∈ seen} x lineage ∧ Ranked env a rank (x :: seen) rest

inductive Ran (env : Resolution) : List (NodeId × Lineage) → Workspace Bool → Workspace Bool → Prop
  | nil {w : Workspace Bool} : Ran env [] w w
  | cons {x : NodeId} {lineage : Lineage} {rest : List (NodeId × Lineage)} {ty : Option Ty} {w w' : Workspace Bool}
    (said : infer env w.arena x lineage = .ok ty) (more : Ran env rest (retyped w x ty) w') :
    Ran env ((x, lineage) :: rest) w w'

variable {env : Resolution} {a : Arena} {rank : NodeId → Nat} {seen : List NodeId} {stops more : List (NodeId × Lineage)}
  {u v w w' : Workspace Bool} {x y : NodeId} {lineage : Lineage} {ty : Option Ty} {t : Tree}

theorem Reached.kind? {b : Arena} (reached : Reached env a b) (x : NodeId) : b.kind? x = a.kind? x := by
  induction reached with
  | start => rfl
  | step _ _ ih => rw [Arena.kind?_setTy, ih]

theorem Reached.retyped (reached : Reached env a w.arena) (said : infer env w.arena x lineage = .ok ty) :
    Reached env a (retyped w x ty).arena := by
  cases ty with
  | none => exact reached
  | some ty =>
    rw [Typing.retyped]
    split
    · exact reached
    · exact reached.step said

theorem ty?_retyped_of_ne (other : y ≠ x) : (retyped w x ty).arena.ty? y = w.arena.ty? y := by
  cases ty with
  | none => rfl
  | some ty =>
    rw [retyped]
    split
    · rfl
    · simp [Arena.ty?, Arena.setTy, Arena.node?_modify, other.symm]

theorem ty?_retyped_self (said : infer env w.arena x lineage = .ok ty) {found : Ty} (known : ty = some found) :
    (retyped w x ty).arena.ty? x = some found := by
  subst known
  rw [retyped]
  split
  · assumption
  · cases there : w.arena.node? x with
    | none =>
      have gone : w.arena.expect (ε := TypingError) x = .error (OfTreeError.ofTreeError (.dangling x)) := by
        simp [Arena.expect, Arena.kind?, there]
      rw [infer, gone] at said
      cases said
    | some n => simp [Arena.ty?, Arena.setTy, Arena.node?_modify, there]

namespace Ran

theorem append (first : Ran env stops u v) (second : Ran env more v w) : Ran env (stops ++ more) u w := by
  induction first with
  | nil => exact second
  | cons said _ ih => exact .cons said (ih second)

theorem reached (ran : Ran env stops w w') (reached : Reached env a w.arena) : Reached env a w'.arena := by
  induction ran with
  | nil => exact reached
  | cons said _ ih => exact ih (reached.retyped said)

theorem stays (ran : Ran env stops w w') (away : y ∉ stops.map Prod.fst) : w'.arena.ty? y = w.arena.ty? y := by
  induction ran with
  | nil => rfl
  | cons _ _ ih =>
    rw [List.map_cons, List.mem_cons, not_or] at away
    rw [ih away.2, ty?_retyped_of_ne away.1]

/-- A pass that notes a change has changed a type for good. -/
theorem changed (ran : Ran env stops w w') (once : (stops.map Prod.fst).Nodup) (quiet : w.notes = false)
    (noted : w'.notes = true) : ∃ x ∈ stops.map Prod.fst, w'.arena.ty? x ≠ w.arena.ty? x := by
  induction ran with
  | nil => cases quiet.symm.trans noted
  | @cons x lineage rest ty w w' said more ih =>
    rw [List.map_cons, List.nodup_cons] at once
    by_cases still : retyped w x ty = w
    · rw [still] at ih
      obtain ⟨y, listed, other⟩ := ih once.2 quiet noted
      exact ⟨y, .tail _ listed, other⟩
    · refine ⟨x, .head _, ?_⟩
      cases ty with
      | none => exact absurd rfl still
      | some found =>
        rw [more.stays once.1, ty?_retyped_self said rfl]
        intro same
        exact still (by rw [retyped, if_pos same.symm])

/-- Two passes in a row: where the second starts out as the first did, up to some rank, it ends up as the first did, that
rank included. -/
theorem lockstep {p : Nat} (first : Ran env stops u w) (second : Ran env stops v w') (once : (stops.map Prod.fst).Nodup)
    (ranked : Ranked env a rank seen stops) (left : Reached env a u.arena)
    (right : Reached env a v.arena)
    (agree : ∀ y, rank y < p ∨ rank y = p ∧ y ∈ seen → u.arena.ty? y = v.arena.ty? y)
    (ahead : ∀ y ∈ stops.map Prod.fst, v.arena.ty? y = w.arena.ty? y) :
    ∀ y, rank y < p ∨ rank y = p ∧ (y ∈ seen ∨ y ∈ stops.map Prod.fst) → w.arena.ty? y = w'.arena.ty? y := by
  induction first generalizing v seen with
  | nil =>
    cases second
    simpa using agree
  | @cons x lineage rest ty u w said more ih =>
    obtain ⟨reads, ranked⟩ := ranked
    rw [List.map_cons, List.nodup_cons] at once
    rw [List.map_cons, List.forall_mem_cons] at ahead
    cases second with
    | @cons _ _ _ ty' _ _ said' more' =>
      have here : rank x ≤ p → (retyped u x ty).arena.ty? x = (retyped v x ty').arena.ty? x := by
        intro low
        have verdict := reads u.arena v.arena left right fun y below => agree y (by
          obtain lower | ⟨same, before⟩ := below
          · exact .inl (by omega)
          · by_cases equal : rank y = p
            · exact .inr ⟨equal, before⟩
            · exact .inl (by omega))
        obtain rfl : ty = ty' := Except.ok.inj (said.symm.trans (verdict.trans said'))
        cases ty with
        | some found => rw [ty?_retyped_self said rfl, ty?_retyped_self said' rfl]
        | none => exact (more.stays once.1).symm.trans ahead.1.symm
      have known := @ih (x :: seen) _ more' once.2 ranked (left.retyped said) (right.retyped said')
        (fun y low => ?_) fun y listed => ?_
      · intro y low
        refine known y (low.imp_right (And.imp_right fun listed => ?_))
        rw [List.map_cons, List.mem_cons] at listed
        rw [List.mem_cons]
        tauto
      · by_cases same : y = x
        · subst same
          exact here (by omega)
        · rw [ty?_retyped_of_ne same, ty?_retyped_of_ne same]
          exact agree y (by simpa [same] using low)
      · have other : y ≠ x := by
          rintro rfl
          exact once.1 listed
        rw [ty?_retyped_of_ne other]
        exact ahead.2 y listed

end Ran

mutual
theorem tour_ran : (t : Tree) → (lineage : Lineage) → (fuel : Nat) → (w w' : Workspace Bool) → t.StandsIn a →
    t.height ≤ fuel → t.tour (Visitor.leaving (retype env)) lineage () w = .ok () w' →
      Ran env (a.left fuel lineage t.id) w w'
  | .node id kind parts, lineage, fuel, w, w', stands, enough, done => by
    obtain ⟨n, rfl⟩ : ∃ n, fuel = n + 1 := ⟨fuel - 1, by rw [Tree.height] at enough; omega⟩
    rw [Tree.height, Nat.add_le_add_iff_right] at enough
    rw [Tree.tour] at done
    obtain ⟨entry, w₁, entered, done⟩ := bind_eq_ok.1 done
    cases entered
    obtain ⟨_, w₂, toured, done⟩ := bind_eq_ok.1 done
    obtain ⟨result, w₃, left, done⟩ := bind_eq_ok.1 done
    cases done
    obtain ⟨-, ty, said, rfl⟩ := retype_cases left
    have held : a.kind? id = some kind := stands.kind
    have slots : kind.children = parts.map Tree.id := stands.slots
    rw [Tree.id_node, Arena.left, held, Option.elim_some, slots]
    exact (tourAll_ran parts _ n _ _ (fun t part => stands.child part) enough toured).append (.cons said .nil)
theorem tourAll_ran : (ts : List Tree) → (lineage : Lineage) → (fuel : Nat) → (w w' : Workspace Bool) →
    (∀ t ∈ ts, t.StandsIn a) → Tree.heightOf ts ≤ fuel →
      Tree.tourAll (Visitor.leaving (retype env)) lineage () ts w = .ok () w' →
        Ran env ((ts.map Tree.id).flatMap (a.left fuel lineage)) w w'
  | [], lineage, fuel, w, w', stand, enough, done => by
    cases done
    exact .nil
  | t :: rest, lineage, fuel, w, w', stand, enough, done => by
    rw [Tree.tourAll] at done
    obtain ⟨_, w₁, toured, done⟩ := bind_eq_ok.1 done
    have first := tour_ran t _ fuel _ _ (stand t (.head _)) ((Tree.height_le_heightOf (.head _)).trans enough) toured
    have others := tourAll_ran rest _ fuel _ _ (fun s part => stand s (.tail _ part)) (by
      rw [Tree.heightOf] at enough
      omega) done
    exact first.append others
end

theorem pass_ran (stands : t.StandsIn a) (once : t.ids.Nodup) (reached : Reached env a w.arena) {r : NodeId}
    (walked : (Visitor.leaving (retype env)).walk t.id () w = .ok r w') : Ran env (order a t.id) w w' := by
  have enough : t.height ≤ a.size + 1 := (stands.height_le_size once).trans (Nat.le_succ _)
  have stands' : t.StandsIn w.arena := stands.congr fun x _ => reached.kind? x
  rw [Visitor.walk, bind_of_ok (Pass.arena_run _), (retype_quiet env).visit_eq_tour
    ((stands'.height_le_size once).trans (Nat.le_succ _)) stands'.shapes] at walked
  obtain ⟨_, w₁, toured, done⟩ := bind_eq_ok.1 walked
  cases done
  exact tour_ran t [] _ _ _ stands enough toured

/-- Each pass that changes something settles one rank more. -/
theorem settle_ranked {m k p remaining : Nat} (stands : t.StandsIn a) (once : t.ids.Nodup)
    (ranked : Ranked env a rank [] (order a t.id)) (low : ∀ x ∈ t.ids, rank x < m)
    (reached : Reached env a w.arena)
    (agree : ∀ w', Ran env (order a t.id) ⟨w.arena, false⟩ w' → ∀ y, rank y < k → w.arena.ty? y = w'.arena.ty? y)
    (short : k ≤ m) (enough : m < k + remaining) (n : Nat) (w' : Workspace Bool) :
    settle env t.id remaining p w ≠ .error (.noFixedPoint n) w' := by
  have listed : ((order a t.id).map Prod.fst).Perm t.ids := stands.descendants_eq once ▸ a.fst_left ..
  have single := listed.nodup_iff.2 once
  induction remaining generalizing k p w with
  | zero => omega
  | succ remaining ih =>
    have pass := pass_leaves env t.id ⟨w.arena, false⟩
    rw [settle_succ]
    rw [Leaves] at pass
    cases walked : (Visitor.leaving (retype env)).walk t.id () ⟨w.arena, false⟩ with
    | error e w₁ =>
      rw [walked] at pass
      intro failed
      cases failed
      exact pass.1 n rfl
    | ok r w₁ =>
      have first : Ran env (order a t.id) ⟨w.arena, false⟩ w₁ := pass_ran stands once (w := ⟨w.arena, false⟩) reached walked
      have reached₁ := first.reached reached
      have settled := agree w₁ first
      dsimp only
      split
      · rename_i noted
        obtain ⟨x, inside, other⟩ := first.changed single rfl noted
        have high : k ≤ rank x := Nat.le_of_not_lt fun lower => other (settled x lower).symm
        have top := low x (listed.mem_iff.1 inside)
        refine ih reached₁ (fun w₂ second y lower => ?_) (by omega : k + 1 ≤ m) (by omega)
        by_cases visited : y ∈ (order a t.id).map Prod.fst
        · have known := first.lockstep second single ranked reached reached₁
            (fun y lower => settled y (by simpa using lower)) (fun _ _ => rfl)
          exact known y (by simp only [visited, or_true, and_true]; omega)
        · exact (second.stays visited).symm
      · intro failed
        cases failed

def isDirect : Kind → Bool
  | .root .. | .null | .string _ | .number _ | .boolean _ | .derived .. | .assignment .. | .effect .. | .binding ..
  | .reference .. => true
  | _ => false

theorem readsOnly_of_direct {known : Set NodeId} {k : Kind} (held : a.kind? x = some k) (direct : isDirect k = true)
    (near : ∀ y ∈ k.children ++ k.links, y ∈ known) : ReadsOnly env a known x lineage := by
  intro b c first second agree
  have kinds (y : NodeId) : b.kind? y = c.kind? y := (first.kind? y).trans (second.kind? y).symm
  have here : c.kind? x = some k := (second.kind? x).trans held
  have types (y : NodeId) (listed : y ∈ k.children ++ k.links) : b.ty? y = c.ty? y := agree y (near y listed)
  have expect (y : NodeId) : b.expect (ε := TypingError) y = c.expect y := by rw [Arena.expect, Arena.expect, kinds]
  have known (y : NodeId) (listed : y ∈ k.children ++ k.links) : known? b y = known? c y := by
    rw [known?, known?, types y listed]
  rw [infer, infer, expect, Arena.expect, here]
  cases k with
  | root | null | string | number | boolean => rfl
  | derived | assignment | effect => exact congrArg Except.ok (known _ (by simp [Kind.children]))
  | binding _ value next =>
    dsimp only [bind, Except.bind]
    simp only [knownOrUnknown, known value (by simp [Kind.children]), known next (by simp [Kind.children])]
  | reference target =>
    dsimp only [bind, Except.bind]
    rw [expect, types target (by simp [Kind.links])]
  | _ => cases direct

def isRanked (a : Arena) (rank : NodeId → Nat) : List NodeId → List (NodeId × Lineage) → Bool
  | _, [] => true
  | seen, (x, _) :: rest =>
    ((a.kind? x).any fun k => isDirect k && (k.children ++ k.links).all fun y =>
      rank y < rank x || rank y == rank x && seen.contains y) && isRanked a rank (x :: seen) rest

theorem ranked_of_isRanked (checked : isRanked a rank seen stops = true) : Ranked env a rank seen stops := by
  induction stops generalizing seen with
  | nil => trivial
  | cons p rest ih =>
    rw [isRanked, Bool.and_eq_true] at checked
    obtain ⟨k, held, here⟩ := (Option.any_eq_true ..).1 checked.1
    rw [Bool.and_eq_true, List.all_eq_true] at here
    exact ⟨readsOnly_of_direct held here.1 fun y near => by simpa using here.2 y near, ih checked.2⟩

end Typing

namespace Compilation

/-- Each name stands for the next one, and the last for a number. -/
def backwards (n : Nat) : Program :=
  ⟨(List.range n).map (fun i => .assignment ("a" ++ toString i) (.identifier none ("a" ++ toString (i + 1))) none) ++
    [.assignment ("a" ++ toString n) (.number none 1) none]⟩

theorem backwards_evaluated : (lower (backwards 30)).toOption.any (fun c₀ => c₀.resolve.toOption.any fun c =>
      Typing.isRanked c.arena (30 - · / 2 % 31) [] (Typing.order c.arena c.root) &&
        (c.arena.descendants c.root).all fun x => decide (30 - x / 2 % 31 + 2 ≤ 32)) = true ∧
    (lower (backwards 31)).toOption.any (fun c₀ => c₀.resolve.toOption.any fun c =>
      c.arena.isRanked (fun x => 64 - 2 * (x / 2) + x % 2) && decide ((c.assignTypes Options.defaults.maxTypePasses).map
        (fun _ => ()) = .error (.typing (.noFixedPoint 32) none))) = true := by
  constructor <;> decide +kernel

end Compilation

end DerivedTables
