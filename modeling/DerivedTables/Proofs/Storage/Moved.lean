import DerivedTables.Proofs.Storage.Late
import DerivedTables.Proofs.Tree.Layers
import DerivedTables.Proofs.Tree.Renamed

/-!
Storing parts of a derivation takes them out of their slots and leaves references to them behind.
-/

namespace DerivedTables

open Tree Pass

@[simp] theorem Kind.links_withChildren (k : Kind) (filled : List NodeId) :
    (k.withChildren filled).links = k.links := by
  unfold withChildren
  split <;> rfl

namespace Tree

inductive Opened (late : NodeId → Bool) : Tree → NodeId → Prop
  | here (t : Tree) : Opened late t t.id
  | deeper {t s : Tree} {x : NodeId} (part : s ∈ t.parts) (asks : late s.id = true) (inside : Opened late s x) :
    Opened late t x

variable {late : NodeId → Bool} {a b : Arena} {t : Tree} {x : NodeId}

theorem Opened.mem_ids (opened : t.Opened late x) : x ∈ t.ids := by
  induction opened with
  | here t => exact t.id_mem_ids
  | deeper part _ _ ih => exact ids_eq _ ▸ List.mem_cons_of_mem _ (ids_of_part part ih)

theorem StandsIn.kind_eq (first : t.StandsIn a) (second : t.StandsIn b) (inside : x ∈ t.ids) : b.kind? x = a.kind? x := by
  induction t with
  | node id kind parts ih =>
    obtain rfl | below := List.mem_cons.1 inside
    · rw [first.held, second.held]
    · obtain ⟨s, part, below⟩ := mem_idsOf.1 below
      exact ih s part (first.child part) (second.child part) below

end Tree

namespace Storage

structure Storable (late : NodeId → Bool) (k : Kind) (s : Tree) : Prop where
  early : late s.id = false
  worth : isWorthStoring s.kind = true
  member : ∀ object, k ≠ .access object s.id

inductive Halves (late : NodeId → Bool) (floor : Nat) : Kind → List Tree → List Tree → List (String × Tree) → Prop
  | nil (k : Kind) : Halves late floor k [] [] []
  | opened {k : Kind} {s : Tree} {parts ts rs : List Tree} {ws others : List (String × Tree)} (asks : late s.id = true)
    (inside : Halves late floor s.kind s.parts parts ws) (more : Halves late floor k ts rs others) :
    Halves late floor k (s :: ts) (.node s.id (s.kind.withChildren (parts.map Tree.id)) parts :: rs) (ws ++ others)
  | stored {k : Kind} {s : Tree} {r : NodeId} {name : String} {ts rs : List Tree} {others : List (String × Tree)}
    (storable : Storable late k s) (fresh : floor ≤ r) (more : Halves late floor k ts rs others) :
    Halves late floor k (s :: ts) (.node r (.reference s.id name) [] :: rs) ((name, s) :: others)
  | kept {k : Kind} {s : Tree} {ts rs : List Tree} {others : List (String × Tree)} (early : late s.id = false)
    (unfit : ¬ Storable late k s) (more : Halves late floor k ts rs others) :
    Halves late floor k (s :: ts) (s :: rs) others

def noted (ws : List (String × Tree)) : List (String × NodeId) := ws.map fun write => (write.1, write.2.id)

def writeName (column : String) (n : Nat) : String := column ++ "_int_" ++ toString n

def Numbered (column : String) (writes : List (String × NodeId)) : Prop :=
  writes.map Prod.fst = (List.range writes.length).map (writeName column)

theorem Numbered.push {column : String} {writes : List (String × NodeId)} (numbered : Numbered column writes) (id : NodeId) :
    Numbered column (writes ++ [(writeName column writes.length, id)]) := by
  rw [Numbered, List.map_append, numbered, List.length_append, List.length_singleton, List.range_succ, List.map_append]
  rfl

@[simp] theorem noted_append (ws others : List (String × Tree)) : noted (ws ++ others) = noted ws ++ noted others :=
  List.map_append

@[simp] theorem noted_snd (ws : List (String × Tree)) : (noted ws).map Prod.snd = (ws.map Prod.snd).map Tree.id := by
  simp [noted]

inductive Replaces (floor : Nat) (b : Arena) (writes : List (String × NodeId)) (c : NodeId) : NodeId → Prop
  | kept (unwritten : c ∉ writes.map Prod.snd) : Replaces floor b writes c c
  | stored {r : NodeId} {name : String} (beyond : floor ≤ r) (written : (name, c) ∈ writes)
    (held : b.kind? r = some (.reference c name)) : Replaces floor b writes c r

namespace Halves

variable {late other : NodeId → Bool} {floor above : Nat} {k : Kind} {t : Tree} {ts rs us vs : List Tree}
  {ws others : List (String × Tree)} {a b : Arena} {x : NodeId}

theorem length_eq (halves : Halves late floor k ts rs ws) : ts.length = rs.length := by
  induction halves with
  | nil => rfl
  | opened _ _ _ _ ih => simp [ih]
  | stored _ _ _ ih => simp [ih]
  | kept _ _ _ ih => simp [ih]

theorem append (first : Halves late floor k ts rs ws) (second : Halves late floor k us vs others) :
    Halves late floor k (ts ++ us) (rs ++ vs) (ws ++ others) := by
  induction first with
  | nil => exact second
  | opened asks inside _ _ ih =>
    rw [List.append_assoc]
    exact .opened asks inside (ih second)
  | stored storable fresh _ ih => exact .stored storable fresh (ih second)
  | kept early unfit _ ih => exact .kept early unfit (ih second)

theorem mono (halves : Halves other above k ts rs ws) (less : floor ≤ above) (same : ∀ x ∈ idsOf ts, other x = late x) :
    Halves late floor k ts rs ws := by
  have agree {k : Kind} {s : Tree} (same : other s.id = late s.id) : Storable other k s ↔ Storable late k s :=
    ⟨fun fit => ⟨same ▸ fit.early, fit.worth, fit.member⟩, fun fit => ⟨same ▸ fit.early, fit.worth, fit.member⟩⟩
  induction halves with
  | nil k => exact .nil k
  | @opened k s _ _ _ _ _ asks _ _ ihInside ih =>
    rw [idsOf, ids_eq, List.cons_append, List.forall_mem_cons, List.forall_mem_append] at same
    exact .opened (same.1 ▸ asks) (ihInside same.2.1) (ih same.2.2)
  | @stored k s _ _ _ _ _ storable fresh _ ih =>
    rw [idsOf, List.forall_mem_append] at same
    exact .stored ((agree (same.1 _ s.id_mem_ids)).1 storable) (less.trans fresh) (ih same.2)
  | @kept k s _ _ _ early unfit _ ih =>
    rw [idsOf, List.forall_mem_append] at same
    have here := same.1 _ s.id_mem_ids
    exact .kept (here ▸ early) (fun fit => unfit ((agree here).2 fit)) (ih same.2)

theorem written_sublist (halves : Halves late floor k ts rs ws) : (idsOf (ws.map Prod.snd)).Sublist (idsOf ts) := by
  induction halves with
  | nil => exact .refl _
  | @opened _ s _ _ _ _ _ _ _ _ ihInside ih =>
    rw [List.map_append, idsOf_append, idsOf, s.ids_eq]
    exact (ihInside.trans (List.sublist_cons_self ..)).append ih
  | stored _ _ _ ih => exact (List.Sublist.refl _).append ih
  | kept _ _ _ ih => exact ih.trans (List.sublist_append_right ..)

theorem covered (halves : Halves late floor k ts rs ws) : idsOf ts ⊆ idsOf rs ++ idsOf (ws.map Prod.snd) := by
  induction halves with
  | nil => exact List.Subset.refl _
  | @opened _ s _ _ _ _ _ _ _ _ ihInside ih =>
    intro x listed
    have inside := @ihInside x
    have more := @ih x
    simp only [idsOf, ids, s.ids_eq, List.map_append, idsOf_append, List.mem_append, List.mem_cons] at listed inside more ⊢
    tauto
  | stored _ _ _ ih | kept _ _ _ ih =>
    intro x listed
    have more := @ih x
    simp only [idsOf, List.map_cons, List.mem_append] at listed more ⊢
    tauto

theorem replaced (halves : Halves late floor k ts rs ws) (stand : ∀ r ∈ rs, r.StandsIn b) (listed : ws ⊆ others)
    (apart : ∀ r ∈ rs, r.id ∉ (noted others).map Prod.snd) :
    List.Forall₂ (Replaces floor b (noted others)) (ts.map Tree.id) (rs.map Tree.id) := by
  induction halves with
  | nil => exact .nil
  | opened _ _ _ _ ih =>
    rw [List.forall_mem_cons] at stand apart
    exact .cons (.kept apart.1) (ih stand.2 (List.append_subset.1 listed).2 apart.2)
  | stored _ fresh _ ih =>
    rw [List.forall_mem_cons] at stand apart
    rw [List.cons_subset] at listed
    exact .cons (.stored fresh (List.mem_map_of_mem listed.1) stand.1.held) (ih stand.2 listed.2 apart.2)
  | kept _ _ _ ih =>
    rw [List.forall_mem_cons] at stand apart
    exact .cons (.kept apart.1) (ih stand.2 listed apart.2)

inductive Reopened (late : NodeId → Bool) (floor : Nat) (a b : Arena) (rs : List Tree) (ws : List (String × Tree)) (x : NodeId) :
    Prop
  | of {s : Tree} {parts : List Tree} {part : List (String × Tree)} (here : s.id = x) (before : s.StandsIn a)
    (after : (Tree.node x (s.kind.withChildren (parts.map Tree.id)) parts).StandsIn b)
    (halves : Halves late floor s.kind s.parts parts part) (inside : idsOf parts ⊆ idsOf rs) (among : part ⊆ ws) :
    Reopened late floor a b rs ws x

theorem Reopened.mono (reopened : Reopened late floor a b rs ws x) (inside : idsOf rs ⊆ idsOf us) (among : ws ⊆ others) :
    Reopened late floor a b us others x := by
  obtain ⟨here, before, after, halves, inside', among'⟩ := reopened
  exact ⟨here, before, after, halves, List.Subset.trans inside' inside, List.Subset.trans among' among⟩

theorem at_opened (halves : Halves late floor k ts rs ws) (before : ∀ t ∈ ts, t.StandsIn a) (after : ∀ r ∈ rs, r.StandsIn b)
    (listed : t ∈ ts) (asks : late t.id = true) (opened : t.Opened late x) : Reopened late floor a b rs ws x := by
  induction halves generalizing t with
  | nil => cases listed
  | @opened _ s parts _ rs _ _ _ inside _ ihInside ih =>
    rw [List.forall_mem_cons] at before after
    obtain rfl | listed := List.mem_cons.1 listed
    · have deeper (l : Kind) : idsOf parts ⊆ idsOf (.node t.id l parts :: rs) := fun x below =>
        List.mem_append_left _ (.tail _ below)
      cases opened with
      | here => exact ⟨rfl, before.1, after.1, inside, deeper _, List.subset_append_left ..⟩
      | deeper part asks opened =>
        exact (ihInside (fun s part => before.1.child part) (fun r part => after.1.child part) part asks opened).mono
          (deeper _) (List.subset_append_left ..)
    · exact (ih before.2 after.2 listed asks opened).mono (List.subset_append_right ..) (List.subset_append_right ..)
  | stored storable _ _ ih =>
    rw [List.forall_mem_cons] at before after
    obtain rfl | listed := List.mem_cons.1 listed
    · cases storable.early.symm.trans asks
    · exact (ih before.2 after.2 listed asks opened).mono (List.subset_append_right ..) (List.subset_cons_self ..)
  | kept early _ _ ih =>
    rw [List.forall_mem_cons] at before after
    obtain rfl | listed := List.mem_cons.1 listed
    · cases early.symm.trans asks
    · exact (ih before.2 after.2 listed asks opened).mono (List.subset_append_right ..) (List.Subset.refl _)

theorem slot (halves : Halves late floor k ts rs ws) (stand : ∀ t ∈ ts, t.StandsIn a) {write : String × Tree}
    (written : write ∈ ws) : (write.2 ∈ ts ∧ Storable late k write.2) ∨ ∃ t ∈ ts, late t.id = true ∧ ∃ s : Tree,
    t.Opened late s.id ∧ s.StandsIn a ∧ write.2 ∈ s.parts ∧ Storable late s.kind write.2 := by
  induction halves with
  | nil => cases written
  | @opened _ s _ _ _ _ _ asks _ _ ihInside ih =>
    rw [List.forall_mem_cons] at stand
    obtain written | written := List.mem_append.1 written
    · refine .inr ⟨s, by simp, asks, ?_⟩
      obtain ⟨part, storable⟩ | ⟨t, part, asks, u, opened, rest⟩ := ihInside (fun s part => stand.1.child part) written
      · exact ⟨s, .here s, stand.1, part, storable⟩
      · exact ⟨u, .deeper part asks opened, rest⟩
    · obtain ⟨part, storable⟩ | ⟨t, part, rest⟩ := ih stand.2 written
      · exact .inl ⟨List.mem_cons_of_mem _ part, storable⟩
      · exact .inr ⟨t, List.mem_cons_of_mem _ part, rest⟩
  | stored storable _ _ ih =>
    rw [List.forall_mem_cons] at stand
    obtain rfl | written := List.mem_cons.1 written
    · exact .inl ⟨by simp, storable⟩
    · obtain ⟨part, storable⟩ | ⟨t, part, rest⟩ := ih stand.2 written
      · exact .inl ⟨List.mem_cons_of_mem _ part, storable⟩
      · exact .inr ⟨t, List.mem_cons_of_mem _ part, rest⟩
  | kept _ _ _ ih =>
    rw [List.forall_mem_cons] at stand
    obtain ⟨part, storable⟩ | ⟨t, part, rest⟩ := ih stand.2 written
    · exact .inl ⟨List.mem_cons_of_mem _ part, storable⟩
    · exact .inr ⟨t, List.mem_cons_of_mem _ part, rest⟩

theorem kind_eq (halves : Halves late floor k ts rs ws) (before : ∀ t ∈ ts, t.StandsIn a)
    (after : ∀ t ∈ rs ++ ws.map Prod.snd, t.StandsIn b) (inside : x ∈ idsOf ts)
    (closed : ∀ t ∈ ts, late t.id = true → ¬ t.Opened late x) : b.kind? x = a.kind? x := by
  induction halves with
  | nil => cases inside
  | @opened _ s _ _ _ _ _ asks _ _ ihInside ih =>
    simp only [List.map_append, List.cons_append, List.forall_mem_cons, List.forall_mem_append] at before after closed
    obtain here | there := List.mem_append.1 inside
    · obtain rfl | below := List.mem_cons.1 (s.ids_eq ▸ here)
      · exact absurd (.here s) (closed.1 asks)
      · refine ihInside (fun s part => before.1.child part) ?_ below fun t part asks' opened =>
          closed.1 asks (.deeper part asks' opened)
        exact List.forall_mem_append.2 ⟨fun r part => after.1.child part, after.2.2.1⟩
    · exact ih before.2 (List.forall_mem_append.2 ⟨after.2.1, after.2.2.2⟩) there closed.2
  | stored _ _ _ ih =>
    simp only [List.map_cons, List.cons_append, List.forall_mem_cons, List.forall_mem_append] at before after closed
    obtain here | there := List.mem_append.1 inside
    · exact before.1.kind_eq after.2.2.1 here
    · exact ih before.2 (List.forall_mem_append.2 ⟨after.2.1, after.2.2.2⟩) there closed.2
  | kept _ _ _ ih =>
    simp only [List.cons_append, List.forall_mem_cons] at before after closed
    obtain here | there := List.mem_append.1 inside
    · exact before.1.kind_eq after.1 here
    · exact ih before.2 after.2 there closed.2

end Halves

variable {late : NodeId → Bool} {k : Kind} {t t' : Tree} {ts rs : List Tree} {ws others : List (String × Tree)}
  {w w₁ w₂ : Workspace (List (String × NodeId))} {column : String} {fuel : Nat} {id : NodeId}

structure Stored (column : String) (late : NodeId → Bool) (k : Kind) (ts rs : List Tree) (ws : List (String × Tree))
    (w w' : Workspace (List (String × NodeId))) : Prop where
  notes : w'.notes = w.notes ++ noted ws
  numbered : Numbered column w.notes → Numbered column w'.notes
  halves : Halves late w.arena.size k ts rs ws
  rewritten : RewrittenAll w.arena w'.arena ts (rs ++ ws.map Prod.snd)
  made : ∀ {x l}, w.arena.size ≤ x → w'.arena.kind? x = some l → ∃ write ∈ ws, l = .reference write.2.id write.1

namespace Stored

theorem keep (stand : ∀ t ∈ ts, t.StandsIn w.arena) (once : (idsOf ts).Nodup)
    (halves : Halves late w.arena.size k ts ts []) : Stored column late k ts ts [] w w where
  notes := by simp [noted]
  numbered := id
  halves := halves
  rewritten := by
    rw [List.map_nil, List.append_nil]
    exact .keep stand once
  made beyond held := absurd (Arena.lt_size_of_kind? held) (Nat.not_lt.2 beyond)

theorem cons (first : Stored column late k [t] [t'] ws w w₁) (rest : Stored column late k ts rs others w₁ w₂)
    (insides : ∀ x ∈ idsOf ts, x < w.arena.size) (apart : ∀ x ∈ t.ids, x ∉ idsOf ts) :
    Stored column late k (t :: ts) (t' :: rs) (ws ++ others) w w₂ where
  notes := by rw [rest.notes, first.notes, List.append_assoc, noted_append]
  numbered := rest.numbered ∘ first.numbered
  halves := first.halves.append (rest.halves.mono first.rewritten.size fun _ _ => rfl)
  rewritten := by
    refine (first.rewritten.append rest.rewritten insides (by simpa using apart)).perm ?_
    simp only [List.map_append, List.cons_append, List.nil_append]
    refine .cons _ ?_
    rw [← List.append_assoc, ← List.append_assoc]
    exact List.perm_append_comm.append_right _
  made {x l} beyond held := by
    by_cases new : w₁.arena.size ≤ x
    · obtain ⟨write, written, rfl⟩ := rest.made new held
      exact ⟨write, List.mem_append_right _ written, rfl⟩
    · have old : x ∉ idsOf ts := fun inside => absurd (insides x inside) (Nat.not_lt.2 beyond)
      rw [rest.rewritten.kept (Nat.lt_of_not_le new) old] at held
      obtain ⟨write, written, rfl⟩ := first.made beyond held
      exact ⟨write, List.mem_append_left _ written, rfl⟩

theorem node (stored : Stored column late t.kind t.parts ts ws w w₁) (asks : late t.id = true) (stands : t.StandsIn w.arena)
    (once : t.ids.Nodup) : Stored column late k [t] [.node t.id (t.kind.withChildren (ts.map Tree.id)) ts] ws w
      ⟨if ts.map Tree.id = t.kind.children then w₁.arena
        else w₁.arena.setKind t.id (t.kind.withChildren (ts.map Tree.id)), w₁.notes⟩ := by
  obtain ⟨id, kind, parts⟩ := t
  refine ⟨stored.notes, stored.numbered, ?_, stored.rewritten.node_with stands once stored.halves.length_eq, fun {x l} beyond held => ?_⟩
  · have halves := Halves.opened asks stored.halves (.nil k)
    rwa [List.append_nil] at halves
  · refine stored.made beyond ?_
    have below := Arena.lt_size_of_kind? stands.held
    dsimp only at held
    split at held
    · exact held
    · rwa [Arena.kind?_setKind, if_neg] at held
      exact fun same => absurd below (Nat.not_lt.2 (beyond.trans_eq same.symm))

end Stored

theorem store_runs (column : String) (stands : t.StandsIn w.arena) (once : t.ids.Nodup) : ∃ name w', store column t.id w
    = .ok w.arena.size w' ∧ w'.notes = w.notes ++ noted [(name, t)] ∧ name = writeName column w.notes.length ∧
    w'.arena.kind? w.arena.size = some (.reference t.id name) ∧ RewrittenAll w.arena w'.arena [t]
    [.node w.arena.size (.reference t.id name) [], t] ∧ ∀ {x l}, w.arena.size ≤ x → w'.arena.kind? x = some l → l =
    .reference t.id name := by
  refine ⟨_, _, rfl, rfl, rfl, Arena.kind?_push_size .., ?_, fun {x l} beyond held => ?_⟩
  · have first : RewrittenAll w.arena w.arena [t] [t] := .keep (by simpa using stands) (by simpa using once)
    have leaf := (RewrittenAll.nil w.arena).push
      (n := ⟨.reference t.id (column ++ "_int_" ++ toString w.notes.length), w.arena.ty? t.id, none⟩) rfl
    exact (first.append leaf (by simp [idsOf]) (by simp [idsOf])).perm (List.Perm.swap _ t [])
  · obtain ⟨-, rfl⟩ | held := Arena.kind?_push_cases held
    · rfl
    · exact absurd (Arena.lt_size_of_kind? held) (Nat.not_lt.2 beyond)

def storeChild (column : String) (late : NodeId → Bool) (fuel : Nat) (id child : NodeId) :
    Splitting NodeId := do
  if late child then
    storeBelow column late fuel child
    return child
  else if isWorthStoring (← Pass.kind child) &&
      !(← Pass.arena).isPropertyName child (some id) then
    store column child
  else return child

theorem storeBelow_succ (column : String) (late : NodeId → Bool) (fuel : Nat) (id : NodeId) :
    storeBelow column late (fuel + 1) id = (do
      let kind ← Pass.kind id
      let children ← kind.children.mapM (storeChild column late fuel id)
      if children ≠ kind.children then Pass.setKind id (kind.withChildren children)) := rfl

def StoresBelow (column : String) (late : NodeId → Bool) (fuel : Nat) (t : Tree) : Prop :=
  ∀ w : Workspace (List (String × NodeId)), late t.id = true → t.StandsIn w.arena → t.ids.Nodup →
    ∃ r ws w', storeBelow column late fuel t.id w = .ok () w' ∧ r.id = t.id ∧ ∀ k, Stored column late k [t] [r] ws w w'

theorem storeChild_runs (below : StoresBelow column late fuel t) (stands : t.StandsIn w.arena) (once : t.ids.Nodup)
    (held : w.arena.kind? id = some k) :
    ∃ r ws w', storeChild column late fuel id t.id w = .ok r.id w' ∧ Stored column late k [t] [r] ws w w' := by
  unfold storeChild
  split
  · rename_i asks
    obtain ⟨r, ws, w', ran, same, stored⟩ := below w asks stands once
    exact ⟨r, ws, w', by rw [bind_of_ok ran, same]; rfl, stored k⟩
  · rename_i early
    have early : late t.id = false := by simpa using early
    rw [bind_of_ok (kind_of_some stands.kind), bind_of_ok (arena_run _)]
    have fits : (isWorthStoring t.kind && !w.arena.isPropertyName t.id (some id)) = true ↔ Storable late k t := by
      have member : w.arena.isPropertyName t.id (some id) = false ↔ ∀ object, k ≠ .access object t.id := by
        rw [Arena.isPropertyName, Option.bind_some, held]
        cases k <;> simp
      rw [Bool.and_eq_true, Bool.not_eq_true', member]
      exact ⟨fun ⟨worth, member⟩ => ⟨early, worth, member⟩, fun fit => ⟨fit.worth, fit.member⟩⟩
    split
    · rename_i worth
      obtain ⟨name, w', ran, notes, shown, -, rewritten, made⟩ := store_runs column stands once
      have numbered (before : Numbered column w.notes) : Numbered column w'.notes := notes ▸ shown ▸ before.push t.id
      exact ⟨.node w.arena.size (.reference t.id name) [], [(name, t)], w', ran, notes, numbered, .stored (fits.1 worth) le_rfl (.nil k), rewritten, fun beyond held =>
        ⟨_, List.mem_singleton_self _, made beyond held⟩⟩
    · rename_i unfit
      exact ⟨t, [], w, rfl, .keep (by simpa using stands) (by simpa using once) (.kept early (fun fit => unfit (fits.2 fit))
        (.nil k))⟩

theorem storeChildren_runs {parts : List Tree} (below : ∀ t ∈ parts, StoresBelow column late fuel t)
    (stand : ∀ t ∈ parts, t.StandsIn w.arena) (once : (idsOf parts).Nodup) (held : w.arena.kind? id = some k)
    (outside : id ∉ idsOf parts) : ∃ rs ws w', (parts.map Tree.id).mapM (storeChild column late fuel id) w = .ok
    (rs.map Tree.id) w' ∧ Stored column late k parts rs ws w w' := by
  induction parts generalizing w with
  | nil => exact ⟨[], [], w, rfl, .keep (by simp) List.nodup_nil (.nil k)⟩
  | cons t parts ih =>
    obtain ⟨onceHere, onceRest, disjoint⟩ := List.nodup_append.1 once
    rw [List.forall_mem_cons] at stand below
    rw [idsOf, List.mem_append, not_or] at outside
    obtain ⟨r, ws, w₁, ran, first⟩ := storeChild_runs below.1 stand.1 onceHere held
    have kept {x : NodeId} (old : x < w.arena.size) (other : x ∉ t.ids) : w₁.arena.kind? x = w.arena.kind? x :=
      first.rewritten.kept old (by simpa using other)
    have stand' : ∀ s ∈ parts, s.StandsIn w₁.arena := fun s part => (stand.2 s part).congr fun x inside =>
      kept ((stand.2 s part).lt_size x inside) fun here => disjoint x here x (mem_idsOf.2 ⟨s, part, inside⟩) rfl
    obtain ⟨rs, others, w₂, ran', rest⟩ := ih below.2 stand' onceRest
      ((kept (Arena.lt_size_of_kind? held) outside.1).trans held) outside.2
    refine ⟨r :: rs, ws ++ others, w₂, ?_, first.cons rest ?_ fun x here there => disjoint x here x there rfl⟩
    · rw [List.map_cons, List.mapM_cons, bind_of_ok ran, bind_of_ok ran']
      rfl
    · intro x inside
      obtain ⟨s, part, inside⟩ := mem_idsOf.1 inside
      exact (stand.2 s part).lt_size x inside

theorem storeBelow_runs (column : String) (enough : t.height ≤ fuel) : StoresBelow column late fuel t := by
  induction t generalizing fuel with
  | node id kind parts ih =>
    intro w asks stands once
    cases fuel with
    | zero => simp [height] at enough
    | succ fuel =>
      simp only [height, Nat.add_le_add_iff_right] at enough
      obtain ⟨outside, onceParts⟩ := List.nodup_cons.1 once
      obtain ⟨rs, ws, w₁, ran, stored⟩ := storeChildren_runs
        (fun t part => ih t part ((height_le_heightOf part).trans enough)) (fun t part => stands.child part) onceParts
        stands.held outside
      refine ⟨.node id (kind.withChildren (rs.map Tree.id)) rs, ws, _, ?_, rfl, fun k =>
        Stored.node (t := .node id kind parts) stored asks stands once⟩
      rw [storeBelow_succ, id_node, bind_of_ok (kind_of_some stands.held), stands.filled, bind_of_ok ran, ← stands.filled]
      by_cases same : rs.map Tree.id = kind.children
      · simp [same]
        rfl
      · simp [same]
        rfl

end Storage

end DerivedTables
