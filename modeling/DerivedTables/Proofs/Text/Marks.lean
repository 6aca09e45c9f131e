import DerivedTables.Text.Quoted
import DerivedTables.Ty
import Mathlib.Data.List.TakeWhile

/-!
Texts that can be told from what follows them: string literals, names, and types up to the end of a parameter.
-/

namespace DerivedTables

namespace Text

theorem span_append {p : Char → Bool} {front : List Char} (rest : List Char) (each : ∀ c ∈ front, p c = true)
    (stop : ∀ c ∈ rest.head?, p c = false) : ((front ++ rest).takeWhile p, (front ++ rest).dropWhile p) = (front, rest) := by
  rw [List.takeWhile_append_of_pos each, List.dropWhile_append_of_pos each]
  cases rest with
  | nil => simp
  | cons c rest => simp [stop c rfl]

theorem digitChar_inj {n m : Nat} (small : n < 16) (small' : m < 16) (same : n.digitChar = m.digitChar) : n = m := by
  have each : ∀ n < 16, ∀ m < 16, Nat.digitChar n = Nat.digitChar m → n = m := by decide
  exact each n small m small' same

theorem toDigits_inj {n m : Nat} (same : Nat.toDigits 16 n = Nat.toDigits 16 m) : n = m := by
  induction n using Nat.strongRecOn generalizing m with
  | _ n ih =>
    rw [Nat.toDigits_eq_if (by decide), Nat.toDigits_eq_if (n := m) (by decide)] at same
    split at same <;> split at same
    · exact digitChar_inj ‹_› ‹_› (List.singleton_inj.1 same)
    · have short := congrArg List.length same
      simp at short
    · have short := congrArg List.length same
      simp at short
    · obtain ⟨front, last⟩ := List.append_inj' same rfl
      have tens := ih (n / 16) (by omega) front
      have ones := digitChar_inj (Nat.mod_lt n (by decide)) (Nat.mod_lt m (by decide)) (List.singleton_inj.1 last)
      omega

theorem brace_not_mem_toDigits (n : Nat) : ∀ c ∈ Nat.toDigits 16 n, (c != '\x7d') = true := by
  have digit : ∀ n < 16, (Nat.digitChar n != '\x7d') = true := by decide
  induction n using Nat.strongRecOn with
  | _ n ih =>
    rw [Nat.toDigits_eq_if (by decide)]
    split
    · exact List.forall_mem_singleton.2 (digit n ‹_›)
    · rw [List.forall_mem_append]
      exact ⟨ih (n / 16) (by omega), List.forall_mem_singleton.2 (digit (n % 16) (Nat.mod_lt n (by decide)))⟩

/-- What a letter after a backslash stands for. -/
def letters : List (Char × Char) := [('"', '"'), ('\\', '\\'), ('n', '\n'), ('r', '\r'), ('t', '\t'), ('0', '\x00')]

/-- How a character is written: as itself, by a letter, or by its number. -/
inductive Escaped (c : Char) : List Char → Prop
  | itself (plain : c ≠ '\\') (inner : c ≠ '"') : Escaped c [c]
  | letter {x : Char} (known : letters.lookup x = some c) : Escaped c ['\\', x]
  | number : Escaped c (['\\', 'u', '\x7b'] ++ Nat.toDigits 16 c.toNat ++ ['\x7d'])

theorem escaped (c : Char) : Escaped c (escape c) := by
  unfold escape
  split_ifs with quote slash line back tab zero
  · exact .letter (by subst quote; decide)
  · exact .letter (by subst slash; decide)
  · exact .letter (by subst line; decide)
  · exact .letter (by subst back; decide)
  · exact .letter (by subst tab; decide)
  · obtain rfl : c = '\x00' := Char.toNat_inj.1 zero
    exact .letter (by decide)
  · exact .number
  · exact .itself slash quote

theorem escape_split {c d : Char} {x y : List Char} (same : escape c ++ x = escape d ++ y) : c = d ∧ x = y := by
  have first := escaped c
  have second := escaped d
  generalize escape c = s at first same
  generalize escape d = t at second same
  cases first with
  | itself plain =>
    cases second with
    | itself => simpa using same
    | letter | number => simp [plain] at same
  | letter known =>
    cases second with
    | itself plain => simp [plain.symm] at same
    | letter known' =>
      simp only [List.cons_append, List.nil_append, List.cons.injEq, true_and] at same
      obtain ⟨rfl, rfl⟩ := same
      exact ⟨Option.some.inj (known.symm.trans known'), rfl⟩
    | number =>
      simp only [List.cons_append, List.nil_append, List.cons.injEq, true_and] at same
      obtain ⟨rfl, -⟩ := same
      cases known
  | number =>
    cases second with
    | itself plain => simp [plain.symm] at same
    | letter known =>
      simp only [List.cons_append, List.nil_append, List.cons.injEq, true_and] at same
      obtain ⟨rfl, -⟩ := same
      cases known
    | number =>
      simp only [List.cons_append, List.nil_append, List.append_assoc, List.cons.injEq, true_and] at same
      have split := congrArg (fun cs => (cs.takeWhile (· != '\x7d'), cs.dropWhile (· != '\x7d'))) same
      rw [span_append _ (brace_not_mem_toDigits _) (by simp), span_append _ (brace_not_mem_toDigits _) (by simp)] at split
      simp only [Prod.mk.injEq, List.cons.injEq, true_and] at split
      exact ⟨Char.toNat_inj.1 (toDigits_inj split.1), split.2⟩

theorem quoted_split {s t : String} {x y : List Char} (same : (quoted s).toList ++ x = (quoted t).toList ++ y) :
    s = t ∧ x = y := by
  simp only [quoted, String.toList_ofList, List.cons_append, List.append_assoc, List.cons.injEq, true_and, List.nil_append] at same
  suffices inner : ∀ cs ds : List Char, cs.flatMap escape ++ '"' :: x = ds.flatMap escape ++ '"' :: y → cs = ds ∧ x = y by
    obtain ⟨chars, rest⟩ := inner _ _ same
    exact ⟨String.toList_inj.1 chars, rest⟩
  -- The closing quote is how no character begins.
  have opens (c : Char) (r z : List Char) : escape c ++ r ≠ '"' :: z := by
    intro same
    have shown := escaped c
    generalize escape c = s at shown same
    cases shown <;> simp_all
  intro cs ds same
  induction cs generalizing ds with
  | nil =>
    cases ds with
    | nil => simpa using same
    | cons d ds => exact (opens d _ _ (by simpa using same.symm)).elim
  | cons c cs ih =>
    cases ds with
    | nil => exact (opens c _ _ (by simpa using same)).elim
    | cons d ds =>
      obtain ⟨rfl, rest⟩ := escape_split (by simpa using same)
      obtain ⟨rfl, last⟩ := ih ds rest
      exact ⟨rfl, last⟩

end Text

/-- None of what is put around names when they are shown. -/
def nameChar (c : Char) : Bool := !" \"().,:;[]\x7b\x7d".toList.contains c

structure OneWord (x : String) : Prop where
  chars : ∀ c ∈ x.toList, nameChar c = true
  some : x ≠ ""

/-- A name that reads as one word and is no keyword. -/
structure PlainName (x : String) : Prop extends OneWord x where
  other : x ∉ ["if", "then", "else", "let", "true", "false"]

namespace Ty

mutual
def Plain : Ty → Prop
  | named table => PlainName table
  | context name => PlainName name
  | function params returns => PlainFields params ∧ returns.Plain
  | object fields => PlainFields fields
  | array element => element.Plain
  | binding value next => value.Plain ∧ next.Plain
  | _ => True
def PlainFields : Fields → Prop
  | .nil => True
  | .cons name ty rest => PlainName name ∧ ty.Plain ∧ PlainFields rest
end

/-- Cuts before the comma or the bracket that ends what began inside so many brackets. -/
def cut : Nat → List Char → List Char × List Char
  | _, [] => ([], [])
  | depth, c :: cs =>
    if c = '(' ∨ c = '\x7b' then (c :: (cut (depth + 1) cs).1, (cut (depth + 1) cs).2)
    else if c = ')' ∨ c = '\x7d' then
      if depth = 0 then ([], c :: cs) else (c :: (cut (depth - 1) cs).1, (cut (depth - 1) cs).2)
    else if c = ',' ∧ depth = 0 then ([], c :: cs)
    else (c :: (cut depth cs).1, (cut depth cs).2)

def Uncut (depth : Nat) (front : List Char) : Prop :=
  ∀ rest, cut depth (front ++ rest) = (front ++ (cut depth rest).1, (cut depth rest).2)

namespace Uncut

variable {depth : Nat} {front more : List Char}

theorem append (first : Uncut depth front) (second : Uncut depth more) : Uncut depth (front ++ more) := fun rest => by
  rw [List.append_assoc, first, second, List.append_assoc]

theorem of_all (front : List Char) (calm : (front.all fun c => !"(\x7b)\x7d,".toList.contains c) = true) : Uncut depth front := by
  intro rest
  induction front with
  | nil => rfl
  | cons c cs ih =>
    rw [List.all_cons, Bool.and_eq_true] at calm
    have other : c ≠ '(' ∧ c ≠ '\x7b' ∧ c ≠ ')' ∧ c ≠ '\x7d' ∧ c ≠ ',' := by simpa using calm.1
    rw [List.cons_append, cut, ih calm.2]
    simp [other]

theorem name {x : String} (plain : PlainName x) : Uncut depth x.toList := by
  refine .of_all _ (List.all_eq_true.2 fun c listed => ?_)
  have chars := plain.chars c listed
  simp_all [nameChar]

theorem wrap {l r : Char} (inner : Uncut (depth + 1) front) (left : l = '(' ∨ l = '\x7b') (right : r = ')' ∨ r = '\x7d') :
    Uncut depth (l :: front ++ [r]) := by
  intro rest
  obtain rfl | rfl := left <;> obtain rfl | rfl := right <;> simp [cut, inner _]

end Uncut

mutual
theorem uncut_text (ty : Ty) (plain : ty.Plain) (depth : Nat) : Uncut depth ty.text.toList := by
  match ty with
  | string | number | boolean | unknown | void => exact .of_all _ (by decide)
  | named table => exact .name plain
  | context name =>
    rw [text, String.toList_append]
    exact .append (.of_all _ (by decide)) (.name plain)
  | function params returns =>
    have inner := (uncut_fields params plain.1 depth).wrap (.inl rfl) (.inl rfl)
    have whole := (inner.append (.of_all " -> ".toList (by decide))).append (uncut_text returns plain.2 depth)
    simpa [text, String.toList_intercalate] using whole
  | object .nil => exact Uncut.wrap (.of_all [] rfl) (.inr rfl) (.inr rfl)
  | object (.cons name ty rest) =>
    have blank : Uncut (depth + 1) [' '] := .of_all _ (by decide)
    have inner := ((blank.append (uncut_fields (.cons name ty rest) plain depth)).append blank).wrap (.inr rfl) (.inr rfl)
    simpa [text, String.toList_intercalate] using inner
  | array element =>
    rw [text, String.toList_append]
    exact (uncut_text element plain depth).append (.of_all _ (by decide))
  | binding value next =>
    have front : Uncut depth "let ".toList := .of_all _ (by decide)
    have whole := ((front.append (uncut_text value plain.1 depth)).append (.of_all " in ".toList (by decide))).append
      (uncut_text next plain.2 depth)
    simpa [text] using whole
theorem uncut_fields (fields : Fields) (plain : PlainFields fields) (depth : Nat) :
    Uncut (depth + 1) (", ".toList.intercalate ((fieldTexts fields).map String.toList)) := by
  match fields with
  | .nil => exact fun _ => rfl
  | .cons name ty rest =>
    have first := ((Uncut.name plain.1).append (.of_all ": ".toList (by decide))).append
      (uncut_text ty plain.2.1 (depth + 1))
    have comma : Uncut (depth + 1) ", ".toList := fun rest => by simp [cut]
    have others := uncut_fields rest plain.2.2 depth
    cases rest with
    | nil => simpa [fieldTexts] using first
    | cons => simpa [fieldTexts, List.intercalate_cons_cons] using (first.append comma).append others
end

end Ty

end DerivedTables
