import Mathlib
import DerivedTables.Source.Lines

/-!
Looking up a line and a column.
-/

namespace DerivedTables

namespace Lines

def bytes (text : String) : List UInt8 := text.toUTF8.data.toList

/-- Where the newline bytes strictly before an offset stand, in order. -/
def breaks (bytes : List UInt8) (offset : Nat) : List Nat :=
  (List.range offset).filter fun i => bytes[i]? = some 10

/-- Just after the last newline byte before the offset. -/
def lineStart (bytes : List UInt8) (offset : Nat) : Nat := (breaks bytes offset).getLast?.elim 0 (· + 1)

/-- That many lines start at or before the offset, and all others after it. -/
def SplitsAt (lines : Lines) (offset : UInt32) (n : Nat) : Prop :=
  (∀ start ∈ lines.starts.take n, start ≤ offset) ∧ ∀ start ∈ lines.starts.drop n, offset < start

def Position.Before (p q : Position) : Prop := p.line < q.line ∨ p.line = q.line ∧ p.column < q.column

section Breaks

variable {text : List UInt8} {n m : Nat}

theorem breaks_cons (byte : UInt8) (rest : List UInt8) (n : Nat) :
    breaks (byte :: rest) (n + 1) = (if byte = 10 then [0] else []) ++ (breaks rest n).map (· + 1) := by
  rw [breaks, List.range_succ_eq_map, List.filter_cons, List.filter_map]
  split <;> simp_all [breaks, Function.comp_def]

theorem breaks_length_le (text : List UInt8) (n : Nat) : (breaks text n).length ≤ n := by
  simpa [breaks] using List.length_filter_le (fun i => text[i]? = some 10) (List.range n)

theorem lineStart_le (text : List UInt8) (n : Nat) : lineStart text n ≤ n := by
  rw [lineStart]
  cases last : (breaks text n).getLast? with
  | none => simp
  | some i =>
    have inside : i ∈ breaks text n := List.mem_of_getLast? last
    simp only [breaks, List.mem_filter, List.mem_range] at inside
    exact inside.1

/-- Between two offsets a line ends, or both are on the line that starts at the same place. -/
theorem breaks_between (text : List UInt8) (before : n < m) : (breaks text n).length < (breaks text m).length ∨
    (breaks text n).length = (breaks text m).length ∧ lineStart text n = lineStart text m := by
  obtain ⟨d, rfl⟩ := Nat.exists_eq_add_of_lt before
  have grows : breaks text (n + d + 1) =
      breaks text n ++ ((List.range (d + 1)).map (n + ·)).filter fun i => text[i]? = some 10 := by
    rw [breaks, Nat.add_assoc, List.range_add, List.filter_append, breaks]
  cases more : ((List.range (d + 1)).map (n + ·)).filter fun i => text[i]? = some 10 with
  | nil =>
    rw [more, List.append_nil] at grows
    exact .inr ⟨by rw [grows], by rw [lineStart, lineStart, grows]⟩
  | cons i rest =>
    rw [more] at grows
    exact .inl (by simp [grows])

end Breaks

section Table

variable {offset : UInt32} {start : Nat} {text : List UInt8}

theorem toNat_start (fits : start < 2 ^ 32) : (UInt32.ofNat start).toNat = start := UInt32.toNat_ofNat_of_lt' fits

/-- The starts follow one another, all after the place where the scan begins. -/
theorem startsAfter_sorted (fits : start + text.length < 2 ^ 32) :
    (startsAfter start text).Pairwise (· < ·) ∧ ∀ x ∈ startsAfter start text, start < x.toNat := by
  induction text generalizing start with
  | nil => simp [startsAfter]
  | cons byte rest ih =>
    rw [List.length_cons] at fits
    obtain ⟨sorted, above⟩ := @ih (start + 1) (by omega)
    have first : (UInt32.ofNat (start + 1)).toNat = start + 1 := toNat_start (by omega)
    rw [startsAfter]
    split
    · refine ⟨.cons (fun x inside => ?_) sorted, ?_⟩
      · rw [UInt32.lt_iff_toNat_lt, first]
        exact above x inside
      · rintro x (_ | ⟨_, inside⟩)
        · rw [first]
          exact Nat.lt_succ_self start
        · exact Nat.lt_of_succ_lt (above x inside)
    · exact ⟨sorted, fun x inside => Nat.lt_of_succ_lt (above x inside)⟩

/-- The starts up to an offset stand just after the newline bytes before it. -/
theorem startsAfter_reached (offset : UInt32) (fits : start + text.length < 2 ^ 32) :
    ((startsAfter start text).takeWhile (· ≤ offset)).map UInt32.toNat = (breaks text (offset.toNat - start)).map
    (start + 1 + ·) := by
  induction text generalizing start with
  | nil => simp [startsAfter, breaks]
  | cons byte rest ih =>
    rw [List.length_cons] at fits
    have inner := @ih (start + 1) (by omega)
    have first : (UInt32.ofNat (start + 1)).toNat = start + 1 := toNat_start (by omega)
    rw [startsAfter]
    generalize UInt32.ofNat (start + 1) = x at first ⊢
    by_cases reaches : x ≤ offset
    · have below : start + 1 ≤ offset.toNat := first ▸ UInt32.le_iff_toNat_le.1 reaches
      obtain ⟨n, left⟩ := Nat.exists_eq_add_of_le below
      rw [left, Nat.add_sub_cancel_left] at inner
      rw [left, Nat.add_right_comm, Nat.add_assoc, Nat.add_sub_cancel_left, breaks_cons]
      have shift : ∀ i, start + 1 + 1 + i = start + 1 + (i + 1) := by omega
      split <;> simp [reaches, first, inner, Function.comp_def, shift]
    · have past : offset.toNat ≤ start := by
        rw [UInt32.le_iff_toNat_le, first] at reaches
        omega
      have none (text : List UInt8) : breaks text 0 = [] := rfl
      rw [Nat.sub_eq_zero_of_le (by omega)] at inner
      rw [Nat.sub_eq_zero_of_le past, none]
      split
      · simp [reaches]
      · simpa [none] using inner

end Table

section Positions

variable {text : String} {offset other : UInt32}

theorem starts_ofText : (ofText text).starts = 0 :: startsAfter 0 (bytes text) := rfl

theorem fits_of_short (short : text.utf8ByteSize < 2 ^ 32) : 0 + (bytes text).length < 2 ^ 32 := by
  rwa [Nat.zero_add]

theorem starts_sorted (short : text.utf8ByteSize < 2 ^ 32) : (ofText text).starts.Pairwise (· < ·) := by
  obtain ⟨sorted, above⟩ := startsAfter_sorted (fits_of_short short)
  exact .cons (fun x inside => UInt32.lt_iff_toNat_lt.2 (above x inside)) sorted

theorem starts_reached (short : text.utf8ByteSize < 2 ^ 32) (offset : UInt32) :
    ((ofText text).starts.takeWhile (· ≤ offset)).map UInt32.toNat = 0 :: (breaks (bytes text) offset.toNat).map
    (· + 1) := by
  have reached := startsAfter_reached offset (fits_of_short short)
  simpa [starts_ofText, Nat.add_comm] using reached

theorem reached_length (short : text.utf8ByteSize < 2 ^ 32) (offset : UInt32) :
    ((ofText text).starts.takeWhile (· ≤ offset)).length = (breaks (bytes text) offset.toNat).length + 1 := by
  simpa using congrArg List.length (starts_reached short offset)

theorem splitsAt_iff (short : text.utf8ByteSize < 2 ^ 32) {n : Nat} :
    n ≤ (ofText text).count ∧ (ofText text).SplitsAt offset n ↔ n = (breaks (bytes text) offset.toNat).length + 1 := by
  rw [← reached_length short, SplitsAt, count]
  have sorted := starts_sorted short
  generalize (ofText text).starts = starts at *
  constructor
  · rintro ⟨within, before, after⟩
    have stops : (starts.drop n).takeWhile (· ≤ offset) = [] := by
      cases left : starts.drop n with
      | nil => rfl
      | cons start rest =>
        have past : offset < start := after start (by simp [left])
        simp [UInt32.not_le.2 past]
    have taken : (starts.take n ++ starts.drop n).takeWhile (· ≤ offset) = starts.take n := by
      rw [List.takeWhile_append_of_pos (by simpa using before), stops, List.append_nil]
    rw [List.take_append_drop] at taken
    rw [taken, List.length_take, Nat.min_eq_left within]
  · rintro rfl
    have taken := List.prefix_iff_eq_take.1 (List.takeWhile_prefix (l := starts) (· ≤ offset))
    have left : (starts.takeWhile (· ≤ offset) ++ starts.dropWhile (· ≤ offset)).drop
        (starts.takeWhile (· ≤ offset)).length = starts.dropWhile (· ≤ offset) := List.drop_left
    rw [List.takeWhile_append_dropWhile] at left
    rw [← taken, left]
    refine ⟨(List.takeWhile_prefix _).length_le,
      fun start inside => by simpa using List.all_eq_true.1 List.all_takeWhile start inside, ?_⟩
    have tail := sorted.sublist (List.dropWhile_suffix (· ≤ offset)).sublist
    cases rest : starts.dropWhile (· ≤ offset) with
    | nil => simp
    | cons start later =>
      rw [rest] at tail
      have past : offset < start := by
        simpa [rest] using List.head_dropWhile_not (l := starts) (· ≤ offset) (by simp [rest])
      rintro x (_ | ⟨_, inside⟩)
      · exact past
      · exact UInt32.lt_trans past (List.rel_of_pairwise_cons tail inside)

theorem reached_last (short : text.utf8ByteSize < 2 ^ 32) (offset : UInt32) :
    (((ofText text).starts.takeWhile (· ≤ offset)).getLastD 0).toNat = lineStart (bytes text) offset.toNat := by
  have last := congrArg List.getLast? (starts_reached short offset)
  rw [List.getLast?_map, List.getLast?_cons, List.getLast?_map] at last
  obtain ⟨start, found, same⟩ := Option.map_eq_some_iff.1 last
  rw [List.getLastD_eq_getLast?, found, Option.getD_some, same, lineStart]
  cases (breaks (bytes text) offset.toNat).getLast? <;> rfl

/-- The line counts the newline bytes before the offset, the column the bytes after the last of them. -/
theorem position_eq (short : text.utf8ByteSize < 2 ^ 32) (below : offset.toNat < 2 ^ 32 - 1) :
    ((ofText text).position offset).line.toNat = (breaks (bytes text) offset.toNat).length + 1 ∧
    ((ofText text).position offset).column.toNat = offset.toNat - lineStart (bytes text) offset.toNat + 1 := by
  have few := breaks_length_le (bytes text) offset.toNat
  have last := reached_last short offset
  have reached : ((ofText text).starts.takeWhile (· ≤ offset)).getLastD 0 ≤ offset := by
    rw [UInt32.le_iff_toNat_le, last]
    exact lineStart_le _ _
  rw [position, reached_length short, toNat_start (by omega), UInt32.toNat_add, UInt32.toNat_sub_of_le _ _ reached, last]
  refine ⟨rfl, Nat.mod_eq_of_lt ?_⟩
  rw [UInt32.toNat_one]
  omega

theorem position_before (short : text.utf8ByteSize < 2 ^ 32) (before : offset < other)
    (below : other.toNat < 2 ^ 32 - 1) : ((ofText text).position offset).Before ((ofText text).position other) := by
  rw [UInt32.lt_iff_toNat_lt] at before
  obtain ⟨line, column⟩ := position_eq short (Nat.lt_trans before below)
  obtain ⟨line', column'⟩ := position_eq short below
  have start := lineStart_le (bytes text) offset.toNat
  rw [Position.Before, UInt32.lt_iff_toNat_lt, UInt32.lt_iff_toNat_lt, ← UInt32.toNat_inj, line, line', column, column']
  have := breaks_between (bytes text) before
  omega

/-- Looking up a position is exact, past the end of the text too: an offset splits the table of starts at one place,
which numbers its line, the column counts from the line's start, and neither is cut off. Offsets and positions come in
the same order, so a position belongs to one offset. -/
theorem position_exact (short : text.utf8ByteSize < 2 ^ 32) :
    (∀ offset : UInt32, offset.toNat < 2 ^ 32 - 1 →
      let newlines := (breaks (bytes text) offset.toNat).length
      let start := lineStart (bytes text) offset.toNat
      (∀ n, n ≤ (ofText text).count ∧ (ofText text).SplitsAt offset n ↔ n = newlines + 1) ∧
        newlines + 1 < 2 ^ 32 ∧ start ≤ offset.toNat ∧ offset.toNat - start + 1 < 2 ^ 32 ∧
        ((ofText text).position offset).line.toNat = newlines + 1 ∧
        ((ofText text).position offset).column.toNat = offset.toNat - start + 1) ∧
    (∀ offset other : UInt32, offset.toNat < 2 ^ 32 - 1 → other.toNat < 2 ^ 32 - 1 →
      ((ofText text).position offset = (ofText text).position other → offset = other) ∧
      (offset < other ↔ ((ofText text).position offset).Before ((ofText text).position other))) := by
  refine ⟨fun offset below => ⟨fun _ => splitsAt_iff short, ?_⟩, fun offset other below below' => ?_⟩
  · have few := breaks_length_le (bytes text) offset.toNat
    exact ⟨by omega, lineStart_le _ _, by omega, position_eq short below⟩
  · have order := fun before : offset < other => position_before short before below'
    have order' := fun before : other < offset => position_before short before below
    simp only [Position.Before, UInt32.lt_iff_toNat_lt, ← UInt32.toNat_inj] at order order' ⊢
    refine ⟨fun same => ?_, order, fun before => ?_⟩
    · rw [same] at order order'
      omega
    · obtain less | equal | greater := Nat.lt_trichotomy offset.toNat other.toNat
      · exact less
      · rw [UInt32.toNat_inj.1 equal] at before
        omega
      · have := order' greater
        omega

def emptyLine : String := "T \x7b\n\n  n: number\n\x7d"

/-- The second line is empty, and the last goes on past the end of the text. -/
theorem emptyLine_position_exact : emptyLine.utf8ByteSize < 2 ^ 32 ∧ (40 : UInt32).toNat < 2 ^ 32 - 1 ∧
    ((ofText emptyLine).position 40).line.toNat = 4 ∧ ((ofText emptyLine).position 40).column.toNat = 24 := by
  have short : emptyLine.utf8ByteSize < 2 ^ 32 := by decide
  obtain ⟨-, -, -, -, line, column⟩ := (position_exact short).1 40 (by decide)
  exact ⟨short, by decide, line.trans (by decide), column.trans (by decide)⟩

end Positions

end Lines

end DerivedTables
