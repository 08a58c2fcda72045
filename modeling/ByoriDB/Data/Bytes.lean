import ByoriDB.Data.Table
import Mathlib.Tactic.Ring

namespace ByoriDB.Data

open List Std

abbrev Bytes := List UInt8

/-- A signed word read as an unsigned one, and back. -/
def asU64 (value : Int) : Nat := (value % 18446744073709551616).toNat

def asI64 (word : Nat) : Int :=
  if word < 9223372036854775808 then word else word - 18446744073709551616

def complement (word : Nat) : Nat := 18446744073709551615 - word

def flipSign (word : Nat) : Nat := word ^^^ 9223372036854775808

namespace Bytes

theorem compare_cons (left right : UInt8) :
    compare (left :: lefts) (right :: rights) = (compare left right).then (compare lefts rights) :=
  List.compareLex_cons_cons

theorem compare_congr {α β : Type} [Ord α] [LT α] [LE α] [LawfulOrderOrd α]
    [LawfulOrderLT α] [Ord β] [LT β] [LE β] [LawfulOrderOrd β] [LawfulOrderLT β] {a b : α}
    {c d : β} (less : a < b ↔ c < d) (greater : b < a ↔ d < c) : compare a b = compare c d := by
  rw [← compare_eq_lt, ← compare_eq_lt] at less
  rw [← compare_eq_gt, ← compare_eq_gt] at greater
  cases first : compare a b <;> cases second : compare c d <;> simp_all

theorem compare_byte (left right : UInt8) : compare left right = compare left.toNat right.toNat :=
  compare_congr UInt8.lt_iff_toNat_lt UInt8.lt_iff_toNat_lt

theorem compare_append (common left right : Bytes) :
    compare (common ++ left) (common ++ right) = compare left right := by
  induction common with
  | nil => rfl
  | cons byte rest ih =>
    rw [cons_append, cons_append, compare_cons, Std.compare_eq_iff_eq.mpr rfl, Ordering.eq_then, ih]

theorem compare_append_of_length {left right : Bytes} (same : left.length = right.length) (lefts rights : Bytes) :
    compare (left ++ lefts) (right ++ rights) = (compare left right).then (compare lefts rights) := by
  induction left generalizing right with
  | nil =>
    cases length_eq_zero_iff.mp same.symm
    rfl
  | cons byte rest ih =>
    cases right with
    | nil => simp at same
    | cons other others =>
      rw [cons_append, cons_append, compare_cons, compare_cons, Ordering.then_assoc, ih (by simpa using same)]

/-- Strings without a zero byte keep their order when a zero byte ends them. -/
theorem compare_terminated {left right : Bytes} (leftFree : 0 ∉ left) (rightFree : 0 ∉ right) :
    compare (left ++ 0 :: lefts) (right ++ 0 :: rights) = (compare left right).then (compare lefts rights) := by
  induction left generalizing right with
  | nil =>
    cases right with
    | nil => exact compare_append [0] lefts rights
    | cons other others =>
      have positive : compare (0 : UInt8) other = .lt := by
        rw [compare_byte, Std.compare_eq_lt]
        have nonzero : other ≠ 0 := fun zero => rightFree (by simp [zero])
        have : other.toNat ≠ 0 := fun zero => nonzero (UInt8.toNat_inj.mp zero)
        exact Nat.pos_of_ne_zero this
      rw [nil_append, cons_append, compare_cons, positive]
      rfl
  | cons byte rest ih =>
    cases right with
    | nil =>
      have positive : compare byte (0 : UInt8) = .gt := by
        rw [compare_byte, Std.compare_eq_gt]
        have nonzero : byte ≠ 0 := fun zero => leftFree (by simp [zero])
        have : byte.toNat ≠ 0 := fun zero => nonzero (UInt8.toNat_inj.mp zero)
        exact Nat.pos_of_ne_zero this
      rw [nil_append, cons_append, compare_cons, positive]
      rfl
    | cons other others =>
      rw [cons_append, cons_append, compare_cons, compare_cons, Ordering.then_assoc,
        ih (fun zero => leftFree (mem_cons_of_mem _ zero))
          (fun zero => rightFree (mem_cons_of_mem _ zero))]

/-- The last `width` digits in base 256, most significant first. -/
def bigEndian : Nat → Nat → Bytes
  | 0, _ => []
  | width + 1, number => UInt8.ofNat (number / 256 ^ width) :: bigEndian width (number % 256 ^ width)

def ofBigEndian (bytes : Bytes) : Nat :=
  bytes.foldl (fun number byte => number * 256 + byte.toNat) 0

@[simp] theorem length_bigEndian (width number : Nat) : (bigEndian width number).length = width := by
  induction width generalizing number with
  | zero => rfl
  | succ width ih => simp [bigEndian, ih]

theorem toNat_digit {digit : Nat} (small : digit < 256) : (UInt8.ofNat digit).toNat = digit :=
  UInt8.toNat_ofNat_of_lt' small

theorem foldl_digits : bytes.foldl (fun number byte => number * 256 + byte.toNat) start =
      start * 256 ^ bytes.length + ofBigEndian bytes := by
  induction bytes generalizing start with
  | nil => simp [ofBigEndian]
  | cons byte rest ih =>
    rw [ofBigEndian, foldl_cons, foldl_cons, ih, ih, length_cons, Nat.pow_succ]
    ring

theorem ofBigEndian_bigEndian {width number : Nat} (small : number < 256 ^ width) :
    ofBigEndian (bigEndian width number) = number := by
  induction width generalizing number with
  | zero =>
    have zero : number = 0 := by simpa using small
    rw [zero]
    rfl
  | succ width ih =>
    have positive : 0 < 256 ^ width := Nat.pow_pos (by decide)
    have digit : number / 256 ^ width < 256 := by
      rw [Nat.div_lt_iff_lt_mul positive]
      omega
    rw [bigEndian, ofBigEndian, foldl_cons, foldl_digits, ih (Nat.mod_lt _ positive), length_bigEndian,
      toNat_digit digit, Nat.zero_mul, Nat.zero_add]
    exact Nat.div_add_mod' number (256 ^ width)

theorem ofBigEndian_cons (byte : UInt8) :
    ofBigEndian (byte :: rest) = byte.toNat * 256 ^ rest.length + ofBigEndian rest := by
  rw [ofBigEndian, foldl_cons, foldl_digits, Nat.zero_mul, Nat.zero_add]

theorem ofBigEndian_lt (bytes : Bytes) : ofBigEndian bytes < 256 ^ bytes.length := by
  induction bytes with
  | nil => decide
  | cons byte rest ih =>
    have room := Nat.mul_le_mul_right (256 ^ rest.length) (Nat.succ_le_of_lt byte.toNat_lt)
    rw [Nat.succ_mul] at room
    rw [ofBigEndian_cons, length_cons, Nat.pow_succ]
    omega

theorem bigEndian_ofBigEndian (bytes : Bytes) : bigEndian bytes.length (ofBigEndian bytes) = bytes := by
  induction bytes with
  | nil => rfl
  | cons byte rest ih =>
    have small := ofBigEndian_lt rest
    have positive : 0 < 256 ^ rest.length := Nat.pow_pos (by decide)
    rw [length_cons, bigEndian, ofBigEndian_cons, Nat.mul_comm, Nat.mul_add_div positive, Nat.div_eq_of_lt small,
      Nat.mul_add_mod, Nat.mod_eq_of_lt small, ih, Nat.add_zero, UInt8.ofNat_toNat]

/-- Numbers of one width compare as their byte strings do. -/
theorem compare_bigEndian {width left right : Nat} (leftSmall : left < 256 ^ width)
    (rightSmall : right < 256 ^ width) :
    compare (bigEndian width left) (bigEndian width right) = compare left right := by
  induction width generalizing left right with
  | zero =>
    have leftZero : left = 0 := by simpa using leftSmall
    have rightZero : right = 0 := by simpa using rightSmall
    rw [leftZero, rightZero]
    rfl
  | succ width ih =>
    have positive : 0 < 256 ^ width := Nat.pow_pos (by decide)
    have digit : ∀ {number}, number < 256 ^ (width + 1) → number / 256 ^ width < 256 := by
      intro number small
      rw [Nat.div_lt_iff_lt_mul positive]
      omega
    rw [bigEndian, bigEndian, compare_cons, compare_byte, toNat_digit (digit leftSmall),
      toNat_digit (digit rightSmall), ih (Nat.mod_lt _ positive) (Nat.mod_lt _ positive)]
    have leftSplit := Nat.div_add_mod' left (256 ^ width)
    have rightSplit := Nat.div_add_mod' right (256 ^ width)
    rcases Std.lt_trichotomy (left / 256 ^ width) (right / 256 ^ width) with less | same | greater
    · have below : left < right := Nat.lt_of_div_lt_div less
      rw [Std.compare_eq_lt.mpr less, Std.compare_eq_lt.mpr below]
      rfl
    · rw [Std.compare_eq_iff_eq.mpr same, Ordering.eq_then]
      rw [same] at leftSplit
      exact compare_congr (by omega) (by omega)
    · have above : right < left := Nat.lt_of_div_lt_div greater
      rw [Std.compare_eq_gt.mpr greater, Std.compare_eq_gt.mpr above]
      rfl

theorem not_lt_of_isPrefix {first whole : Bytes} (starts : first <+: whole) : compare whole first ≠ .lt := by
  obtain ⟨rest, rfl⟩ := starts
  have same := compare_append first rest []
  rw [append_nil] at same
  rw [same]
  cases rest with
  | nil => decide
  | cons byte rest => nofun

theorem not_lt_trans {first middle last : Bytes} (inside : first <+: middle)
    (above : compare last middle ≠ .lt) : compare last first ≠ .lt := by
  intro below
  have bounded : (compare first middle).isLE := by
    rw [← OrientedCmp.isGE_iff_isLE]
    have order := not_lt_of_isPrefix inside
    cases compared : compare middle first <;> simp_all
  exact above (TransCmp.lt_of_lt_of_isLE below bounded)

theorem isPrefix_of_between {first middle rest : Bytes} (above : compare middle first ≠ .lt)
    (below : compare middle (first ++ rest) ≠ .gt) : first <+: middle := by
  induction first generalizing middle with
  | nil => exact List.nil_prefix
  | cons byte others ih =>
    cases middle with
    | nil => exact absurd rfl above
    | cons head tail =>
      rw [compare_cons] at above
      rw [cons_append, compare_cons] at below
      cases order : compare head byte with
      | lt => simp [order] at above
      | gt => simp [order] at below
      | eq =>
        rw [order, Ordering.eq_then] at above below
        rw [LawfulEqCmp.eq_of_compare order]
        exact (prefix_cons_inj byte).mpr (ih above below)

theorem isPrefix_terminated {first : Bytes} (free : 0 ∉ first) (whole rest : Bytes) :
    first <+: whole ++ 0 :: rest ↔ first <+: whole := by
  induction whole generalizing first with
  | nil =>
    cases first with
    | nil => simp
    | cons byte others =>
      rw [nil_append, cons_prefix_cons, prefix_nil]
      constructor
      · rintro ⟨rfl, _⟩
        exact absurd mem_cons_self free
      · intro impossible
        cases impossible
  | cons head tail ih =>
    cases first with
    | nil => simp
    | cons byte others =>
      rw [cons_append, cons_prefix_cons, cons_prefix_cons, ih fun zero => free (mem_cons_of_mem _ zero)]

theorem terminated_isPrefix {left right : Bytes} (leftFree : 0 ∉ left)
    (rightFree : 0 ∉ right) (rest : Bytes) : left ++ [0] <+: right ++ 0 :: rest ↔ right = left := by
  constructor
  · intro starts
    have whole : left <+: right ++ 0 :: rest := (prefix_append left [0]).trans starts
    obtain ⟨more, rfl⟩ := (isPrefix_terminated leftFree right rest).mp whole
    rw [append_assoc, prefix_append_right_inj] at starts
    cases more with
    | nil => simp
    | cons byte others =>
      rw [cons_append, cons_prefix_cons] at starts
      exact absurd (by simp [← starts.1]) rightFree
  · rintro rfl
    exact ⟨rest, by simp⟩

end Bytes

/-- On a list in which what comes before, inside and after a range follow one
another, skipping to the range and stopping at its end selects it. -/
theorem takeWhile_dropWhile {α : Type} {entries : List α} {before inside : α → Bool}
    (ordered : entries.Pairwise fun first second => (before second = true → before first = true) ∧
      (before first = false → inside first = false → inside second = false)) :
    (entries.dropWhile before).takeWhile inside = entries.filter fun entry => !before entry && inside entry := by
  induction entries with
  | nil => rfl
  | cons entry rest ih =>
    rw [pairwise_cons] at ordered
    have later := ih ordered.2
    cases early : before entry with
    | true => rw [dropWhile_cons_of_pos early, filter_cons_of_neg (by simp [early]), later]
    | false =>
      have noneBefore : rest.dropWhile before = rest := by
        cases rest with
        | nil => rfl
        | cons next others =>
          apply dropWhile_cons_of_neg
          intro earlier
          simp [(ordered.1 next mem_cons_self).1 earlier] at early
      rw [dropWhile_cons_of_neg (by simp [early])]
      cases within : inside entry with
      | true =>
        rw [takeWhile_cons_of_pos within, filter_cons_of_pos (by simp [early, within]), ← later, noneBefore]
      | false =>
        have noneInside : rest.filter (fun entry => !before entry && inside entry) = [] := by
          rw [filter_eq_nil_iff]
          intro other mem
          simp [(ordered.1 other mem).2 early within]
        rw [takeWhile_cons_of_neg (by simp [within]), filter_cons_of_neg (by simp [within]), noneInside]

namespace Table

variable {ν : Type}

section

variable (table : Table Bytes ν)

def rangeFrom (start : Bytes) : List (Bytes × ν) :=
  table.toList.dropWhile fun entry => compare entry.1 start == .lt

/-- A scan that starts inside a prefix and stops at its end. -/
theorem rangeFrom_takeWhile_under {scope start : Bytes} (inside : scope <+: start) :
    (table.rangeFrom start).takeWhile (fun entry => scope.isPrefixOf entry.1) =
      table.select fun key => !(compare key start == .lt) && scope.isPrefixOf key := by
  rw [rangeFrom, takeWhile_dropWhile, select]
  refine table.ordered_toList.imp ?_
  intro first second before
  simp only [beq_iff_eq, beq_eq_false_iff_ne]
  refine ⟨fun early => TransCmp.lt_trans before early, ?_⟩
  intro reached outside
  cases within : scope.isPrefixOf second.1 with
  | false => rfl
  | true =>
    obtain ⟨rest, same⟩ := List.isPrefixOf_iff_prefix.mp within
    have above := Bytes.not_lt_trans inside reached
    have between := Bytes.isPrefix_of_between above (by rw [same, before]; decide)
    rw [List.isPrefixOf_iff_prefix.mpr between] at outside
    exact absurd outside (by decide)

theorem rangeFrom_takeWhile_isPrefix (scope : Bytes) :
    (table.rangeFrom scope).takeWhile (fun entry => scope.isPrefixOf entry.1) = table.select scope.isPrefixOf := by
  rw [rangeFrom_takeWhile_under table (prefix_refl scope), select, select]
  apply filter_congr
  intro entry _
  cases inside : scope.isPrefixOf entry.1 with
  | false => simp
  | true =>
    have reached := Bytes.not_lt_of_isPrefix (List.isPrefixOf_iff_prefix.mp inside)
    simp [beq_eq_false_iff_ne.mpr reached]

theorem rangeFrom_takeWhile_lt (start stop : Bytes) :
    (table.rangeFrom start).takeWhile (fun entry => compare entry.1 stop == .lt) =
      table.select fun key => !(compare key start == .lt) && compare key stop == .lt := by
  rw [rangeFrom, takeWhile_dropWhile, select]
  refine table.ordered_toList.imp ?_
  intro first second before
  simp only [beq_iff_eq, beq_eq_false_iff_ne]
  refine ⟨fun early => TransCmp.lt_trans before early, ?_⟩
  intro _ past inside
  exact past (TransCmp.lt_trans before inside)

end

end Table
end ByoriDB.Data
