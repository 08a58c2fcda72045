import Mathlib.Data.List.Chain
import ByoriDB.Meta.Partitions

namespace ByoriDB.Meta

open List

structure SplitSuggestion where
  partId : Nat
  newPartIds : List Nat
  splitPoints : List Int64
  deriving DecidableEq

def checkedI64 (value : Int) : Option Int64 :=
  if -2 ^ 63 ≤ value ∧ value < 2 ^ 63 then some (.ofInt value) else none

section

variable (boundaries : List Int64)

def lowerBound (partIdx : Nat) : Int64 :=
  if partIdx = 0 then .minValue else boundaries[partIdx - 1]?.getD .minValue

def upperBound (partIdx : Nat) : Int64 :=
  boundaries[partIdx]?.getD .maxValue

def halfway (lower upper : Int64) : Option Int64 := do
  let width ← checkedI64 (upper.toInt - lower.toInt)
  checkedI64 (lower.toInt + width.toInt.tdiv 2)

def midpoint (lower upper : Int64) : Option Int64 :=
  if lower = .minValue ∧ upper = .maxValue then some 0
  else if lower = .minValue then checkedI64 (upper.toInt.tdiv 2)
  else if upper = .maxValue then halfway lower .maxValue
  else halfway lower upper

/-- The outer `none` is an overflow, in the midpoint or in the number of the new partition. -/
def suggestSplit (partId : Nat) (strategy : PartitionStrategy) (partitionNum : Nat) : Option (Option SplitSuggestion) :=
  match strategy with
  | .range boundaries => do
    let point ← midpoint (lowerBound boundaries (partId - 1)) (upperBound boundaries (partId - 1))
    if partitionNum + 1 < 2 ^ 32 then some (some ⟨partId, [partId, partitionNum + 1], [point]⟩) else none
  | _ => some none

def Covers (partitionNum partId : Nat) (vid : Int64) : Prop :=
  (PartitionStrategy.range boundaries).computePartition vid partitionNum = partId

/-- Nothing overflows, and a proposed point has ids of the partition below it and is the first one of the upper half. -/
def SplitsInside (partitionNum partId : Nat) : Prop :=
  ∃ suggestion, suggestSplit partId (.range boundaries) partitionNum = some suggestion ∧
    ∀ split ∈ suggestion, ∀ point ∈ split.splitPoints,
      (∃ vid < point, Covers boundaries partitionNum partId vid) ∧ Covers boundaries partitionNum partId point ∧
      (boundaries.take (partId - 1) ++ point :: boundaries.drop (partId - 1)).Pairwise (· < ·)

end

def Splittable (lower upper : Int64) : Prop :=
  if lower = .minValue then 0 < upper else upper.toInt - lower.toInt < 2 ^ 63 ∧ lower.toInt < 2 ^ 63 - 2

variable {boundaries : List Int64} {vid point lower upper : Int64}

theorem checkedI64_eq_some : checkedI64 value = some point ↔ point.toInt = value := by
  rw [checkedI64]
  constructor
  · grind [Int64.toInt_ofInt_of_le]
  · rintro rfl
    rw [if_pos ⟨point.le_toInt, point.toInt_lt⟩, Int64.ofInt_toInt]

theorem exists_toInt {p : Int → Prop} :
    (∃ point : Int64, point.toInt = value ∧ p point.toInt) ↔ (-2 ^ 63 ≤ value ∧ value < 2 ^ 63) ∧ p value := by
  constructor
  · rintro ⟨point, rfl, holds⟩
    exact ⟨⟨point.le_toInt, point.toInt_lt⟩, holds⟩
  · rintro ⟨⟨low, high⟩, holds⟩
    have same := Int64.toInt_ofInt_of_le low high
    exact ⟨_, same, same.symm ▸ holds⟩

theorem midpoint_eq_some (ordered : lower < upper) : midpoint lower upper = some point ↔
    if lower = .minValue then point.toInt = if upper = .maxValue then 0 else upper.toInt.tdiv 2
    else upper.toInt - lower.toInt < 2 ^ 63 ∧ point.toInt = lower.toInt + (upper.toInt - lower.toInt) / 2 := by
  have positive := Int64.lt_iff_toInt_lt.mp ordered
  by_cases atStart : lower = .minValue
  · by_cases atEnd : upper = .maxValue
    · simp [midpoint, atStart, atEnd, ← Int64.toInt_inj, eq_comm]
    · simp [midpoint, atStart, atEnd, checkedI64_eq_some]
  · have isHalfway : midpoint lower upper = halfway lower upper := by grind [midpoint]
    rw [isHalfway, if_neg atStart]
    simp only [halfway, Option.bind_eq_bind, Option.bind_eq_some_iff, checkedI64_eq_some]
    rw [exists_toInt (p := fun width => point.toInt = lower.toInt + width.tdiv 2), Int.tdiv_eq_ediv_of_nonneg (by omega)]
    omega

/-- `followed` where another partition follows. -/
theorem midpoint_inside_iff (ordered : lower < upper) (wide : followed → lower.toInt + 1 < upper.toInt)
    (last : ¬ followed → upper = .maxValue) :
    (∃ point, midpoint lower upper = some point ∧ lower < point ∧ (followed → point < upper)) ↔ Splittable lower upper := by
  have largest := upper.toInt_lt
  have least := lower.le_toInt
  have greatest : Int64.maxValue.toInt = 2 ^ 63 - 1 := rfl
  have start : Int64.minValue.toInt = -2 ^ 63 := rfl
  have zero : (0 : Int64).toInt = 0 := rfl
  simp only [midpoint_eq_some ordered, Splittable]
  simp only [Int64.lt_iff_toInt_lt, Int.tdiv_eq_ediv, ← Int64.toInt_inj, greatest, start, zero] at ordered last ⊢
  split
  on_goal 2 => simp [and_assoc]
  all_goals
    rw [exists_toInt (p := fun point => lower.toInt < point ∧ (followed → point < upper.toInt))]
    by_cases isFollowed : followed
    · have := wide isFollowed
      grind
    · have := last isFollowed
      grind

theorem findIdx_eq_iff (sorted : boundaries.Pairwise (· < ·)) (bound : idx ≤ boundaries.length) :
    boundaries.findIdx (vid < ·) = idx ↔ lowerBound boundaries idx ≤ vid ∧
      (idx < boundaries.length → vid < upperBound boundaries idx) := by
  have least : Int64.minValue ≤ vid := Int64.minValue_le vid
  induction boundaries generalizing idx with
  | nil => simp_all [lowerBound]
  | cons first rest ih =>
    rw [pairwise_cons] at sorted
    cases idx with
    | zero => grind [lowerBound, upperBound]
    | succ idx =>
      have above : ∀ (inside : idx - 1 < rest.length), first < rest[idx - 1] := fun inside => sorted.1 _ (getElem_mem inside)
      grind [lowerBound, upperBound]

theorem pairwise_insert (sorted : boundaries.Pairwise (· < ·))
    (bound : idx ≤ boundaries.length) (above : lowerBound boundaries idx < point)
    (under : idx < boundaries.length → point < upperBound boundaries idx) :
    (boundaries.take idx ++ point :: boundaries.drop idx).Pairwise (· < ·) := by
  have : Trans (α := Int64) (· < ·) (· < ·) (· < ·) := ⟨Int64.lt_trans⟩
  rw [← isChain_iff_pairwise] at sorted ⊢
  refine isChain_append.mpr ⟨sorted.take idx, isChain_cons.mpr ⟨?_, sorted.drop idx⟩, ?_⟩
  · grind [upperBound, head?_drop]
  · grind [lowerBound, getLast?_take]

/-- A part that holds two ids is split inside if and only if a new part fits and its bounds can be halved. -/
theorem suggestSplit_inside_iff
    (valid : (PartitionStrategy.range boundaries).validate partitionNum = true)
    (below : vid < other) (first : Covers boundaries partitionNum partId vid)
    (second : Covers boundaries partitionNum partId other) :
    SplitsInside boundaries partitionNum partId ↔ partitionNum + 1 < 2 ^ 32 ∧
      Splittable (lowerBound boundaries (partId - 1)) (upperBound boundaries (partId - 1)) := by
  simp only [PartitionStrategy.validate, Bool.and_eq_true, decide_eq_true_eq, beq_iff_eq] at valid
  obtain ⟨positive, -, sorted⟩ := valid
  simp only [SplitsInside, Covers, suggestSplit, PartitionStrategy.computePartition, if_neg positive] at *
  subst first
  have bound : boundaries.findIdx (vid < ·) ≤ boundaries.length := findIdx_le_length
  generalize isIdx : boundaries.findIdx (vid < ·) = idx at *
  simp only [Nat.add_right_cancel_iff, Nat.add_sub_cancel, findIdx_eq_iff sorted bound] at *
  have last : ¬ idx < boundaries.length → upperBound boundaries idx = .maxValue := by grind [upperBound]
  have wide : idx < boundaries.length → (lowerBound boundaries idx).toInt + 1 < (upperBound boundaries idx).toInt := by
    intro followed
    have above := second.2 followed
    simp only [Int64.le_iff_toInt_le, Int64.lt_iff_toInt_lt] at isIdx below above
    omega
  have ordered : lowerBound boundaries idx < upperBound boundaries idx := by
    by_cases followed : idx < boundaries.length
    · exact Int64.lt_iff_toInt_lt.mpr (Int.lt_trans (Int.lt_succ _) (wide followed))
    · rw [last followed]
      exact Int64.lt_of_le_of_lt isIdx.1 (Int64.lt_of_lt_of_le below (Int64.le_maxValue other))
  rw [← midpoint_inside_iff ordered wide last]
  constructor
  · rintro ⟨suggestion, suggested, splits⟩
    obtain ⟨point, isPoint, fits⟩ := Option.bind_eq_some_iff.mp suggested
    split at fits
    · next small =>
      cases fits
      obtain ⟨⟨lesser, before, low, -⟩, high, -⟩ := splits _ rfl point (by simp)
      exact ⟨small, point, isPoint, Int64.lt_of_le_of_lt low before, high.2⟩
    · cases fits
  · rintro ⟨small, point, isPoint, above, under⟩
    refine ⟨_, Option.bind_eq_some_iff.mpr ⟨point, isPoint, if_pos small⟩, ?_⟩
    rintro split ⟨⟩ other mem
    cases mem_singleton.mp mem
    exact ⟨⟨_, above, Int64.le_refl _, fun _ => ordered⟩, ⟨Int64.le_of_lt above, under⟩, pairwise_insert sorted bound above under⟩

theorem suggestSplit_inside_positive : SplitsInside [0, 10] 3 2 :=
  (suggestSplit_inside_iff (by decide) (show (0 : Int64) < 1 by decide)
    (show Covers [0, 10] 3 2 0 from rfl) rfl).mpr (by unfold Splittable; decide)

/-- Half of a negative boundary is above it. -/
theorem suggestSplit_outside : (PartitionStrategy.range [-10]).validate 2 = true ∧ Covers [-10] 2 1 (-12) ∧
    Covers [-10] 2 1 (-11) ∧ ¬ SplitsInside [-10] 2 1 := by
  refine ⟨by decide, rfl, rfl, ?_⟩
  rintro ⟨suggestion, suggested, splits⟩
  have proposed : suggestSplit 1 (.range [-10]) 2 = some (some ⟨1, [1, 3], [-5]⟩) := by decide
  cases proposed.symm.trans suggested
  exact absurd (splits _ rfl (-5) (by simp)).2.1 (by unfold Covers; decide)

end ByoriDB.Meta
