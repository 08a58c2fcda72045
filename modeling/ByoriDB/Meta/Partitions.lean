import ByoriDB.Data.Table

namespace ByoriDB.Meta

open List Data

def hashVid (vid : Int64) : UInt64 :=
  let h := vid.toUInt64
  let h := (h ^^^ (h >>> 33)) * 0xff51afd7ed558ccd
  let h := (h ^^^ (h >>> 33)) * 0xc4ceb9fe1a85ec53
  h ^^^ (h >>> 33)

def computePartition (vid : Int64) (partitionNum : Nat) : Nat :=
  if partitionNum = 0 then 1 else (hashVid vid).toNat % partitionNum + 1

inductive PartitionStrategy where
  | hash
  | range (boundaries : List Int64)
  | modulo

def PartitionStrategy.computePartition (strategy : PartitionStrategy) (vid : Int64) (partitionNum : Nat) : Nat :=
  if partitionNum = 0 then 1
  else match strategy with
    | .hash => Meta.computePartition vid partitionNum
    | .range boundaries => boundaries.findIdx (fun boundary => vid < boundary) + 1
    | .modulo => (if vid < 0 then -vid else vid).toUInt64.toNat % partitionNum + 1

def PartitionStrategy.validate (strategy : PartitionStrategy) (partitionNum : Nat) : Bool :=
  partitionNum ≠ 0 && match strategy with
    | .range boundaries => boundaries.length == partitionNum - 1 && decide (boundaries.Pairwise (· < ·))
    | _ => true

/-- The executor asks each partition for its own group. -/
def groupVidsByPartition (vids : List Int64) (partitionNum : Nat) : Table Nat (List Int64) :=
  vids.foldl (fun groups vid =>
    let partId := computePartition vid partitionNum
    groups.insert partId ((groups.get partId).getD [] ++ [vid])) .empty

/-- The partitions that a storage node has to own to answer for the vertices. -/
def fetchPartitions (vids : List Int64) (partitionNum : Nat) : List Nat :=
  (vids.map fun vid => computePartition vid partitionNum).eraseDups

theorem mem_groupVids {vids : List Int64} :
    vid ∈ ((groupVidsByPartition vids partitionNum).get partId).getD [] ↔
      vid ∈ vids ∧ computePartition vid partitionNum = partId := by
  have step : ∀ (rest : List Int64) (groups : Table Nat (List Int64)),
      vid ∈ ((rest.foldl (fun groups vid => let partId := computePartition vid partitionNum
        groups.insert partId ((groups.get partId).getD [] ++ [vid])) groups).get partId).getD [] ↔
      vid ∈ (groups.get partId).getD [] ∨ vid ∈ rest ∧ computePartition vid partitionNum = partId := by
    intro rest
    induction rest with
    | nil => simp
    | cons first rest ih =>
      intro groups
      rw [foldl_cons, ih, get_insert]
      by_cases here : partId = computePartition first partitionNum
      · grind
      · grind
  simpa [groupVidsByPartition] using step vids .empty

def Agree (strategy : PartitionStrategy) (partitionNum : Nat) : Prop :=
  ∀ vids, (∀ vid ∈ vids, ∀ partId, vid ∈ ((groupVidsByPartition vids partitionNum).get partId).getD [] ↔
      partId = strategy.computePartition vid partitionNum) ∧
    ∀ partId, partId ∈ fetchPartitions vids partitionNum ↔ ∃ vid ∈ vids, partId = strategy.computePartition vid partitionNum

theorem agree_iff : Agree strategy partitionNum ↔
    ∀ vid, computePartition vid partitionNum = strategy.computePartition vid partitionNum := by
  constructor
  · intro agree vid
    exact (((agree [vid]).1 vid (by simp) _).mp (mem_groupVids.mpr ⟨by simp, rfl⟩))
  · intro same vids
    constructor
    · intro vid mem partId
      rw [mem_groupVids, same, eq_comm (a := partId)]
      simp [mem]
    · intro partId
      rw [fetchPartitions, mem_eraseDups, mem_map]
      simp [same, eq_comm]

theorem one_of_coprime (left : partitionNum ∣ a) (right : partitionNum ∣ b) (coprime : Nat.gcd a b = 1) : partitionNum = 1 :=
  Nat.dvd_one.mp (coprime ▸ Nat.dvd_gcd left right)

theorem range_agrees {boundaries : List Int64} (lengthOk : boundaries.length = partitionNum - 1)
    (positive : partitionNum ≠ 0) (same : ∀ vid, computePartition vid partitionNum =
      (PartitionStrategy.range boundaries).computePartition vid partitionNum) :
    partitionNum = 1 := by
  simp only [computePartition, PartitionStrategy.computePartition, if_neg positive, Nat.add_right_cancel_iff] at same
  cases boundaries with
  | nil => grind
  | cons boundary boundaries =>
    -- vertex 0 has hash 0, so the first boundary is above it and above all negative vertices
    have above : 0 < boundary := by
      by_contra notAbove
      have zero := same 0
      have noHash : (hashVid 0).toNat = 0 := by decide
      rw [findIdx_cons, decide_eq_false notAbove, noHash, Nat.zero_mod] at zero
      simp at zero
    have divides : ∀ vid < 0, partitionNum ∣ (hashVid vid).toNat := by
      intro vid negative
      have first := same vid
      rw [findIdx_cons, decide_eq_true (Int64.lt_trans negative above)] at first
      exact Nat.dvd_of_mod_eq_zero first
    exact one_of_coprime (divides (-1) (by decide)) (divides (-2) (by decide)) (by decide +kernel)

theorem modulo_agrees (positive : partitionNum ≠ 0)
    (same : ∀ vid, computePartition vid partitionNum =
      PartitionStrategy.modulo.computePartition vid partitionNum) : partitionNum = 1 := by
  simp only [computePartition, PartitionStrategy.computePartition, if_neg positive, Nat.add_right_cancel_iff] at same
  have one := Nat.dvd_of_mod_eq_zero (Nat.sub_mod_eq_zero_of_mod_eq (same 1))
  have two := Nat.dvd_of_mod_eq_zero (Nat.sub_mod_eq_zero_of_mod_eq (same 2))
  exact one_of_coprime one two (by decide +kernel)

/-- The executor and the storage nodes always hash. -/
theorem partitions_agree_iff {strategy : PartitionStrategy} (valid : strategy.validate partitionNum = true) :
    Agree strategy partitionNum ↔ strategy = .hash ∨ partitionNum = 1 := by
  rw [agree_iff]
  cases strategy with
  | hash =>
    simp only [PartitionStrategy.computePartition, computePartition]
    grind
  | range boundaries =>
    simp only [PartitionStrategy.validate, Bool.and_eq_true, decide_eq_true_eq, beq_iff_eq] at valid
    constructor
    · exact fun same => .inr (range_agrees valid.2.1 valid.1 same)
    · rintro (impossible | rfl)
      · cases impossible
      · simp [length_eq_zero_iff.mp valid.2.1, PartitionStrategy.computePartition, computePartition, Nat.mod_one]
  | modulo =>
    simp only [PartitionStrategy.validate, Bool.and_true, decide_eq_true_eq] at valid
    constructor
    · exact fun same => .inr (modulo_agrees valid same)
    · rintro (impossible | rfl)
      · cases impossible
      · simp [PartitionStrategy.computePartition, computePartition, Nat.mod_one]

theorem partitions_agree_hash : Agree .hash 8 :=
  (partitions_agree_iff (by decide)).mpr (.inl rfl)

theorem partitions_disagree : PartitionStrategy.modulo.validate 2 = true ∧ ¬ Agree .modulo 2 := by
  refine ⟨by decide, fun agree => ?_⟩
  have same := agree_iff.mp agree 1
  revert same
  decide +kernel

end ByoriDB.Meta
