import ByoriDB.Raft.Snapshot
import Mathlib.Data.Finset.Card

namespace ByoriDB.Raft

open List Data

structure SnapshotInstaller where
  group : Nat × Nat
  pendingMeta : Option SnapshotMeta
  pendingChunks : List (Option Bytes)
  receivedChunks : Nat

namespace SnapshotInstaller

def start (group : Nat × Nat) (lastIncludedIndex lastIncludedTerm totalSize createdAt : Nat) : SnapshotInstaller :=
  let chunkCount := chunkTotal totalSize % 2 ^ 32
  ⟨group, some ⟨lastIncludedIndex, lastIncludedTerm, totalSize, chunkCount, createdAt⟩, replicate chunkCount none, 0⟩

section

variable (data : Bytes) (installer : SnapshotInstaller) (chunks : List Nat)

def receiveChunk (offset : Nat) (data : Bytes) (done : Bool) : Except SnapshotError (SnapshotInstaller × Bool) :=
  let index := offset / chunkSize
  match installer.pendingChunks[index]? with
  | none => .error (.invalidChunk s!"Chunk index {index} out of range")
  | some pending =>
    let installer := if pending.isNone then
      { installer with
        pendingChunks := installer.pendingChunks.set index (some data), receivedChunks := installer.receivedChunks + 1 }
      else installer
    .ok (installer, done && decide (installer.pendingChunks.length ≤ installer.receivedChunks))

/-- The store after the chunks have been put together and written. -/
def install (store : SnapshotStore) (createdAt : Nat) : Except SnapshotError SnapshotStore :=
  match installer.pendingMeta with
  | none => .error (.invalidState "No pending snapshot")
  | some description => do
    let data ← installer.pendingChunks.zipIdx.foldlM (fun data chunk => match chunk.1 with
      | none => .error (.invalidChunk s!"Missing chunk {chunk.2}")
      | some piece => .ok (data ++ piece)) []
    pure (store.after (SnapshotWriter.puts
      ⟨installer.group, description.lastIncludedIndex, description.lastIncludedTerm, data⟩ createdAt))

def deliver (k : Nat) : Except SnapshotError (SnapshotInstaller × Bool) :=
  installer.receiveChunk (k * chunkSize) (piece data k) (k + 1 = chunkTotal data.length)

def delivered : Except SnapshotError SnapshotInstaller :=
  chunks.foldlM (fun installer k => Prod.fst <$> installer.deliver data k) installer

def Complete : Prop := ∀ i < chunkTotal data.length, i ∈ chunks

end

instance : Decidable (Complete data chunks) := inferInstanceAs (Decidable (∀ i < _, i ∈ chunks))

structure Holds (data : Bytes) (first : SnapshotInstaller) (chunks : List Nat) (installer : SnapshotInstaller) : Prop where
  group : installer.group = first.group
  described : installer.pendingMeta = first.pendingMeta
  pending : installer.pendingChunks =
    (range (chunkTotal data.length)).map fun i => if i ∈ chunks then some (piece data i) else none
  received : installer.receivedChunks = chunks.toFinset.card

theorem complete_iff {data : Bytes} {chunks : List Nat} (valid : ∀ k ∈ chunks, k < chunkTotal data.length) :
    Complete data chunks ↔ chunkTotal data.length ≤ chunks.toFinset.card := by
  have within : chunks.toFinset ⊆ Finset.range (chunkTotal data.length) := by
    intro k arrived
    exact Finset.mem_range.mpr (valid k (mem_toFinset.mp arrived))
  rw [← Finset.card_range (chunkTotal data.length)]
  constructor
  · intro complete
    refine Finset.card_le_card fun i listed => mem_toFinset.mpr (complete i ?_)
    simpa using listed
  · intro enough i listed
    rw [← mem_toFinset, Finset.eq_of_subset_of_card_le within enough]
    exact Finset.mem_range.mpr listed

theorem Holds.deliver {data : Bytes} {first installer : SnapshotInstaller}
    {chunks : List Nat} {k : Nat} (holds : Holds data first chunks installer)
    (valid : ∀ i ∈ chunks ++ [k], i < chunkTotal data.length) : ∃ next, installer.deliver data k =
      .ok (next, decide (k + 1 = chunkTotal data.length ∧ Complete data (chunks ++ [k]))) ∧
      Holds data first (chunks ++ [k]) next := by
  have known : k < chunkTotal data.length := valid k (by simp)
  have index : k * chunkSize / chunkSize = k := Nat.mul_div_cancel k (by decide)
  have found : installer.pendingChunks[k]? = some (if k ∈ chunks then some (piece data k) else none) := by
    simp [holds.pending, known]
  have size : installer.pendingChunks.length = chunkTotal data.length := by
    simp [holds.pending]
  have arrived : (chunks ++ [k]).toFinset = insert k chunks.toFinset := by
    ext i
    simp
  simp only [complete_iff valid]
  by_cases old : k ∈ chunks
  · rw [Finset.insert_eq_of_mem (mem_toFinset.mpr old)] at arrived
    refine ⟨installer, ?_, holds.group, holds.described, ?_, ?_⟩
    · simp [SnapshotInstaller.deliver, receiveChunk, index, found, old, size, holds.received, arrived]
    · rw [holds.pending]
      refine map_congr_left fun i _ => ?_
      by_cases same : i = k <;> simp [same, old]
    · rw [holds.received, arrived]
  · have count : (insert k chunks.toFinset).card = chunks.toFinset.card + 1 :=
      Finset.card_insert_of_notMem (by simpa using old)
    refine ⟨⟨installer.group, installer.pendingMeta, installer.pendingChunks.set k (some (piece data k)),
      installer.receivedChunks + 1⟩, ?_, holds.group, holds.described, ?_, ?_⟩
    · simp [SnapshotInstaller.deliver, receiveChunk, index, found, old, size, holds.received, arrived, count]
    · rw [holds.pending]
      refine ext_getElem? fun i => ?_
      by_cases same : k = i
      · subst same
        simp [known]
      · by_cases listed : i < chunkTotal data.length <;> simp [same, Ne.symm same, listed]
    · rw [holds.received, arrived, count]

section

variable {data : Bytes} {first : SnapshotInstaller} {chunks : List Nat}

theorem holds_delivered (fresh : Holds data first [] first) (valid : ∀ k ∈ chunks, k < chunkTotal data.length) :
    ∃ installer, first.delivered data chunks = .ok installer ∧ Holds data first chunks installer := by
  induction chunks using reverseRecOn with
  | nil => exact ⟨first, rfl, fresh⟩
  | append_singleton chunks k ih =>
    obtain ⟨installer, ran, holds⟩ := ih fun i arrived => valid i (mem_append_left _ arrived)
    obtain ⟨next, received, holds⟩ := holds.deliver valid
    refine ⟨next, ?_, holds⟩
    simp only [delivered] at ran
    rw [delivered, foldlM_append, ran]
    simp [bind, Except.bind, received, pure, Except.pure, Functor.map, Except.map]

theorem foldlM_some (pieces : List Bytes) (start : Bytes) (index : Nat) :
    ((pieces.map some).zipIdx index).foldlM (fun data chunk => match chunk.1 with
      | none => Except.error (SnapshotError.invalidChunk s!"Missing chunk {chunk.2}")
      | some piece => .ok (data ++ piece)) start = .ok (start ++ pieces.flatten) := by
  induction pieces generalizing start index with
  | nil => simp [pure, Except.pure]
  | cons piece rest ih =>
    rw [map_cons, zipIdx_cons, foldlM_cons, flatten_cons, ← append_assoc]
    exact ih _ _

/-- The readiness that is reported when a chunk arrives after others. -/
def report (data : Bytes) (first : SnapshotInstaller) (before : List Nat) (k : Nat) : Option Bool :=
  ((first.delivered data before).bind fun installer => (installer.deliver data k).map Prod.snd).toOption

theorem holds_start (small : chunkTotal data.length < 2 ^ 32) (group : Nat × Nat) (index term createdAt : Nat) :
    Holds data (start group index term data.length createdAt) [] (start group index term data.length createdAt) := by
  refine ⟨rfl, rfl, ?_, rfl⟩
  change replicate (chunkTotal data.length % 2 ^ 32) none = _
  rw [Nat.mod_eq_of_lt small]
  simp [map_const']

theorem report_eq (fresh : Holds data first [] first) (valid : ∀ i ∈ before ++ [k], i < chunkTotal data.length) :
    report data first before k = some (decide (k + 1 = chunkTotal data.length ∧ Complete data (before ++ [k]))) := by
  obtain ⟨installer, ran, holds⟩ := holds_delivered fresh fun i arrived => valid i (mem_append_left _ arrived)
  obtain ⟨next, received, -⟩ := holds.deliver valid
  simp [report, ran, received, Except.bind, Except.map, Except.toOption]

section

variable {installer : SnapshotInstaller} (holds : Holds data first chunks installer)
include holds

/-- Up to the first gap, the pieces of the data are pending. -/
theorem Holds.assembled (ahead : ∀ j < i, j ∈ chunks) (within : i ≤ chunkTotal data.length) :
    installer.pendingChunks = ((range i).map (piece data)).map some ++
      (range (chunkTotal data.length - i)).map fun j => if i + j ∈ chunks then some (piece data (i + j)) else none := by
  rw [holds.pending, ← Nat.add_sub_cancel' within, range_add, map_append, map_map, map_map, Nat.add_sub_cancel_left]
  congr 1
  exact map_congr_left fun j listed => if_pos (ahead j (mem_range.mp listed))

theorem Holds.install_complete (described : first.pendingMeta = some description) (complete : Complete data chunks) :
    installer.install store now = .ok (store.after (SnapshotWriter.puts
      ⟨first.group, description.lastIncludedIndex, description.lastIncludedTerm, data⟩ now)) := by
  have whole := foldlM_some ((range (chunkTotal data.length)).map (piece data)) [] 0
  rw [nil_append, ← flatMap_def, flatMap_piece_total] at whole
  have pending := holds.assembled complete le_rfl
  rw [Nat.sub_self, range_zero, map_nil, append_nil] at pending
  rw [install, holds.described, described, holds.group, pending]
  simp only [whole]
  rfl

end

/-- Readiness is reported as soon as all chunks are there, if from then on only the last chunk arrives. -/
theorem readiness_exact_iff {group : Nat × Nat} (small : chunkTotal data.length < 2 ^ 32)
    (valid : ∀ k ∈ chunks, k < chunkTotal data.length)
    (begun : first = start group index term data.length createdAt) :
    ((∀ before k after, chunks = before ++ k :: after → report data first before k =
      some (decide (Complete data (before ++ [k])))) ↔ ∀ before k after, chunks =
      before ++ k :: after → Complete data (before ++ [k]) → k + 1 = chunkTotal data.length) ∧
    (Complete data chunks → ∃ installer stored, first.delivered data chunks = .ok installer ∧
      installer.install store now = .ok stored ∧ loadAllData stored group = .ok (some data)) := by
  subst begun
  have fresh := holds_start small group index term createdAt
  refine ⟨?_, fun complete => ?_⟩
  · refine forall_congr' fun before => forall_congr' fun k => forall_congr' fun after => forall_congr' fun parts => ?_
    have validUpTo : ∀ i ∈ before ++ [k], i < chunkTotal data.length := fun i arrived => valid i (by
      rw [parts, append_cons]
      exact mem_append_left _ arrived)
    rw [report_eq fresh validUpTo]
    simp
  · obtain ⟨installer, ran, holds⟩ := holds_delivered fresh valid
    exact ⟨installer, _, ran, holds.install_complete rfl complete, load_puts small⟩

/-- One byte more than a chunk holds. -/
def twoChunks : Bytes := replicate 65537 0

theorem total_twoChunks : chunkTotal twoChunks.length = 2 := by
  rw [twoChunks, length_replicate]
  rfl

theorem complete_twoChunks : Complete twoChunks chunks ↔ 0 ∈ chunks ∧ 1 ∈ chunks := by
  rw [Complete, total_twoChunks]
  refine ⟨fun all => ⟨all 0 (by decide), all 1 (by decide)⟩, fun both i below => ?_⟩
  obtain rfl | rfl : i = 0 ∨ i = 1 := by omega
  · exact both.1
  · exact both.2

/-- The first of two chunks arrives twice. -/
theorem readiness_exact_repeated : (∀ before k after, [0, 0, 1] = before ++ k :: after →
      report twoChunks (start (1, 1) 10 2 twoChunks.length 0) before k =
      some (decide (Complete twoChunks (before ++ [k])))) ∧
    ∃ installer stored, (start (1, 1) 10 2 twoChunks.length 0).delivered twoChunks [0, 0, 1] =
      .ok installer ∧ installer.install (fun _ => none) 0 = .ok stored ∧
      loadAllData stored (1, 1) = .ok (some twoChunks) := by
  have small : chunkTotal twoChunks.length < 2 ^ 32 := by simp [total_twoChunks]
  have valid : ∀ k ∈ [0, 0, 1], k < chunkTotal twoChunks.length := by simp [total_twoChunks]
  obtain ⟨ready, installs⟩ := readiness_exact_iff small valid (rfl : start (1, 1) 10 2 twoChunks.length 0 = _)
  refine ⟨ready.mpr fun before k after parts complete => ?_, installs (complete_twoChunks.mpr (by decide))⟩
  have last := (complete_twoChunks.mp complete).2
  rw [total_twoChunks]
  rcases before with _ | ⟨_, _ | ⟨_, _ | ⟨_, _⟩⟩⟩ <;> simp at parts last <;> omega

/-- The first of two chunks arrives last. -/
theorem readiness_missed : report twoChunks (start (1, 1) 10 2 twoChunks.length 0) [1] 0 = some false ∧
    Complete twoChunks [1, 0] := by
  have small : chunkTotal twoChunks.length < 2 ^ 32 := by simp [total_twoChunks]
  have fresh := holds_start small (1, 1) 10 2 0
  refine ⟨?_, complete_twoChunks.mpr (by decide)⟩
  rw [report_eq fresh (by simp [total_twoChunks]), decide_eq_false]
  simp [total_twoChunks]

end

end SnapshotInstaller

end ByoriDB.Raft
