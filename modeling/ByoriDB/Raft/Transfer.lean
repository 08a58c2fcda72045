import ByoriDB.Raft.Installer

namespace ByoriDB.Raft

open List Data

variable {data : Bytes} {group other : Nat × Nat} {store old sender : SnapshotStore} {writer : SnapshotWriter} {i k : Nat}

theorem after_other {key : SnapshotKey} (others : ∀ put ∈ puts, put.1 ≠ key) : store.after puts key = store key := by
  induction puts using reverseRecOn with
  | nil => rfl
  | append_singleton puts put ih =>
    rw [after_concat, Function.update_of_ne (others put (by simp)).symm, ih fun put earlier => others put (by simp [earlier])]

/-- A snapshot of one group leaves those of the others alone. -/
theorem iterKvs_other (different : other ≠ writer.group) :
    iterKvs (store.after (writer.puts now)) other = iterKvs store other := by
  have described : store.after (writer.puts now) (.info other) = store (.info other) := by
    apply after_other
    simp [SnapshotWriter.puts, SnapshotWriter.putChunk, or_imp, forall_and, different.symm]
  have chunk : ∀ i, store.after (writer.puts now) (.chunk other i) = store (.chunk other i) := by
    intro i
    apply after_other
    simp [SnapshotWriter.puts, SnapshotWriter.putChunk, or_imp, forall_and, different.symm]
  simp only [iterKvs, loadAllData, loadMeta, loadChunk, described, chunk]

variable (writer)

theorem loadMeta_puts : loadMeta (store.after (writer.puts now)) writer.group = .ok (some ⟨writer.lastIncludedIndex,
    writer.lastIncludedTerm, writer.data.length, chunkTotal writer.data.length % 2 ^ 32, now⟩) := by
  rw [loadMeta, SnapshotWriter.puts, after_concat, Function.update_self]

theorem loadChunk_puts (small : chunkTotal writer.data.length < 2 ^ 32)
    (known : k < chunkTotal writer.data.length) :
    loadChunk (store.after (writer.puts now)) writer.group k = .ok
      (some ⟨k, k * chunkSize, piece writer.data k, k + 1 = chunkTotal writer.data.length⟩) := by
  have last : (k = chunkTotal writer.data.length - 1) = (k + 1 = chunkTotal writer.data.length) := propext (by omega)
  rw [loadChunk, SnapshotWriter.puts, after_concat, Function.update_of_ne (by simp), after_chunks small.le]
  simp only [known, and_self, if_true, SnapshotWriter.putChunk,
    Nat.mod_eq_of_lt small, Nat.mod_eq_of_lt (known.trans small), last]

namespace SnapshotInstaller

variable {first installer : SnapshotInstaller} {arrived : List Nat} {chunks : List SnapshotChunk}

/-- The installer after chunks have arrived as they were read from a store. -/
def received (installer : SnapshotInstaller) (chunks : List SnapshotChunk) : Except SnapshotError SnapshotInstaller :=
  chunks.foldlM (fun installer chunk => Prod.fst <$> installer.receiveChunk chunk.offset chunk.data chunk.isLast) installer

theorem received_eq_delivered (cut : ∀ chunk ∈ chunks, chunk = ⟨chunk.index,
      chunk.index * chunkSize, piece data chunk.index, chunk.index + 1 = chunkTotal data.length⟩) :
    first.received chunks = first.delivered data (chunks.map SnapshotChunk.index) := by
  induction chunks generalizing first with
  | nil => rfl
  | cons chunk rest ih =>
    rw [received, delivered, map_cons, foldlM_cons, foldlM_cons, cut chunk (.head _)]
    exact congrArg _ (funext fun next => ih fun chunk later => cut chunk (.tail _ later))

section

variable (holds : Holds data first arrived installer)
include holds

theorem Holds.install_missing (described : first.pendingMeta = some description)
    (ahead : ∀ j < i, j ∈ arrived) (within : i < chunkTotal data.length) (missing : i ∉ arrived) :
    installer.install store now = .error (.invalidChunk s!"Missing chunk {i}") := by
  obtain ⟨rest, size⟩ := Nat.exists_eq_add_of_lt within
  have whole := foldlM_some ((range i).map (piece data)) [] 0
  have pending := holds.assembled ahead within.le
  rw [show chunkTotal data.length - i = rest + 1 by omega, range_succ_eq_map, map_cons, Nat.add_zero, if_neg missing] at pending
  rw [install, holds.described, described]
  simp only [pending, zipIdx_append, foldlM_append, whole]
  simp [bind, Except.bind]

end

/-- A snapshot is handed over by its chunks, in any order and repeatedly. If all of them come, the pairs are those that were
written, and no other snapshot changes; otherwise nothing is installed, and the first one that is missing is named. -/
theorem transferred (fits : ∀ pair ∈ pairs, Fits pair)
    (small : chunkTotal (pairs.flatMap frame).length < 2 ^ 32)
    (written : sender = old.after ((SnapshotWriter.ofKvs group index term pairs).puts createdAt))
    (described : loadMeta sender group = .ok (some description))
    (read : ∀ chunk ∈ chunks, ∃ k < description.chunkCount, loadChunk sender group k =
      .ok (some chunk)) : ∃ installer, received (start group description.lastIncludedIndex
      description.lastIncludedTerm description.size begun) chunks = .ok installer ∧
      ((∀ k < description.chunkCount, ∃ chunk ∈ chunks, chunk.index = k) → ∃ stored,
      installer.install store now = .ok stored ∧ iterKvs stored group = .ok pairs ∧ ∀ other,
        other ≠ group → iterKvs stored other = iterKvs store other) ∧ ∀ k < description.chunkCount,
      (∀ j < k, ∃ chunk ∈ chunks, chunk.index = j) → (∀ chunk ∈ chunks, chunk.index ≠ k) →
        installer.install store now = .error (.invalidChunk s!"Missing chunk {k}") := by
  rw [ofKvs_eq] at written
  rw [written, loadMeta_puts ⟨group, index, term, _⟩, Nat.mod_eq_of_lt small] at described
  cases described
  generalize framed : pairs.flatMap frame = data at *
  have cut : ∀ chunk ∈ chunks, chunk.index < chunkTotal data.length ∧
      chunk = ⟨chunk.index, chunk.index * chunkSize, piece data chunk.index, chunk.index + 1 = chunkTotal data.length⟩ := by
    intro chunk among
    obtain ⟨k, known, loaded⟩ := read chunk among
    rw [written, loadChunk_puts ⟨group, index, term, data⟩ small known] at loaded
    cases loaded
    exact ⟨known, rfl⟩
  have valid : ∀ k ∈ chunks.map SnapshotChunk.index, k < chunkTotal data.length := by
    simpa using fun chunk among => (cut chunk among).1
  rw [received_eq_delivered fun chunk among => (cut chunk among).2]
  obtain ⟨installer, ran, holds⟩ := holds_delivered (holds_start small group index term begun) valid
  refine ⟨installer, ran, ?_, ?_⟩
  · intro complete
    refine ⟨_, holds.install_complete rfl (by simpa [Complete] using complete),
      ?_, fun other different => iterKvs_other different⟩
    apply (iterKvs_eq (load_puts small)).trans
    exact parseKvs_eq_ok.mpr ⟨fits, [], by rw [framed, append_nil], by decide⟩
  · intro k known ahead missing
    exact holds.install_missing rfl (by simpa using ahead) known (by simpa using missing)

/-- A chunk of a pair that has two. -/
def sentChunk (value : Bytes) (k : Nat) : SnapshotChunk :=
  ⟨k, k * chunkSize, piece (frame ([1], value)) k, k + 1 = 2⟩

/-- The second chunk arrives first, and once more after the other. -/
theorem transferred_reordered : ∃ installer stored,
    received (start (1, 1) 10 2 ([([1], blank)].flatMap frame).length 0) ([1, 0, 1].map (sentChunk blank)) = .ok installer ∧
    installer.install (fun _ => none) 0 = .ok stored ∧ iterKvs stored (1, 1) = .ok [([1], blank)] := by
  have general : ∀ value : Bytes, value.length = 70000 → ∃ installer stored,
      received (start (1, 1) 10 2 ([([1], value)].flatMap frame).length 0) ([1, 0, 1].map (sentChunk value)) = .ok installer ∧
      installer.install (fun _ => none) 0 = .ok stored ∧ iterKvs stored (1, 1) = .ok [([1], value)] := by
    intro value long
    have fits : ∀ pair ∈ [([1], value)], Fits pair := by simp [Fits, long]
    have total : chunkTotal ([([1], value)].flatMap frame).length = 2 := by
      simp only [flatMap_singleton, length_frame, long]
      rfl
    obtain ⟨sender, written⟩ : ∃ sender, sender =
      SnapshotStore.after (fun _ => none) ((SnapshotWriter.ofKvs (1, 1) 10 2 [([1], value)]).puts 0) := ⟨_, rfl⟩
    have described : loadMeta sender (1, 1) = .ok (some ⟨10, 2, ([([1], value)].flatMap frame).length, 2, 0⟩) := by
      simp only [written, ofKvs_eq, loadMeta_puts ⟨(1, 1), 10, 2, _⟩, total]
      rfl
    have read : ∀ chunk ∈ [1, 0, 1].map (sentChunk value), ∃ k < 2, loadChunk sender (1, 1) k = .ok (some chunk) := by
      intro chunk among
      obtain ⟨k, listed, rfl⟩ := mem_map.mp among
      have known : k < 2 := (by decide : ∀ k ∈ [1, 0, 1], k < 2) k listed
      refine ⟨k, known, ?_⟩
      rw [written, ofKvs_eq, loadChunk_puts ⟨(1, 1), 10, 2, _⟩ (by rw [total]; decide) (by rwa [total]), total, flatMap_singleton]
      rfl
    obtain ⟨installer, ran, installed, -⟩ := transferred fits (by rw [total]; decide) written described read
    obtain ⟨stored, put, shown, -⟩ := installed (by simp [sentChunk]; decide)
    exact ⟨installer, stored, ran, put, shown⟩
  exact general blank length_blank

end SnapshotInstaller

end ByoriDB.Raft
