import ByoriDB.Data.Bytes

/-! The chunks of a snapshot are stored over those of the one before; its description follows. -/

namespace ByoriDB.Raft

variable {count : Nat} {store : SnapshotStore} {row : Nat → Bytes} {group : Nat × Nat}

open List Data Bytes

structure SnapshotMeta where
  lastIncludedIndex : Nat
  lastIncludedTerm : Nat
  size : Nat
  chunkCount : Nat
  createdAt : Nat

structure SnapshotChunk where
  index : Nat
  offset : Nat
  data : Bytes
  isLast : Bool

/-- The keys of a group, which is a space and a part. -/
inductive SnapshotKey where
  | info (group : Nat × Nat)
  | chunk (group : Nat × Nat) (index : Nat)
  deriving DecidableEq

inductive SnapshotRow where
  | info (description : SnapshotMeta)
  | chunk (chunk : SnapshotChunk)

inductive SnapshotError where
  | deserialization
  | corruption (reason : String)
  | invalidChunk (reason : String)
  | invalidState (reason : String)

abbrev SnapshotStore := SnapshotKey → Option SnapshotRow

def SnapshotStore.after (store : SnapshotStore) (puts : List (SnapshotKey × SnapshotRow)) : SnapshotStore :=
  puts.foldl (fun store put => Function.update store put.1 (some put.2)) store

def chunkSize : Nat := 64 * 1024

def chunkTotal (size : Nat) : Nat := (size + chunkSize - 1) / chunkSize

def piece (data : Bytes) (i : Nat) : Bytes := (data.drop (i * chunkSize)).take chunkSize

def littleEndian (number : Nat) : Bytes := (bigEndian 4 number).reverse

def ofLittleEndian (bytes : Bytes) : Nat := ofBigEndian bytes.reverse

structure SnapshotWriter where
  group : Nat × Nat
  lastIncludedIndex : Nat
  lastIncludedTerm : Nat
  data : Bytes

namespace SnapshotWriter

section

variable (writer : SnapshotWriter)

def write (data : Bytes) : SnapshotWriter := { writer with data := writer.data ++ data }

def writeKv (pair : Bytes × Bytes) : SnapshotWriter :=
  (((writer.write (littleEndian pair.1.length)).write pair.1).write (littleEndian pair.2.length)).write pair.2

def putChunk (i : Nat) : SnapshotKey × SnapshotRow :=
  (.chunk writer.group (i % 2 ^ 32), .chunk ⟨i % 2 ^ 32, i * chunkSize, piece writer.data i,
    i % 2 ^ 32 = chunkTotal writer.data.length % 2 ^ 32 - 1⟩)

/-- The writes of `finish`, in their order. -/
def puts (createdAt : Nat) : List (SnapshotKey × SnapshotRow) :=
  (range (chunkTotal writer.data.length)).map writer.putChunk ++
    [(.info writer.group, .info ⟨writer.lastIncludedIndex, writer.lastIncludedTerm, writer.data.length,
      chunkTotal writer.data.length % 2 ^ 32, createdAt⟩)]

end

def ofKvs (group : Nat × Nat) (lastIncludedIndex lastIncludedTerm : Nat) (pairs : List (Bytes × Bytes)) : SnapshotWriter :=
  pairs.foldl writeKv ⟨group, lastIncludedIndex, lastIncludedTerm, []⟩

end SnapshotWriter

section

variable (store : SnapshotStore)

def loadMeta (group : Nat × Nat) : Except SnapshotError (Option SnapshotMeta) :=
  match store (.info group) with
  | none => .ok none
  | some (.info description) => .ok (some description)
  | some (.chunk _) => .error .deserialization

def loadChunk (group : Nat × Nat) (index : Nat) : Except SnapshotError (Option SnapshotChunk) :=
  match store (.chunk group index) with
  | none => .ok none
  | some (.chunk chunk) => .ok (some chunk)
  | some (.info _) => .error .deserialization

def loadAllData (group : Nat × Nat) : Except SnapshotError (Option Bytes) := do
  match ← loadMeta store group with
  | none => pure none
  | some description => some <$> (range description.chunkCount).foldlM (fun data i => do
    match ← loadChunk store group i with
    | none => .error (.corruption s!"Missing chunk {i}")
    | some chunk => pure (data ++ chunk.data)) []

/-- The loop over the pairs, on the data from its offset on. -/
def parseKvs (data : Bytes) : Except SnapshotError (List (Bytes × Bytes)) :=
  if data.length < 8 then .ok []
  else
    let keyLen := ofLittleEndian (data.take 4)
    let keyed := data.drop 4
    if keyed.length < keyLen then .error (.corruption "Truncated key")
    else
      let sized := keyed.drop keyLen
      if sized.length < 4 then .error (.corruption "Truncated value length")
      else
        let valueLen := ofLittleEndian (sized.take 4)
        let valued := sized.drop 4
        if valued.length < valueLen then .error (.corruption "Truncated value")
        else (parseKvs (valued.drop valueLen)).map ((keyed.take keyLen, valued.take valueLen) :: ·)
termination_by data.length
decreasing_by
  simp only [length_drop]
  omega

def iterKvs (group : Nat × Nat) : Except SnapshotError (List (Bytes × Bytes)) := do
  match ← loadAllData store group with
  | none => pure []
  | some data => parseKvs data

end

def frame (pair : Bytes × Bytes) : Bytes :=
  littleEndian pair.1.length ++ pair.1 ++ littleEndian pair.2.length ++ pair.2

/-- The lengths of a pair are 32-bit numbers. -/
def Fits (pair : Bytes × Bytes) : Prop := pair.1.length < 2 ^ 32 ∧ pair.2.length < 2 ^ 32

theorem foldl_writeKv (writer : SnapshotWriter) (pairs : List (Bytes × Bytes)) :
    pairs.foldl SnapshotWriter.writeKv writer = writer.write (pairs.flatMap frame) := by
  induction pairs generalizing writer with
  | nil => simp [SnapshotWriter.write]
  | cons pair rest ih =>
    rw [foldl_cons, ih, flatMap_cons]
    simp [SnapshotWriter.writeKv, SnapshotWriter.write, frame]

theorem ofKvs_eq : SnapshotWriter.ofKvs group index term pairs = ⟨group, index, term, pairs.flatMap frame⟩ :=
  foldl_writeKv _ _

theorem length_littleEndian (number : Nat) : (littleEndian number).length = 4 := by
  simp [littleEndian]

theorem length_frame (pair : Bytes × Bytes) : (frame pair).length = pair.1.length + pair.2.length + 8 := by
  simp only [frame, length_append, length_littleEndian]
  omega

theorem ofLittleEndian_littleEndian (small : number < 2 ^ 32) : ofLittleEndian (littleEndian number) = number := by
  rw [ofLittleEndian, littleEndian, reverse_reverse]
  exact ofBigEndian_bigEndian small

theorem littleEndian_ofLittleEndian (four : bytes.length = 4) : littleEndian (ofLittleEndian bytes) = bytes := by
  have same := bigEndian_ofBigEndian bytes.reverse
  rw [length_reverse, four] at same
  rw [littleEndian, ofLittleEndian, same, reverse_reverse]

theorem ofLittleEndian_lt (four : bytes.length = 4) : ofLittleEndian bytes < 2 ^ 32 := by
  have small := ofBigEndian_lt bytes.reverse
  rw [length_reverse, four] at small
  exact small

theorem parseKvs_frame {pair : Bytes × Bytes} (fits : Fits pair) (rest : Bytes) :
    parseKvs (frame pair ++ rest) = (parseKvs rest).map (pair :: ·) := by
  have keyLen := length_littleEndian pair.1.length
  have valueLen := length_littleEndian pair.2.length
  have shape : frame pair ++ rest =
      littleEndian pair.1.length ++ (pair.1 ++ (littleEndian pair.2.length ++ (pair.2 ++ rest))) := by
    simp [frame]
  rw [shape, parseKvs]
  simp only [take_left' keyLen, drop_left' keyLen, ofLittleEndian_littleEndian fits.1, take_left, drop_left,
    take_left' valueLen, drop_left' valueLen, ofLittleEndian_littleEndian fits.2, length_append, keyLen, valueLen]
  rw [if_neg (by omega), if_neg (by omega), if_neg (by omega), if_neg (by omega)]

/-- The reader accepts the frames of pairs, and less than the two lengths of another pair behind them. -/
theorem parseKvs_eq_ok {data : Bytes} {pairs : List (Bytes × Bytes)} : parseKvs data = .ok pairs ↔
      (∀ pair ∈ pairs, Fits pair) ∧ ∃ rest, data = pairs.flatMap frame ++ rest ∧ rest.length < 8 := by
  constructor
  · fun_induction parseKvs data generalizing pairs with
    | case1 data short =>
      rintro ⟨⟩
      exact ⟨nofun, data, rfl, short⟩
    | case5 data long keyLen keyed keyFits sized sizedFits valueLen valued valueFits =>
      rename_i known
      intro parsed
      cases later : parseKvs (valued.drop valueLen) with
      | error reason =>
        rw [later] at parsed
        cases parsed
      | ok others =>
        rw [later] at parsed
        cases parsed
        obtain ⟨fits, rest, whole, short⟩ := known later
        have keyFour : (data.take 4).length = 4 := length_take_of_le (by omega)
        have valueFour : (sized.take 4).length = 4 := length_take_of_le (by omega)
        have keyLength : (keyed.take keyLen).length = keyLen := length_take_of_le (by omega)
        have valueLength : (valued.take valueLen).length = valueLen := length_take_of_le (by omega)
        refine ⟨forall_mem_cons.mpr ⟨⟨?_, ?_⟩, fits⟩, rest, ?_, short⟩
        · exact keyLength.trans_lt (ofLittleEndian_lt keyFour)
        · exact valueLength.trans_lt (ofLittleEndian_lt valueFour)
        · calc data = data.take 4 ++ (keyed.take keyLen ++ (sized.take 4 ++ (valued.take valueLen ++ valued.drop valueLen))) := by
                simp only [keyed, sized, valued, take_append_drop]
            _ = _ := by
                rw [whole, flatMap_cons, frame, keyLength, valueLength, littleEndian_ofLittleEndian keyFour,
                  littleEndian_ofLittleEndian valueFour]
                simp only [append_assoc]
    | _ => exact nofun
  · rintro ⟨fits, rest, rfl, short⟩
    induction pairs with
    | nil =>
      rw [parseKvs]
      exact if_pos short
    | cons pair later ih =>
      rw [flatMap_cons, append_assoc, parseKvs_frame (fits pair (.head _)), ih fun other among => fits other (.tail _ among)]
      rfl

theorem flatMap_piece (data : Bytes) (count : Nat) : (range count).flatMap (piece data) = data.take (count * chunkSize) := by
  induction count with
  | zero => simp
  | succ count ih => rw [range_succ, flatMap_append, ih, flatMap_singleton, piece, Nat.succ_mul, take_add]

theorem flatMap_piece_total (data : Bytes) : (range (chunkTotal data.length)).flatMap (piece data) = data := by
  rw [flatMap_piece, take_of_length_le]
  unfold chunkTotal chunkSize
  omega

theorem foldlM_loadChunk (indices : List Nat) (start : Bytes)
    (found : ∀ i ∈ indices, ∃ chunk, store (.chunk group i) = some (.chunk chunk) ∧ chunk.data = row i) :
    indices.foldlM (fun data i => do
      match ← loadChunk store group i with
      | none => .error (.corruption s!"Missing chunk {i}")
      | some chunk => pure (data ++ chunk.data)) start = Except.ok (ε := SnapshotError) (start ++ indices.flatMap row) := by
  induction indices generalizing start with
  | nil => simp [pure, Except.pure]
  | cons i rest ih =>
    obtain ⟨chunk, stored, same⟩ := found i (.head _)
    rw [foldlM_cons, loadChunk, stored, flatMap_cons, ← append_assoc, ← same]
    exact ih _ fun j later => found j (.tail _ later)

theorem loadAllData_eq {description : SnapshotMeta}
    (described : store (.info group) = some (.info description))
    (found : ∀ i ∈ range description.chunkCount, ∃ chunk, store (.chunk group i) = some (.chunk chunk) ∧ chunk.data = row i) :
    loadAllData store group = .ok (some ((range description.chunkCount).flatMap row)) := by
  have read := foldlM_loadChunk _ [] found
  simp only [loadAllData, loadMeta, described, bind, Except.bind] at read ⊢
  rw [read]
  rfl

section

variable {writer old : SnapshotWriter} {store : SnapshotStore}

theorem after_concat (put : SnapshotKey × SnapshotRow) :
    store.after (puts ++ [put]) = Function.update (store.after puts) put.1 (some put.2) := by
  simp [SnapshotStore.after]

theorem after_chunks (small : count ≤ 2 ^ 32) (key : SnapshotKey) :
    store.after ((range count).map writer.putChunk) key = match key with
      | .info group => store (.info group)
      | .chunk group i => if group = writer.group ∧ i < count then some (writer.putChunk i).2 else store (.chunk group i) := by
  induction count with
  | zero => cases key <;> simp [SnapshotStore.after]
  | succ count ih =>
    have key_ : (writer.putChunk count).1 = .chunk writer.group count := by
      rw [SnapshotWriter.putChunk, Nat.mod_eq_of_lt (by omega)]
    rw [range_succ, map_append, map_singleton, after_concat, Function.update_apply, key_, ih (by omega)]
    cases key with
    | info group => rw [if_neg nofun]
    | chunk group i =>
      dsimp only
      by_cases here : group = writer.group ∧ i = count
      · obtain ⟨rfl, rfl⟩ := here
        rw [if_pos rfl, if_pos ⟨rfl, Nat.lt_succ_self i⟩]
      · have before : group = writer.group ∧ i < count + 1 ↔ group = writer.group ∧ i < count :=
          and_congr_right fun own => ⟨fun _ => by have := mt (And.intro own) here; omega, by omega⟩
        rw [if_neg (by simpa using here)]
        simp only [before]

/-- What is read when the writing of a snapshot over an older one stops before its description. -/
theorem load_interrupted (small : chunkTotal old.data.length < 2 ^ 32) (within : count ≤ 2 ^ 32)
    (same : writer.group = old.group) :
    loadAllData ((store.after (old.puts createdAt)).after ((range count).map writer.putChunk)) old.group =
      .ok (some ((range (chunkTotal old.data.length)).flatMap fun i =>
        if i < count then piece writer.data i else piece old.data i)) := by
  have total := Nat.mod_eq_of_lt small
  have described : (store.after (old.puts createdAt)).after ((range count).map writer.putChunk) (.info old.group) =
      some (.info ⟨old.lastIncludedIndex, old.lastIncludedTerm, old.data.length, chunkTotal old.data.length, createdAt⟩) := by
    rw [after_chunks within, SnapshotWriter.puts, total]
    dsimp only
    rw [after_concat, Function.update_self]
  refine loadAllData_eq described fun i listed => ?_
  rw [after_chunks within]
  by_cases new : i < count
  · exact ⟨_, if_pos ⟨same.symm, new⟩, (if_pos new).symm⟩
  · simp only [new, and_false, if_false]
    rw [SnapshotWriter.puts, after_concat, Function.update_of_ne (by simp), after_chunks small.le]
    exact ⟨_, if_pos ⟨rfl, mem_range.mp listed⟩, rfl⟩

theorem load_puts (small : chunkTotal writer.data.length < 2 ^ 32) :
    loadAllData (store.after (writer.puts createdAt)) writer.group = .ok (some writer.data) := by
  have read : loadAllData ((store.after (writer.puts createdAt)).after ((range 0).map writer.putChunk)) writer.group = _ :=
    load_interrupted small (Nat.zero_le _) rfl
  rw [range_zero, map_nil, SnapshotStore.after, foldl_nil] at read
  rw [read]
  simp [flatMap_piece_total]

end

section

variable {store : SnapshotStore} {pairs newer : List (Bytes × Bytes)}

theorem iterKvs_eq (loaded : loadAllData store group = .ok (some data)) : iterKvs store group = parseKvs data := by
  rw [iterKvs, loaded]
  rfl

/-- A snapshot is read back as it was written, whatever was stored before. -/
theorem iterKvs_written (fits : ∀ pair ∈ pairs, Fits pair) (small : chunkTotal (pairs.flatMap frame).length < 2 ^ 32) :
    iterKvs (store.after ((SnapshotWriter.ofKvs group index term pairs).puts createdAt)) group = .ok pairs := by
  rw [ofKvs_eq, iterKvs_eq (load_puts small)]
  exact parseKvs_eq_ok.mpr ⟨fits, [], (append_nil _).symm, by decide⟩

/-- A value of more than a chunk. -/
def blank : Bytes := replicate 70000 0

theorem length_blank : blank.length = 70000 := length_replicate

/-- Two pairs of two chunks are stored over one. -/
theorem iterKvs_written_over :
    iterKvs ((SnapshotStore.after (fun _ => none) ((SnapshotWriter.ofKvs (1, 1) 10 2 [([9], [])]).puts 0)).after
    ((SnapshotWriter.ofKvs (1, 1) 20 2 [([1], blank), ([], [2, 3])]).puts 0)) (1, 1) = .ok [([1], blank), ([], [2, 3])] := by
  have long := length_blank
  generalize blank = value at long ⊢
  have size : ([([1], value), ([], [2, 3])].flatMap frame).length = 70019 := by simp [length_frame, long]
  exact iterKvs_written (by simp [Fits, long]) (by rw [size]; decide)

/-- The first chunks of one snapshot and the others of the one that was stored before. -/
def mixed (old new : Bytes) (k : Nat) : Bytes := new.take (k * chunkSize) ++ old.drop (k * chunkSize)

theorem flatMap_mixed (old new : Bytes) (count : Nat) : ((range (chunkTotal old.length)).flatMap fun i =>
    if i < count then piece new i else piece old i) = mixed old new (min count (chunkTotal old.length)) := by
  obtain ⟨others, whole⟩ := Nat.exists_eq_add_of_le (Nat.min_le_right count (chunkTotal old.length))
  have enough : old.length ≤ chunkTotal old.length * chunkSize := by
    unfold chunkTotal chunkSize
    omega
  generalize stored : min count (chunkTotal old.length) = k at *
  rw [mixed, whole, range_add, flatMap_append, flatMap_map, ← flatMap_piece]
  congr 1
  · exact flatMap_congr fun i below => if_pos (by rw [mem_range] at below; omega)
  · calc _ = (range others).flatMap (piece (old.drop (k * chunkSize))) := by
          refine flatMap_congr fun i below => ?_
          rw [if_neg (by rw [mem_range] at below; omega), piece, piece, drop_drop, Nat.add_mul]
      _ = _ := by
          rw [flatMap_piece, take_of_length_le]
          rw [length_drop, Nat.sub_le_iff_le_add, Nat.add_comm, ← Nat.add_mul, ← whole]
          exact enough

/-- The same bytes, up to less than the two lengths of a pair behind them. -/
def Alike (data longer : Bytes) : Prop := data <+: longer ∧ longer.length < data.length + 8

theorem parseKvs_alike {data : Bytes} (fits : ∀ pair ∈ pairs, Fits pair) :
    parseKvs data = .ok pairs ↔ Alike (pairs.flatMap frame) data := by
  rw [parseKvs_eq_ok, and_iff_right fits]
  constructor
  · rintro ⟨rest, rfl, short⟩
    exact ⟨prefix_append _ _, by simpa using short⟩
  · rintro ⟨⟨rest, rfl⟩, short⟩
    exact ⟨rest, rfl, by simpa using short⟩

/-- A mixture is the old snapshot if the chunks in front are its own. -/
theorem alike_old (old new : Bytes) (k : Nat) :
    Alike old (mixed old new k) ↔ Alike (old.take (k * chunkSize)) (new.take (k * chunkSize)) := by
  rw [mixed]
  by_cases short : old.length ≤ k * chunkSize
  · rw [drop_of_length_le short, take_of_length_le short, append_nil]
  · have whole := take_append_drop (k * chunkSize) old
    have bound : (new.take (k * chunkSize)).length ≤ (old.take (k * chunkSize)).length := by
      simp only [length_take]
      omega
    constructor
    · rintro ⟨starts, -⟩
      have equal := starts.eq_of_length_le (by simp only [length_append, length_take, length_drop]; omega)
      rw [append_cancel_right (whole.trans equal)]
      exact ⟨prefix_refl _, by omega⟩
    · rintro ⟨starts, -⟩
      rw [← starts.eq_of_length_le bound, whole]
      exact ⟨prefix_refl _, by omega⟩

/-- A mixture is the new snapshot if the chunks behind are its own. -/
theorem alike_new (old new : Bytes) (k : Nat) :
    Alike new (mixed old new k) ↔ Alike (new.drop (k * chunkSize)) (old.drop (k * chunkSize)) := by
  have shift : ∀ front behind other : Bytes, Alike (front ++ behind) (front ++ other) ↔ Alike behind other := by
    intro front behind other
    simp only [Alike, prefix_append_right_inj, length_append, Nat.add_assoc, Nat.add_lt_add_iff_left]
  simpa [mixed] using shift (new.take (k * chunkSize)) (new.drop (k * chunkSize)) (old.drop (k * chunkSize))

theorem iterKvs_interrupted (small : chunkTotal (pairs.flatMap frame).length < 2 ^ 32)
    (newSmall : chunkTotal (newer.flatMap frame).length < 2 ^ 32) (within : count ≤ chunkTotal (newer.flatMap frame).length) :
    iterKvs ((store.after ((SnapshotWriter.ofKvs group index term pairs).puts createdAt)).after
      (((SnapshotWriter.ofKvs group index' term' newer).puts createdAt').take count)) group =
        parseKvs (mixed (pairs.flatMap frame) (newer.flatMap frame) (min count (chunkTotal (pairs.flatMap frame).length))) := by
  rw [ofKvs_eq, ofKvs_eq, SnapshotWriter.puts.eq_def ⟨group, index', _, _⟩, take_append_of_le_length (by simpa using within),
    ← map_take, take_range, Nat.min_eq_left within, ← flatMap_mixed]
  exact iterKvs_eq (load_interrupted small (by omega) rfl)

/-- A stop leaves one of the two snapshots if, for every number of chunks that both have, those in front or those
behind are the same in both. -/
theorem interrupted_iff (fits : ∀ pair ∈ pairs, Fits pair)
    (small : chunkTotal (pairs.flatMap frame).length < 2 ^ 32) (newFits : ∀ pair ∈ newer, Fits pair)
    (newSmall : chunkTotal (newer.flatMap frame).length < 2 ^ 32) :
    (∀ count, ∃ read ∈ [pairs, newer],
      iterKvs ((store.after ((SnapshotWriter.ofKvs group index term pairs).puts createdAt)).after
      (((SnapshotWriter.ofKvs group index' term' newer).puts createdAt').take count)) group =
      .ok read) ↔ ∀ k ≤ chunkTotal (pairs.flatMap frame).length,
      k ≤ chunkTotal (newer.flatMap frame).length → Alike
      ((pairs.flatMap frame).take (k * chunkSize)) ((newer.flatMap frame).take (k * chunkSize)) ∨
      Alike ((newer.flatMap frame).drop (k * chunkSize))
      ((pairs.flatMap frame).drop (k * chunkSize)) := by
  simp only [mem_cons, not_mem_nil, or_false, exists_eq_or_imp, exists_eq_left, ← alike_old, ← alike_new,
    ← parseKvs_alike fits, ← parseKvs_alike newFits]
  constructor
  · intro safe k old new
    have read := safe k
    rwa [iterKvs_interrupted small newSmall new, Nat.min_eq_left old] at read
  · intro mixture count
    by_cases within : count ≤ chunkTotal (newer.flatMap frame).length
    · rw [iterKvs_interrupted small newSmall within]
      exact mixture _ (Nat.min_le_right _ _) ((Nat.min_le_left _ _).trans within)
    · right
      rw [take_of_length_le]
      · exact iterKvs_written newFits newSmall
      · simp only [ofKvs_eq, SnapshotWriter.puts, length_append, length_map, length_range, length_singleton]
        omega

/-- A pair is added to a snapshot of two chunks. -/
theorem interrupted_appended : chunkTotal ([([1], blank)].flatMap frame).length = 2 ∧
    ∀ count, ∃ read ∈ [[([1], blank)], [([1], blank), ([2], [3])]],
    iterKvs ((SnapshotStore.after (fun _ => none) ((SnapshotWriter.ofKvs (1, 1) 10 2 [([1], blank)]).puts 0)).after
      (((SnapshotWriter.ofKvs (1, 1) 20 2 [([1], blank), ([2], [3])]).puts 0).take count)) (1, 1) = .ok read := by
  have long := length_blank
  generalize blank = value at long ⊢
  have size : ([([1], value)].flatMap frame).length = 70009 := by simp [length_frame, long]
  have newSize : ([([1], value), ([2], [3])].flatMap frame).length = 70019 := by simp [length_frame, long]
  have grown : [([1], value), ([2], [3])].flatMap frame = [([1], value)].flatMap frame ++ frame ([2], [3]) := by simp
  refine ⟨by rw [size]; decide,
    (interrupted_iff ?_ (by rw [size]; decide) ?_ (by rw [newSize]; decide)).mpr fun k within _ => ?_⟩
  · simp [Fits, long]
  · simp [Fits, long]
  · by_cases first : k * chunkSize ≤ 70009
    · left
      rw [grown, take_append_of_le_length (by rw [size]; exact first)]
      exact ⟨prefix_refl _, by omega⟩
    · right
      have last : 70019 ≤ k * chunkSize := by
        unfold chunkSize at *
        omega
      rw [drop_of_length_le (by omega), drop_of_length_le (by omega)]
      exact ⟨prefix_refl _, by decide⟩

theorem mixes_over {value : Bytes} (long : value.length = 70000) : ∃ count, ∀ read ∈ [[([], [])], [([], value)]],
    iterKvs ((SnapshotStore.after (fun _ => none) ((SnapshotWriter.ofKvs (1, 1) 10 2 [([], [])]).puts 0)).after
      (((SnapshotWriter.ofKvs (1, 1) 20 2 [([], value)]).puts 0).take count)) (1, 1) ≠ .ok read := by
  have oldLength : ([([], [])].flatMap frame).length = 8 := by decide
  have newLength : ([([], value)].flatMap frame).length = 70008 := by simp [length_frame, long]
  have size : (mixed ([([], [])].flatMap frame) ([([], value)].flatMap frame) 1).length = 65536 := by
    rw [mixed, length_append, length_take, length_drop, oldLength, newLength]
    rfl
  refine ⟨1, fun read among ran => ?_⟩
  rw [iterKvs_interrupted (by rw [oldLength]; decide) (by rw [newLength]; decide) (by rw [newLength]; decide), oldLength] at ran
  obtain ⟨-, rest, whole, short⟩ := parseKvs_eq_ok.mp ran
  have length := size.symm.trans (congrArg List.length whole)
  rw [length_append] at length
  rcases mem_cons.mp among with rfl | among
  · omega
  · cases mem_singleton.mp among
    omega

/-- Two chunks over one: after the first of them neither snapshot is left. -/
theorem interrupted_mixes : ∃ count, ∀ read ∈ [[([], [])], [([], blank)]],
    iterKvs ((SnapshotStore.after (fun _ => none) ((SnapshotWriter.ofKvs (1, 1) 10 2 [([], [])]).puts 0)).after
      (((SnapshotWriter.ofKvs (1, 1) 20 2 [([], blank)]).puts 0).take count)) (1, 1) ≠ .ok read :=
  mixes_over length_blank

end

end ByoriDB.Raft
