import ByoriDB.Store.Redb

/-! Without zero bytes in the keys the history table lists the rows of an abstract history. -/

namespace ByoriDB.Store

open List Std
open Data Program
open RedbKVStore (pushEntity)

theorem fitsI64_iff : fitsI64 number = true ↔ -9223372036854775808 ≤ number ∧ number ≤ 9223372036854775807 := by
  simp [fitsI64]

theorem flipSign_eq (small : word < 18446744073709551616) : flipSign word =
      if word < 9223372036854775808 then word + 9223372036854775808 else word - 9223372036854775808 := by
  have high : flipSign word / 2 ^ 63 = word / 2 ^ 63 ^^^ 1 := by
    rw [flipSign, Nat.xor_div_two_pow]
  have low : flipSign word % 2 ^ 63 = word % 2 ^ 63 := by
    rw [flipSign, Nat.xor_mod_two_pow]
    simp
  split
  · have none : word / 2 ^ 63 = 0 := by omega
    rw [none] at high
    simp at high
    omega
  · have one : word / 2 ^ 63 = 1 := by omega
    rw [one] at high
    simp at high
    omega

theorem asI64_asU64 (fits : fitsI64 value = true) : asI64 (asU64 value) = value := by
  rw [fitsI64_iff] at fits
  rw [asI64, asU64]
  split <;> omega

theorem asU64_lt (value : Int) : asU64 value < 256 ^ 8 := by
  rw [asU64]
  omega

theorem complement_flipSign (fits : fitsI64 value = true) :
    complement (flipSign (asU64 value)) = (9223372036854775807 - value).toNat := by
  rw [fitsI64_iff] at fits
  have small := asU64_lt value
  rw [flipSign_eq (by omega), complement]
  rw [asU64] at *
  split <;> omega

theorem undescI64_descI64 (fits : fitsI64 value = true) : undescI64 (descI64 value) = value := by
  have word := complement_flipSign fits
  rw [fitsI64_iff] at fits
  rw [undescI64, descI64, Bytes.ofBigEndian_bigEndian (by omega), word, complement, flipSign_eq (by omega), asI64]
  split <;> split <;> omega

theorem compare_descI64 (leftFits : fitsI64 left = true) (rightFits : fitsI64 right = true) :
    compare (descI64 left) (descI64 right) = compare (-left) (-right) := by
  have leftWord := complement_flipSign leftFits
  have rightWord := complement_flipSign rightFits
  rw [fitsI64_iff] at leftFits rightFits
  rw [descI64, descI64, Bytes.compare_bigEndian (by omega) (by omega), leftWord, rightWord]
  exact Bytes.compare_congr (by omega) (by omega)

@[simp] theorem length_descI64 (value : Int) : (descI64 value).length = 8 := Bytes.length_bigEndian 8 _

/-- The keys and times for which the encoding is faithful. -/
structure PlainKey (key : HistoryKey Bytes) : Prop where
  entity : 0 ∉ key.entity
  validFrom : fitsI64 key.validFrom = true
  tx : fitsI64 key.tx = true

def encodeKey (key : HistoryKey Bytes) : Bytes := historyKey key.entity key.validFrom key.tx

def encodeRow (entry : HistoryKey Bytes × (Int × Bytes)) : Bytes × Bytes :=
  (encodeKey entry.1, encodeHistoryValue entry.2.1 entry.2.2)

theorem compare_encodeKey (leftPlain : PlainKey left) (rightPlain : PlainKey right) :
    compare (encodeKey left) (encodeKey right) = compare left right := by
  rw [encodeKey, encodeKey, historyKey, historyKey, Bytes.compare_terminated leftPlain.entity rightPlain.entity,
    Bytes.compare_append_of_length (by simp), compare_descI64 leftPlain.validFrom rightPlain.validFrom,
    compare_descI64 leftPlain.tx rightPlain.tx, HistoryKey.compare_eq]

theorem encodeKey_inj (leftPlain : PlainKey left) (rightPlain : PlainKey right) :
    encodeKey left = encodeKey right ↔ left = right := by
  rw [← Std.compare_eq_iff_eq, compare_encodeKey leftPlain rightPlain, Std.compare_eq_iff_eq]

theorem parse_encodeKey (plain : PlainKey key) :
    parseHistoryKeyTimes (encodeKey key) = some (key.validFrom, key.tx) := by
  have length : (encodeKey key).length = key.entity.length + 17 := by
    simp [encodeKey, historyKey]
  rw [parseHistoryKeyTimes, if_neg (by omega), length]
  have first : (encodeKey key).drop (key.entity.length + 17 - 16) = descI64 key.validFrom ++ descI64 key.tx := by
    simp [encodeKey, historyKey, drop_append]
  have second : (encodeKey key).drop (key.entity.length + 17 - 8) = descI64 key.tx := by
    simp [encodeKey, historyKey, drop_append]
  rw [first, second, take_left' (by simp), undescI64_descI64 plain.validFrom, undescI64_descI64 plain.tx]

theorem decode_encodeHistoryValue (fits : fitsI64 validTo = true) :
    decodeHistoryValue (encodeHistoryValue validTo payload) = some (validTo, payload) := by
  rw [decodeHistoryValue, encodeHistoryValue, if_neg (by simp), take_left' (by simp), drop_left' (by simp),
    Bytes.ofBigEndian_bigEndian (asU64_lt validTo), asI64_asU64 fits]

structure PlainRow (entry : HistoryKey Bytes × (Int × Bytes)) : Prop where
  key : PlainKey entry.1
  validTo : fitsI64 entry.2.1 = true

theorem decode_encodeRow (plain : PlainRow entry) : decodeHistoryRow (encodeRow entry) = some (recordOf entry) := by
  rw [decodeHistoryRow, encodeRow, parse_encodeKey plain.key, decode_encodeHistoryValue plain.validTo]
  rfl

/-- A zero byte ends the entity key, so a prefix with one fixes the entity. -/
theorem historyPrefix_isPrefix (free : 0 ∉ entity) (plain : PlainKey key) :
    (historyPrefix entity).isPrefixOf (encodeKey key) = decide (key.entity = entity) := by
  rw [Bool.eq_iff_iff, List.isPrefixOf_iff_prefix, decide_eq_true_eq]
  exact Bytes.terminated_isPrefix free plain.entity _

theorem isPrefix_encodeKey {scope : Bytes} (free : 0 ∉ scope) (key : HistoryKey Bytes) :
    scope.isPrefixOf (encodeKey key) = scope.isPrefixOf key.entity := by
  rw [Bool.eq_iff_iff, List.isPrefixOf_iff_prefix, List.isPrefixOf_iff_prefix]
  exact Bytes.isPrefix_terminated free _ _

theorem entityOf_encodeKey (key : HistoryKey Bytes) : RedbKVStore.entityOf (encodeKey key) = some key.entity := by
  have length : (encodeKey key).length = key.entity.length + 17 := by
    simp [encodeKey, historyKey]
  have suffix : (encodeKey key).drop (key.entity.length + 17 - 17) = 0 :: (descI64 key.validFrom ++ descI64 key.tx) :=
    drop_left' (by simp)
  have start : (encodeKey key).take (key.entity.length + 17 - 17) = key.entity := take_left' (by simp)
  rw [RedbKVStore.entityOf, length, if_neg (by omega), suffix, start, if_neg (by simp)]

structure Represents (store : RedbKVStore) (content : Content Bytes Bytes) : Prop where
  kv : store.kv = content.kv
  history : store.history.toList = content.history.toList.map encodeRow
  plain : ∀ entry ∈ content.history.toList, PlainRow entry

namespace Represents

variable {store : RedbKVStore} {content : Content Bytes Bytes} {entries : List (HistoryKey Bytes × (Int × Bytes))}

section

variable (represents : Represents store content)
include represents

theorem mem_history : store.history.get bytes = some value ↔
      ∃ entry, content.history.get entry.1 = some entry.2 ∧ encodeRow entry = (bytes, value) := by
  rw [← mem_toList, represents.history, mem_map]
  exact exists_congr fun entry => and_congr_left fun _ => mem_toList

theorem insert_version (plain : PlainRow entry) :
    Represents { store with history := store.history.insert (encodeRow entry).1 (encodeRow entry).2 }
      { content with history := content.history.insert entry.1 entry.2 } := by
  have rowsPlain : ∀ other ∈ (content.history.insert entry.1 entry.2).toList, PlainRow other := by
    rintro ⟨key, row⟩ mem
    rw [mem_toList, get_insert] at mem
    split at mem
    · rename_i same
      cases mem
      rw [same]
      exact plain
    · exact represents.plain _ (mem_toList.mpr mem)
  refine ⟨represents.kv, ?_, rowsPlain⟩
  apply ordered_ext (ordered_toList _)
  · rw [pairwise_map]
    refine (ordered_toList _).imp_of_mem ?_
    intro left right leftMember rightMember before
    rw [← before]
    exact compare_encodeKey (rowsPlain _ leftMember).key (rowsPlain _ rightMember).key
  · rintro ⟨bytes, value⟩
    rw [mem_toList, get_insert, mem_map]
    constructor
    · intro found
      split at found
      · rename_i same
        cases found
        exact ⟨entry, mem_toList.mpr (by simp), by rw [same]⟩
      · rename_i different
        obtain ⟨other, stored, same⟩ := represents.mem_history.mp found
        have apart : other.1 ≠ entry.1 := by
          intro sameKey
          apply different
          have sameBytes : encodeKey other.1 = bytes := congrArg Prod.fst same
          rw [← sameBytes, sameKey]
          rfl
        exact ⟨other, mem_toList.mpr (by rw [get_insert, if_neg apart, stored]), same⟩
    · rintro ⟨other, mem, same⟩
      have stated := (rowsPlain other mem).key
      rw [mem_toList, get_insert] at mem
      split at mem
      · rename_i sameKey
        have whole : other = entry := Prod.ext sameKey (Option.some.inj mem).symm
        rw [whole] at same
        rw [same, if_pos rfl]
      · rename_i different
        have apart : bytes ≠ (encodeRow entry).1 := by
          intro sameBytes
          apply different
          rw [← encodeKey_inj stated plain.key]
          exact (congrArg Prod.fst same).trans sameBytes
        rw [if_neg apart]
        exact represents.mem_history.mpr ⟨other, mem, same⟩

theorem putVersions (plain : ∀ row ∈ rows, PlainRow row.entry) :
    Represents (store.putVersions rows) (content.putVersions rows) := by
  induction rows generalizing store content with
  | nil => exact represents
  | cons row rest ih =>
    have inserted := represents.insert_version (plain row mem_cons_self)
    exact ih inserted fun other mem => plain other (mem_cons_of_mem _ mem)

theorem with_kv (change : Table Bytes Bytes → Table Bytes Bytes) :
    Represents { store with kv := change store.kv } { content with kv := change content.kv } :=
  ⟨congrArg change represents.kv, represents.history, represents.plain⟩

end

theorem scanPrefix (represents : Represents store content) (scope : Bytes) :
    store.scanPrefix scope = content.kv.select scope.isPrefixOf := by
  rw [RedbKVStore.scanPrefix, represents.kv]
  exact Table.rangeFrom_takeWhile_isPrefix _ _

theorem historyUnder (represents : Represents store content) (scope : Bytes) : store.historyUnder scope =
      (content.history.toList.filter fun entry => scope.isPrefixOf (encodeKey entry.1)).map encodeRow := by
  rw [RedbKVStore.historyUnder, Table.rangeFrom_takeWhile_isPrefix, Table.select, represents.history, filter_map]
  rfl

theorem filterMap_decode
    (plain : ∀ entry ∈ entries, PlainRow entry) :
    (entries.map encodeRow).filterMap decodeHistoryRow = entries.map recordOf := by
  induction entries with
  | nil => rfl
  | cons entry rest ih =>
    rw [map_cons, filterMap_cons_some (decode_encodeRow (plain entry mem_cons_self)), map_cons,
      ih fun other mem => plain other (mem_cons_of_mem _ mem)]

theorem scanHistory (represents : Represents store content) (free : 0 ∉ entity) :
    store.scanHistory entity = content.scanHistory entity := by
  have selected : (content.history.toList.filter fun entry => (historyPrefix entity).isPrefixOf (encodeKey entry.1)) =
      content.history.select fun key => key.entity = entity := by
    apply filter_congr
    intro entry mem
    exact historyPrefix_isPrefix free (represents.plain entry mem).key
  rw [RedbKVStore.scanHistory, represents.historyUnder, selected, filterMap_decode, Content.scanHistory]
  intro entry mem
  exact represents.plain entry (mem_of_mem_filter mem)

theorem pushEntity_spec (ascending : out.Pairwise fun first second => compare first second = .lt)
    (above : ∀ listed ∈ out, compare listed entity ≠ .gt) :
    ((pushEntity out entity).Pairwise fun first second => compare first second = .lt) ∧
      ∀ key, key ∈ pushEntity out entity ↔ key ∈ out ∨ key = entity := by
  rw [pushEntity]
  split
  · rename_i last
    have mem : entity ∈ out := List.mem_of_getLast? last
    refine ⟨ascending, fun key => ⟨.inl, ?_⟩⟩
    rintro (listed | rfl)
    · exact listed
    · exact mem
  · rename_i last
    refine ⟨?_, fun key => by simp⟩
    rw [pairwise_append]
    refine ⟨ascending, pairwise_singleton _ _, ?_⟩
    intro listed mem other same
    rw [mem_singleton.mp same]
    cases order : compare listed entity with
    | lt => rfl
    | gt => exact absurd order (above listed mem)
    | eq =>
      -- An entity that is already listed can only be the last one.
      cases LawfulEqCmp.eq_of_compare order
      obtain ⟨before, after, rfl⟩ := append_of_mem mem
      rw [pairwise_append, pairwise_cons] at ascending
      cases after with
      | nil => simp at last
      | cons next rest =>
        have later := ascending.2.1.1 next mem_cons_self
        have bounded := above next (by simp)
        exact absurd (OrientedCmp.gt_of_lt later) bounded

theorem foldl_pushEntity {entities out : List Bytes}
    (ascending : out.Pairwise fun first second => compare first second = .lt)
    (above : ∀ listed ∈ out, ∀ entity ∈ entities, compare listed entity ≠ .gt)
    (sorted : entities.Pairwise fun first second => compare first second ≠ .gt) :
    ((entities.foldl pushEntity out).Pairwise fun first second => compare first second = .lt) ∧
      ∀ key, key ∈ entities.foldl pushEntity out ↔ key ∈ out ∨ key ∈ entities := by
  induction entities generalizing out with
  | nil => exact ⟨ascending, fun key => by simp⟩
  | cons entity rest ih =>
    rw [pairwise_cons] at sorted
    obtain ⟨ascending', members⟩ :=
      pushEntity_spec ascending fun listed mem => above listed mem entity mem_cons_self
    have above' : ∀ listed ∈ pushEntity out entity, ∀ other ∈ rest, compare listed other ≠ .gt := by
      intro listed mem other later
      rcases (members listed).mp mem with old | rfl
      · exact above listed old other (mem_cons_of_mem _ later)
      · exact sorted.1 other later
    obtain ⟨ordered, listed⟩ := ih ascending' above' sorted.2
    refine ⟨ordered, fun key => ?_⟩
    rw [foldl_cons, listed, members, mem_cons]
    tauto

theorem scanHistoryEntityKeys (represents : Represents store content) (free : 0 ∉ scope) :
    store.scanHistoryEntityKeys scope = content.scanHistoryEntityKeys scope.isPrefixOf := by
  have selected : (content.history.toList.filter fun entry => scope.isPrefixOf (encodeKey entry.1)) =
      content.history.select fun key => scope.isPrefixOf key.entity := by
    apply filter_congr
    intro entry _
    exact isPrefix_encodeKey free entry.1
  have sorted : ((content.history.select fun key => scope.isPrefixOf key.entity).map
      fun entry => entry.1.entity).Pairwise fun first second => compare first second ≠ .gt := by
    rw [pairwise_map]
    refine (content.history.ordered_select _).imp ?_
    intro left right before after
    rw [HistoryKey.compare_eq, after] at before
    exact absurd before (by simp)
  have entities : store.scanHistoryEntityKeys scope =
      ((content.history.select fun key => scope.isPrefixOf key.entity).map
        fun entry => entry.1.entity).foldl pushEntity [] := by
    rw [RedbKVStore.scanHistoryEntityKeys, represents.historyUnder, selected, foldl_map, foldl_map]
    simp [encodeRow, entityOf_encodeKey]
  obtain ⟨ascending, members⟩ := foldl_pushEntity List.Pairwise.nil (by simp) sorted
  rw [entities]
  apply Table.ascending_ext ascending (ordered_distinct _)
  intro entity
  rw [members, mem_distinct]
  simp

def qualifies (validAt txAt : Int) (version : VersionRecord Bytes) : Option Bytes :=
  if version.tx ≤ txAt && validAt < version.validTo then some version.value else none

/-- Rows before the times asked for do not count, and after them only the
recording time and the end of the interval have to be checked. -/
theorem findSome_seek (plain : ∀ entry ∈ entries, PlainRow entry)
    (asked : PlainKey ⟨entity, validAt, txAt⟩) :
    ((entries.filter fun entry => !(compare (encodeKey entry.1) (historyKey entity validAt txAt) == .lt) &&
        decide (entry.1.entity = entity)).map recordOf).findSome? (qualifies validAt txAt) =
      (((entries.filter fun entry => entry.1.entity = entity).map recordOf).find?
        (VersionRecord.covers validAt txAt)).map VersionRecord.value := by
  induction entries with
  | nil => rfl
  | cons entry rest ih =>
    have later := ih fun other mem => plain other (mem_cons_of_mem _ mem)
    have order : compare (encodeKey entry.1) (historyKey entity validAt txAt) = compare entry.1 ⟨entity, validAt, txAt⟩ :=
      compare_encodeKey (plain entry mem_cons_self).key asked
    have covers : (recordOf entry).covers validAt txAt = true ↔
        entry.1.tx ≤ txAt ∧ entry.1.validFrom ≤ validAt ∧ validAt < entry.2.1 :=
      VersionRecord.covers_iff
    have tested : qualifies validAt txAt (recordOf entry) =
        if entry.1.tx ≤ txAt ∧ validAt < entry.2.1 then some entry.2.2 else none := by
      rw [qualifies]
      simp only [Bool.and_eq_true, decide_eq_true_eq]
      rfl
    simp only [filter_cons, order]
    by_cases same : entry.1.entity = entity
    · have early : compare entry.1 ⟨entity, validAt, txAt⟩ = .lt ↔
          validAt < entry.1.validFrom ∨ (entry.1.validFrom = validAt ∧ txAt < entry.1.tx) :=
        HistoryKey.compare_lt_iff same
      by_cases before : compare entry.1 ⟨entity, validAt, txAt⟩ = .lt
      · have skipped : ¬(recordOf entry).covers validAt txAt = true := by
          rw [covers]
          rw [early] at before
          omega
        simp [before, same, skipped, later]
      · have bound : entry.1.validFrom ≤ validAt := by
          have late := mt early.mpr before
          omega
        by_cases counts : entry.1.tx ≤ txAt ∧ validAt < entry.2.1
        · have taken : (recordOf entry).covers validAt txAt = true := covers.mpr ⟨counts.1, bound, counts.2⟩
          simp [before, same, taken, tested, counts]
          rfl
        · have skipped : ¬(recordOf entry).covers validAt txAt = true := by
            rw [covers]
            exact fun counted => counts ⟨counted.1, counted.2.2⟩
          simp [before, same, skipped, tested, counts, later]
    · simp [same, later]

theorem getAsOf (represents : Represents store content) (asked : PlainKey ⟨entity, validAt, txAt⟩) :
    store.getAsOf entity validAt txAt = content.getAsOf entity validAt txAt := by
  have inside : historyPrefix entity <+: historyKey entity validAt txAt :=
    ⟨descI64 validAt ++ descI64 txAt, by simp [historyPrefix, historyKey]⟩
  have rows : ((store.history.rangeFrom (historyKey entity validAt txAt)).takeWhile fun entry =>
      (historyPrefix entity).isPrefixOf entry.1) =
      (content.history.toList.filter fun entry =>
        !(compare (encodeKey entry.1) (historyKey entity validAt txAt) == .lt) &&
          decide (entry.1.entity = entity)).map encodeRow := by
    rw [Table.rangeFrom_takeWhile_under _ inside, Table.select, represents.history, filter_map]
    congr 1
    apply filter_congr
    intro entry mem
    simp [encodeRow, historyPrefix_isPrefix asked.entity (represents.plain entry mem).key]
  rw [RedbKVStore.getAsOf, rows, filterMap_decode]
  · exact findSome_seek represents.plain asked
  · intro entry mem
    exact represents.plain entry (mem_of_mem_filter mem)

end Represents

abbrev ZeroFree (bytes : Bytes) : Prop := 0 ∉ bytes

/-- The calls whose keys and times the encoding is made for. -/
def plainOp : KvOp Bytes Bytes → Prop
  | .scanHistory entity => ZeroFree entity
  | .scanHistoryEntityKeys scope => ZeroFree scope
  | .getAsOf entity validAt txAt => PlainKey ⟨entity, validAt, txAt⟩
  | .batchPutVersion versions | .batchApply _ _ versions => ∀ row ∈ versions, PlainRow row.entry
  | _ => True

theorem Represents.perform (represents : Represents store content) (plain : plainOp op) :
    (store.perform op).1 = (content.perform byteLayout op).1 ∧
      Represents (store.perform op).2 (content.perform byteLayout op).2 := by
  have view := represents.kv
  cases op with
  | get key => exact ⟨congrArg (Table.get · key) view, represents⟩
  | batchGet keys => exact ⟨congrArg (fun table : Table Bytes Bytes => keys.map table.get) view, represents⟩
  | scanPrefix scope => exact ⟨represents.scanPrefix scope, represents⟩
  | countPrefix scope => exact ⟨congrArg List.length (represents.scanPrefix scope), represents⟩
  | scanHistory entity => exact ⟨represents.scanHistory plain, represents⟩
  | scanHistoryEntityKeys scope => exact ⟨represents.scanHistoryEntityKeys plain, represents⟩
  | getAsOf entity validAt txAt => exact ⟨represents.getAsOf plain, represents⟩
  | put key value => exact ⟨rfl, represents.with_kv (·.insert key value)⟩
  | putIfAbsent key value =>
    simp only [RedbKVStore.perform, Content.perform, view]
    cases content.kv.get key with
    | some existing => exact ⟨rfl, represents⟩
    | none => exact ⟨rfl, view ▸ represents.with_kv (·.insert key value)⟩
  | delete key => exact ⟨rfl, represents.with_kv (·.erase key)⟩
  | batchPut pairs => exact ⟨rfl, represents.with_kv (·.putAll pairs)⟩
  | batchDelete keys => exact ⟨rfl, represents.with_kv (·.eraseAll keys)⟩
  | batchPutVersion versions => exact ⟨rfl, represents.putVersions plain⟩
  | batchApply puts deletes versions =>
    exact ⟨rfl, (represents.with_kv fun kv => (kv.putAll puts).eraseAll deletes).putVersions plain⟩
  | addCounters deltas => exact ⟨rfl, represents.with_kv (deltas.foldl byteLayout.addCounter)⟩

end ByoriDB.Store
