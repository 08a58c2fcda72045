import ByoriDB.Data.Bytes
import ByoriDB.Store.Overlay

/-! A history key is the key of the entity, a zero byte and the two times, later times first. -/

namespace ByoriDB.Store

open Std
open Data Program

instance : Scoped Bytes := ⟨Bytes, List.isPrefixOf⟩

def descI64 (value : Int) : Bytes := Bytes.bigEndian 8 (complement (flipSign (asU64 value)))

def undescI64 (bytes : Bytes) : Int := asI64 (flipSign (complement (Bytes.ofBigEndian bytes)))

def historyKey (entityKey : Bytes) (validFrom tx : Int) : Bytes :=
  entityKey ++ 0 :: (descI64 validFrom ++ descI64 tx)

def historyPrefix (entityKey : Bytes) : Bytes := entityKey ++ [0]

def parseHistoryKeyTimes (key : Bytes) : Option (Int × Int) :=
  if key.length < 16 then none
  else some (undescI64 ((key.drop (key.length - 16)).take 8), undescI64 (key.drop (key.length - 8)))

def encodeHistoryValue (validTo : Int) (payload : Bytes) : Bytes :=
  Bytes.bigEndian 8 (asU64 validTo) ++ payload

def decodeHistoryValue (value : Bytes) : Option (Int × Bytes) :=
  if value.length < 8 then none else some (asI64 (Bytes.ofBigEndian (value.take 8)), value.drop 8)

/-- The version stored in a row of the history, if the row parses. -/
def decodeHistoryRow (row : Bytes × Bytes) : Option (VersionRecord Bytes) :=
  match parseHistoryKeyTimes row.1, decodeHistoryValue row.2 with
  | some (validFrom, tx), some (validTo, value) => some ⟨validFrom, validTo, tx, value⟩
  | _, _ => none

/-- Degree counters are 8 bytes, least significant first. -/
def encodeCounter (count : Int) : Bytes := (Bytes.bigEndian 8 (asU64 count)).reverse

def decodeCounter (bytes : Bytes) : Int := asI64 (Bytes.ofBigEndian bytes.reverse)

def byteLayout : Layout Bytes Bytes where
  keyLen := List.length
  valueLen := List.length
  counterOf value := if value.length = 8 then some (decodeCounter value) else none
  looseCounter value := if 8 ≤ value.length then decodeCounter (value.take 8) else 0
  counter := encodeCounter
  looseCounter_of_counterOf := by
    intro value count found
    split at found
    · rename_i length
      cases found
      rw [if_pos (Nat.le_of_eq length.symm), List.take_of_length_le (Nat.le_of_eq length)]
    · exact absurd found (by simp)
  arrange := id
  arrange_perm := fun entries => .refl entries

structure RedbKVStore where
  kv : Table Bytes Bytes
  history : Table Bytes Bytes

namespace RedbKVStore

section

variable (store : RedbKVStore)

def scanPrefix (scope : Bytes) : List (Bytes × Bytes) :=
  (store.kv.rangeFrom scope).takeWhile fun entry => scope.isPrefixOf entry.1

def scanRange (start stop : Bytes) (limit : Option Nat) : List (Bytes × Bytes) :=
  if compare start stop ≠ .lt ∨ limit = some 0 then []
  else
    let rows := (store.kv.rangeFrom start).takeWhile fun entry => compare entry.1 stop == .lt
    match limit with
    | some limit => rows.take limit
    | none => rows

def historyUnder (scope : Bytes) : List (Bytes × Bytes) :=
  (store.history.rangeFrom scope).takeWhile fun entry => scope.isPrefixOf entry.1

def scanHistory (entityKey : Bytes) : List (VersionRecord Bytes) :=
  (store.historyUnder (historyPrefix entityKey)).filterMap decodeHistoryRow

/-- The entity of a history key: what precedes the zero byte and the times. -/
def entityOf (key : Bytes) : Option Bytes :=
  if key.length < 17 then none
  else if (key.drop (key.length - 17)).head? ≠ some 0 then none
  else some (key.take (key.length - 17))

/-- Versions of one entity are neighbours, so only the last one is compared. -/
def pushEntity (out : List Bytes) (entity : Bytes) : List Bytes :=
  if out.getLast? = some entity then out else out ++ [entity]

def scanHistoryEntityKeys (entityPrefix : Bytes) : List Bytes :=
  (store.historyUnder entityPrefix).foldl (fun out row =>
    match entityOf row.1 with
    | none => out
    | some entity => pushEntity out entity) []

/-- Seek to the times asked for and take the first row that qualifies. -/
def getAsOf (entityKey : Bytes) (validAt txAt : Int) : Option Bytes :=
  let rows := (store.history.rangeFrom (historyKey entityKey validAt txAt)).takeWhile fun entry =>
    (historyPrefix entityKey).isPrefixOf entry.1
  (rows.filterMap decodeHistoryRow).findSome? fun version =>
    if version.tx ≤ txAt && validAt < version.validTo then some version.value else none

def putVersions (versions : List (VersionRow Bytes Bytes)) : RedbKVStore :=
  { store with history := store.history.putAll (versions.map fun row =>
      (historyKey row.entity row.validFrom row.tx, encodeHistoryValue row.validTo row.payload)) }

def perform : (op : KvOp Bytes Bytes) → op.Res × RedbKVStore
  | .get key => (store.kv.get key, store)
  | .batchGet keys => (keys.map store.kv.get, store)
  | .scanPrefix scope => (store.scanPrefix scope, store)
  | .countPrefix scope => ((store.scanPrefix scope).length, store)
  | .scanHistory entity => (store.scanHistory entity, store)
  | .scanHistoryEntityKeys scope => (store.scanHistoryEntityKeys scope, store)
  | .getAsOf entity validAt txAt => (store.getAsOf entity validAt txAt, store)
  | .put key value => ((), { store with kv := store.kv.insert key value })
  | .putIfAbsent key value =>
    match store.kv.get key with
    | some existing => (some existing, store)
    | none => (none, { store with kv := store.kv.insert key value })
  | .delete key => ((), { store with kv := store.kv.erase key })
  | .batchPut pairs => ((), { store with kv := store.kv.putAll pairs })
  | .batchDelete keys => ((), { store with kv := store.kv.eraseAll keys })
  | .batchPutVersion versions => ((), store.putVersions versions)
  | .batchApply puts deletes versions =>
    ((), ({ store with kv := (store.kv.putAll puts).eraseAll deletes }).putVersions versions)
  | .addCounters deltas => ((), { store with kv := deltas.foldl byteLayout.addCounter store.kv })

def after (op : KvOp Bytes Bytes) : RedbKVStore := (store.perform op).2

end

/-- A process over the byte-level store. -/
structure Process where
  store : RedbKVStore
  lastTx : Int
  readings : Nat

def handler (clock : Nat → Int) : Handler (signature Bytes Bytes) Process
  | .kv op, process =>
    let (result, store) := process.store.perform op
    (result, { process with store })
  | .txNow, process =>
    let next := max (clock process.readings) (process.lastTx + 1)
    (next, { process with lastTx := next, readings := process.readings + 1 })

end RedbKVStore

def commonPrefix : Bytes → Bytes → Bytes
  | left :: lefts, right :: rights => if left = right then left :: commonPrefix lefts rights else []
  | _, _ => []

/-- The interface's own range scan, which the overlay does not override: the rows
under the common prefix of the bounds, filtered. -/
def MutationStore.scanRange {ε : Type} (start stop : Bytes) (limit : Option Nat)
    (changes : Changes Bytes Bytes) : Prog (signature Bytes Bytes) ε (List (Bytes × Bytes)) :=
  if compare start stop ≠ .lt ∨ limit = some 0 then pure []
  else do
    let rows ← scanPrefix byteLayout (commonPrefix start stop) changes
    let rows := rows.filter fun entry => !(compare entry.1 start == .lt) && compare entry.1 stop == .lt
    match limit with
    | some limit => pure (rows.take limit)
    | none => pure rows

end ByoriDB.Store
