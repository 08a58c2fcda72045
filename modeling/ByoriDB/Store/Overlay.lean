import ByoriDB.Store.Operations

/-! The writes of a mutation are staged in memory and reach the base in one batch at the end. -/

namespace ByoriDB.Store

open Std
open Data Program
open Scoped

inductive StagingError where
  | sizeLimit
  | invalidCounter
  | counterOverflow
  deriving DecidableEq, Repr

def StagingError.message : StagingError → String
  | .sizeLimit => "DML staging exceeds max_memory_mb; no statement writes were committed"
  | .invalidCounter => "Invalid degree counter: expected exactly 8 bytes; no statement writes committed"
  | .counterOverflow => "Degree counter overflow or underflow; no statement writes committed"

/-- The staged writes.  A key without a value is to be deleted. -/
structure Changes (κ ν : Type) [Ord κ] where
  values : Table κ (Option ν)
  versions : List (VersionRow κ ν)
  bytes : Nat

/-- Addition of `usize` numbers that stops at the largest one. -/
def saturatingAdd (left right : Nat) : Nat := min (left + right) 18446744073709551615

def fitsI64 (number : Int) : Bool :=
  -9223372036854775808 ≤ number && number ≤ 9223372036854775807

/-- Of the versions that count, the one with the greater `(validFrom, tx)`. -/
def newerAsOf {ν : Type} (validAt txAt : Int) (best : Option (VersionRecord ν))
    (version : VersionRecord ν) : Option (VersionRecord ν) :=
  if version.covers validAt txAt then
    match best with
    | some chosen =>
      if chosen.validFrom > version.validFrom ∨
          (chosen.validFrom = version.validFrom ∧ chosen.tx ≥ version.tx) then best
      else some version
    | none => some version
  else best

/-- The trait's own choice among the versions of an entity. -/
def resolveAsOf {ν : Type} (versions : List (VersionRecord ν)) (validAt txAt : Int) : Option (VersionRecord ν) :=
  versions.foldl (newerAsOf validAt txAt) none

/-- Newest first, as the order on `(validFrom, tx)` has it. -/
def newerFirst {ν : Type} (left right : VersionRecord ν) : Bool :=
  left.validFrom > right.validFrom || (left.validFrom == right.validFrom && left.tx ≥ right.tx)

variable {κ ν : Type} [Ord κ] [TransOrd κ] [LawfulEqOrd κ] [DecidableEq κ] [Scoped κ]

def VersionRow.record (row : VersionRow κ ν) : VersionRecord ν :=
  ⟨row.validFrom, row.validTo, row.tx, row.payload⟩

namespace Changes

def nothing : Changes κ ν := ⟨.empty, [], 0⟩

def checkSize (maxBytes bytes : Nat) : Except StagingError Unit :=
  if maxBytes ≠ 0 ∧ bytes > maxBytes then .error .sizeLimit else .ok ()

section

variable (layout : Layout κ ν)

def entrySize (key : κ) (value : Option ν) : Nat :=
  layout.keyLen key + (value.map layout.valueLen).getD 0 + 64

section

variable (maxBytes : Nat) (changes : Changes κ ν)

def set (key : κ) (value : Option ν) : Except StagingError (Changes κ ν) := do
  let old := ((changes.values.get key).map (entrySize layout key)).getD 0
  let total := saturatingAdd (changes.bytes - old) (entrySize layout key value)
  checkSize maxBytes total
  return { changes with bytes := total, values := changes.values.insert key value }

def setAll (writes : List (κ × Option ν)) : Except StagingError (Changes κ ν) :=
  writes.foldlM (fun changes write => changes.set layout maxBytes write.1 write.2) changes

def addVersions (versions : List (VersionRow κ ν)) : Except StagingError (Changes κ ν) := do
  let total := versions.foldl (fun size row =>
    saturatingAdd size (layout.keyLen row.entity + layout.valueLen row.payload + 64)) changes.bytes
  checkSize maxBytes total
  return { changes with bytes := total, versions := changes.versions ++ versions }

end

end

end Changes

namespace MutationStore

variable {ε : Type} (layout : Layout κ ν) (maxBytes : Nat) (refuse : StagingError → ε)

/-- Staging either fails the statement or yields the new changes. -/
def staged (result : Except StagingError (Changes κ ν)) : Prog (signature κ ν) ε (Unit × Changes κ ν) :=
  match result with
  | .ok changes => pure ((), changes)
  | .error reason => .fail (refuse reason)

def get (key : κ) (changes : Changes κ ν) : Prog (signature κ ν) ε (Option ν) :=
  match changes.values.get key with
  | some value => pure value
  | none => Store.get key

def batchGet (changes : Changes κ ν) : List κ → Prog (signature κ ν) ε (List (Option ν))
  | [] => pure []
  | key :: keys => do
    let row ← get key changes
    let rows ← batchGet changes keys
    pure (row :: rows)

def scanPrefix (scope : Scope κ) (changes : Changes κ ν) : Prog (signature κ ν) ε (List (κ × ν)) := do
  let rows ← Store.scanPrefix scope
  pure (layout.arrange ((Table.ofList rows).applyAll (changes.values.select (covers scope))).toList)

def scanHistory (entity : κ) (changes : Changes κ ν) : Prog (signature κ ν) ε (List (VersionRecord ν)) := do
  let rows ← Store.scanHistory entity
  pure ((rows ++ (changes.versions.filter fun row => row.entity = entity).map VersionRow.record).mergeSort newerFirst)

def scanHistoryEntityKeys (scope : Scope κ) (changes : Changes κ ν) : Prog (signature κ ν) ε (List κ) := do
  let keys ← Store.scanHistoryEntityKeys scope
  pure (Table.distinct (keys ++ (changes.versions.filter fun row => covers scope row.entity).map VersionRow.entity))

def readCounter : Option ν → Prog (signature κ ν) ε Int
  | none => pure 0
  | some value =>
    match layout.counterOf value with
    | some count => pure count
    | none => .fail (refuse .invalidCounter)

def addCounters (changes : Changes κ ν) : List (κ × Int) → Prog (signature κ ν) ε (Unit × Changes κ ν)
  | [] => pure ((), changes)
  | (key, delta) :: deltas => do
    let current ← readCounter layout refuse (← get key changes)
    let updated := current + delta
    if !fitsI64 updated then
      .fail (refuse .counterOverflow)
    else
      let value := if updated ≤ 0 then none else some (layout.counter updated)
      let (_, changes) ← staged refuse (changes.set layout maxBytes key value)
      addCounters changes deltas

section

variable (changes : Changes κ ν)

def handle : (op : KvOp κ ν) → Prog (signature κ ν) ε (op.Res × Changes κ ν)
  | .get key => do pure (← get key changes, changes)
  | .batchGet keys => do pure (← batchGet changes keys, changes)
  | .scanPrefix scope => do pure (← scanPrefix layout scope changes, changes)
  | .countPrefix scope => do pure ((← scanPrefix layout scope changes).length, changes)
  | .scanHistory entity => do pure (← scanHistory entity changes, changes)
  | .scanHistoryEntityKeys scope => do pure (← scanHistoryEntityKeys scope changes, changes)
  | .getAsOf entity validAt txAt => do
    let versions ← scanHistory entity changes
    pure ((resolveAsOf versions validAt txAt).map VersionRecord.value, changes)
  | .put key value => staged refuse (changes.set layout maxBytes key (some value))
  | .putIfAbsent key value => do
    match ← get key changes with
    | some existing => pure (some existing, changes)
    | none => do
      let (_, changes) ← staged refuse (changes.set layout maxBytes key (some value))
      pure (none, changes)
  | .delete key => staged refuse (changes.set layout maxBytes key none)
  | .batchPut pairs =>
    staged refuse (changes.setAll layout maxBytes (pairs.map fun pair => (pair.1, some pair.2)))
  | .batchDelete keys => staged refuse (changes.setAll layout maxBytes (keys.map fun key => (key, none)))
  | .batchPutVersion versions => staged refuse (changes.addVersions layout maxBytes versions)
  | .batchApply puts deletes versions =>
    staged refuse do
      let changes ← changes.setAll layout maxBytes (puts.map fun pair => (pair.1, some pair.2))
      let changes ← changes.setAll layout maxBytes (deletes.map fun key => (key, none))
      changes.addVersions layout maxBytes versions
  | .addCounters deltas => addCounters layout maxBytes refuse changes deltas

def stage {α : Type} : Prog (signature κ ν) ε α → Changes κ ν → Prog (signature κ ν) ε (α × Changes κ ν)
  | .pure value, changes => pure (value, changes)
  | .fail reason, _ => .fail reason
  | .call (.kv op) next, changes => do
    let (result, changes) ← handle layout maxBytes refuse changes op
    stage (next result) changes
  | .call .txNow next, changes => do
    let tx ← Store.txNow
    stage (next tx) changes

def puts : List (κ × ν) :=
  changes.values.toList.filterMap fun write => write.2.map fun value => (write.1, value)

def deletes : List κ :=
  changes.values.toList.filterMap fun write => if write.2.isNone then some write.1 else none

def commit : Prog (signature κ ν) ε Unit :=
  if (puts changes).isEmpty && (deletes changes).isEmpty && changes.versions.isEmpty then
    pure ()
  else
    Store.batchApply (puts changes) (deletes changes) changes.versions

end

/-- A whole statement: stage it, then commit its changes. -/
def atomically {α : Type} (p : Prog (signature κ ν) ε α) : Prog (signature κ ν) ε α := do
  let (value, changes) ← stage layout maxBytes refuse p .nothing
  commit changes
  pure value

end MutationStore
end ByoriDB.Store
