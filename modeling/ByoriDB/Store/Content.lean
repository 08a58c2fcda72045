import ByoriDB.Data.Table

namespace ByoriDB.Store

open Std
open Data

/-- The end of an interval that is still open (`VALID_OPEN`, the largest `i64`). -/
def validOpen : Int := 9223372036854775807

/-- A version as the writers hand it to the store. -/
structure VersionRow (κ ν : Type) where
  entity : κ
  validFrom : Int
  validTo : Int
  tx : Int
  payload : ν
  deriving DecidableEq, Repr

/-- A version as a scan of one entity's history returns it. -/
structure VersionRecord (ν : Type) where
  validFrom : Int
  validTo : Int
  tx : Int
  value : ν
  deriving DecidableEq, Repr

structure HistoryKey (κ : Type) where
  entity : κ
  validFrom : Int
  tx : Int
  deriving DecidableEq, Repr

variable {κ ν : Type} [Ord κ]

/-- Entities ascend; within one entity later times come first. -/
instance : Ord (HistoryKey κ) where
  compare := compareLex (compareOn HistoryKey.entity)
    (compareLex (compareOn fun key => -key.validFrom) (compareOn fun key => -key.tx))

theorem HistoryKey.compare_eq (left right : HistoryKey κ) : compare left right = (compare left.entity right.entity).then
      ((compare (-left.validFrom) (-right.validFrom)).then (compare (-left.tx) (-right.tx))) := rfl

theorem HistoryKey.compare_lt_iff [LawfulEqOrd κ] {left right : HistoryKey κ} (same : left.entity = right.entity) :
    compare left right = .lt ↔
      right.validFrom < left.validFrom ∨ (left.validFrom = right.validFrom ∧ right.tx < left.tx) := by
  rw [HistoryKey.compare_eq, same, Std.compare_eq_iff_eq.mpr rfl, Ordering.eq_then, Ordering.then_eq_lt,
    Std.compare_eq_lt, Std.compare_eq_lt, Std.compare_eq_iff_eq]
  omega

variable [TransOrd κ]

instance : TransOrd (HistoryKey κ) :=
  inferInstanceAs (TransCmp (compareLex (compareOn HistoryKey.entity)
    (compareLex (compareOn fun key => -key.validFrom) (compareOn fun key => -key.tx))))

variable [LawfulEqOrd κ] [DecidableEq κ]

instance : LawfulEqOrd (HistoryKey κ) where
  eq_of_compare := by
    intro left right same
    rw [HistoryKey.compare_eq, Ordering.then_eq_eq, Ordering.then_eq_eq] at same
    obtain ⟨entity, validFrom, tx⟩ := same
    cases left
    cases right
    simp_all

def VersionRow.key (row : VersionRow κ ν) : HistoryKey κ := ⟨row.entity, row.validFrom, row.tx⟩

def VersionRow.entry (row : VersionRow κ ν) : HistoryKey κ × (Int × ν) :=
  (row.key, row.validTo, row.payload)

def recordOf (entry : HistoryKey κ × (Int × ν)) : VersionRecord ν :=
  ⟨entry.1.validFrom, entry.2.1, entry.1.tx, entry.2.2⟩

/-- Whether a version counts at `validAt` for a reader that knows what was
recorded up to `txAt`. -/
def VersionRecord.covers (validAt txAt : Int) (version : VersionRecord ν) : Bool :=
  version.tx ≤ txAt && version.validFrom ≤ validAt && validAt < version.validTo

theorem VersionRecord.covers_iff {version : VersionRecord ν} {validAt txAt : Int} : version.covers validAt txAt = true ↔
      version.tx ≤ txAt ∧ version.validFrom ≤ validAt ∧ validAt < version.validTo := by
  simp [VersionRecord.covers, and_assoc]

structure Content (κ ν : Type) [Ord κ] where
  kv : Table κ ν
  history : Table (HistoryKey κ) (Int × ν)

namespace Content

def empty : Content κ ν := ⟨.empty, .empty⟩

section

variable (content : Content κ ν)

def putVersions (versions : List (VersionRow κ ν)) : Content κ ν :=
  { content with history := content.history.putAll (versions.map VersionRow.entry) }

/-- One transaction: puts, then deletes, then version appends. -/
def batchApply (puts : List (κ × ν)) (deletes : List κ)
    (versions : List (VersionRow κ ν)) : Content κ ν :=
  ({ content with kv := (content.kv.putAll puts).eraseAll deletes }).putVersions versions

def scanHistory (entity : κ) : List (VersionRecord ν) :=
  (content.history.select fun key => key.entity = entity).map recordOf

/-- The entities under a prefix that have at least one version, ascending. -/
def scanHistoryEntityKeys (selects : κ → Bool) : List κ :=
  Table.distinct ((content.history.select fun key => selects key.entity).map fun entry => entry.1.entity)

def getAsOf (entity : κ) (validAt txAt : Int) : Option ν :=
  ((content.scanHistory entity).find? (VersionRecord.covers validAt txAt)).map VersionRecord.value

end

end Content
end ByoriDB.Store
