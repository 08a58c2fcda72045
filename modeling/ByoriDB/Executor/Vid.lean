import ByoriDB.Executor.Context

namespace ByoriDB.Executor

open Program ByoriDB.Graph Store

inductive Vid where
  | int (value : Int)
  | string (value : String)
  deriving DecidableEq, Repr

inductive SpaceVidType where
  | int64
  | fixedString (length : Nat)
  deriving DecidableEq, Repr

section

variable (space : String) (value : String)

def spaceVidType : Exec SpaceVidType := do
  match ← get (SchemaKey.space space) with
  | none => pure .int64
  | some (.space record) =>
    match record.vidType with
    | .int64 => pure .int64
    | .fixedString length => pure (.fixedString length)
    | .unsupported raw => invalid s!"space '{space}' has unsupported vid_type '{raw}'"
  | some _ => .fail (.serialization "space record")

def hexDigit (nibble : Nat) : Char := "0123456789abcdef".toList.getD nibble '0'

def encodeComponent : String :=
  String.ofList (value.toUTF8.data.toList.flatMap fun byte =>
    [hexDigit (byte.toNat / 16), hexDigit (byte.toNat % 16)])

def forwardKey (space value : String) : Key :=
  .text [.word space, .word "vid-map", .word (encodeComponent value)]

def reverseKey (internal : Int) : Key :=
  .text [.word space, .word "vid-rev", .num internal]

def decodeInternal : Val → Option Int
  | .vid number => some number
  | _ => none

def isText : Val → Bool
  | .text stored => stored == value
  | _ => false

def minVid : Int := -9223372036854775808

def initialCandidate (ctx : Ctx) (value : String) : Int :=
  (ctx.hash value ||| ((1 : UInt64) <<< 63)).toInt64.toInt

def nextCandidate (candidate : Int) : Int :=
  if candidate = -1 then minVid else candidate + 1

/-- Whether graph data already uses this number. -/
def internalVidIsOccupied (internal : Int) : Exec Bool := do
  if (← get (SchemaKey.vertex space internal)).isSome then
    return true
  if !(← scanPrefix (edgeDataSrcPrefix space internal)).isEmpty then
    return true
  return !(← scanPrefix (inEdgeDataDstPrefix space internal)).isEmpty

def validateWriteVid : SpaceVidType → Vid → Except ExecutionError Unit
  | .int64, .int _ => .ok ()
  | .int64, .string _ =>
    .error (.invalidOperation s!"space '{space}' uses INT64 VIDs; a string VID is not allowed")
  | .fixedString maxLen, .string value =>
    if value.utf8ByteSize > maxLen then
      .error (.invalidOperation
        s!"VID is {value.utf8ByteSize} bytes but space '{space}' uses FIXED_STRING({maxLen})")
    else .ok ()
  | .fixedString _, .int value =>
    .error (.invalidOperation
      s!"space '{space}' uses FIXED_STRING VIDs; integer VID {value} is read/delete-only legacy data and cannot be written")

/-- Publish the forward mapping of a surrogate whose reverse key is ours. -/
def publishForward (space value : String) (candidate : Int) : Exec (Option Int) := do
  match ← putIfAbsent (forwardKey space value) (.vid candidate) with
  | some existing =>
    if decodeInternal existing = some candidate then pure (some candidate)
    else invalid s!"conflicting string VID mapping in space '{space}'"
  | none => pure (some candidate)

/-- Try to claim a surrogate; `advance` is what happens when it is another's. -/
def probeCandidate (space value : String) (candidate : Int) (advance : Exec (Option Int)) : Exec (Option Int) := do
  match ← get (reverseKey space candidate) with
  | some owner => if isText value owner then publishForward space value candidate else advance
  | none =>
    if ← internalVidIsOccupied space candidate then
      advance
    else
      match ← putIfAbsent (reverseKey space candidate) (.text value) with
      | some owner => if isText value owner then publishForward space value candidate else advance
      | none => publishForward space value candidate

/-- The probe for a free surrogate.  It goes through the negative numbers from
the hash of the string on and gives up when it comes back to its start; `fuel`
counts the candidates left, and is never used up before that. -/
def probe (space value : String) (first : Int) : Nat → Int → Exec (Option Int)
  | 0, _ => .fail .outOfFuel
  | fuel + 1, candidate =>
    probeCandidate space value candidate
      (if nextCandidate candidate = first then
        invalid s!"negative string VID namespace is exhausted in space '{space}'"
      else
        probe space value first fuel (nextCandidate candidate))

def negativeVids : Nat := 9223372036854775808

/-- Resolve one external vertex id.  Only writes create a mapping. -/
def resolveVid (ctx : Ctx) (space : String) : SpaceVidType → Vid → Bool → Exec (Option Int)
  | .int64, .int value, _ => pure (some value)
  | .int64, .string _, _ => invalid s!"space '{space}' uses INT64 VIDs; a string VID is not allowed"
  | .fixedString _, .int value, true =>
    invalid s!"space '{space}' uses FIXED_STRING VIDs; integer VID {value} is read/delete-only legacy data and cannot be written"
  | .fixedString _, .int value, false =>
    if value < 0 then
      invalid s!"space '{space}' uses FIXED_STRING VIDs; raw negative internal VID {value} is not allowed"
    else do
      if (← get (reverseKey space value)).isSome then
        invalid s!"corrupt positive string VID mapping for internal VID {value} in space '{space}'"
      else if ← internalVidIsOccupied space value then
        pure (some value)
      else
        pure none
  | .fixedString maxLen, .string value, createMapping =>
    if value.utf8ByteSize > maxLen then
      invalid s!"VID is {value.utf8ByteSize} bytes but space '{space}' uses FIXED_STRING({maxLen})"
    else do
      match ← get (forwardKey space value) with
      | some stored =>
        match decodeInternal stored with
        | none => invalid s!"corrupt string VID mapping in space '{space}'"
        | some internal =>
          if internal ≥ 0 then
            invalid s!"string VID mapping in space '{space}' points outside the negative surrogate namespace"
          else
            match ← get (reverseKey space internal) with
            | none =>
              invalid s!"missing reverse string VID mapping for internal VID {internal} in space '{space}'"
            | some owner =>
              if isText value owner then pure (some internal)
              else invalid s!"conflicting reverse string VID mapping for internal VID {internal} in space '{space}'"
      | none =>
        if createMapping then
          probe space value (initialCandidate ctx value) negativeVids (initialCandidate ctx value)
        else
          pure none

def displayVid : SpaceVidType → Int → Exec Value
  | .int64, internal => pure (.int internal)
  | .fixedString _, internal =>
    if internal ≥ 0 then do
      if (← get (reverseKey space internal)).isSome then
        invalid s!"corrupt positive string VID mapping for internal VID {internal} in space '{space}'"
      else if ← internalVidIsOccupied space internal then
        pure (.int internal)
      else
        invalid s!"unmapped non-negative VID {internal} is not live in FIXED_STRING space '{space}'"
    else do
      match ← get (reverseKey space internal) with
      | none => invalid s!"missing reverse string VID mapping for internal VID {internal} in space '{space}'"
      | some (.text owner) => pure (.string owner)
      | some _ => invalid s!"invalid UTF-8 reverse string VID mapping in space '{space}'"

end

end ByoriDB.Executor
