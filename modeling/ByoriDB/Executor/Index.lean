import ByoriDB.Data.Bytes
import ByoriDB.Executor.Inference

namespace ByoriDB.Executor

open Data Program Store ByoriDB.Graph

inductive IndexValue where
  | null
  | bool (flag : Bool)
  | int (number : Int)
  | float (bits : UInt64)
  | string (text : String)

namespace IndexValue

/-- The bit pattern of a float, changed so that it sorts like the number. -/
def orderedBits (bits : UInt64) : Nat :=
  if bits.toNat < 9223372036854775808 then flipSign bits.toNat else complement bits.toNat

def encode : IndexValue → Bytes
  | .null => [0]
  | .bool flag => [1, if flag then 1 else 0]
  | .int number => 2 :: Bytes.bigEndian 8 (flipSign (asU64 number))
  | .float bits => 3 :: Bytes.bigEndian 8 (orderedBits bits)
  | .string text =>
    let bytes := text.toUTF8.data.toList.take 255
    4 :: UInt8.ofNat bytes.length :: bytes

/-- Equality of index values; floats are compared as numbers. -/
def same : IndexValue → IndexValue → Bool
  | .null, .null => true
  | .bool left, .bool right => left == right
  | .int left, .int right => left == right
  | .float left, .float right => Float.ofBits left == Float.ofBits right
  | .string left, .string right => left == right
  | _, _ => false

def sameAll : List IndexValue → List IndexValue → Bool
  | [], [] => true
  | left :: lefts, right :: rights => left.same right && sameAll lefts rights
  | _, _ => false

end IndexValue

def indexValue : Value → IndexValue
  | .string text => .string text
  | .int number => .int number
  | .float bits => .float bits
  | .bool flag => .bool flag
  | _ => .null

def tagIndexKind : UInt8 := 4

def edgeIndexKind : UInt8 := 5

namespace KeyUtils

variable (partId indexId : Nat) (values : List IndexValue)

def indexPrefix (kind : UInt8) : Bytes :=
  Bytes.bigEndian 4 partId ++ kind :: Bytes.bigEndian 4 indexId

def tagIndexKey (vid : Int) : Bytes :=
  indexPrefix partId indexId tagIndexKind ++ values.flatMap IndexValue.encode ++ Bytes.bigEndian 8 (asU64 vid)

def edgeIndexKey (src rank dst : Int) : Bytes :=
  indexPrefix partId indexId edgeIndexKind ++ values.flatMap IndexValue.encode ++
    Bytes.bigEndian 8 (asU64 src) ++ Bytes.bigEndian 8 (asU64 rank) ++ Bytes.bigEndian 8 (asU64 dst)

end KeyUtils

/-- Every entry lies in partition 1. -/
abbrev indexKeyPrefix (kind : UInt8) (indexId : Nat) : Bytes := KeyUtils.indexPrefix 1 indexId kind

section

variable (ctx : Ctx) (indexId : Nat) (space : String)

def tagIndexKey (values : List IndexValue) (vid : Int) : Key :=
  .raw (KeyUtils.tagIndexKey 1 indexId values vid)

def edgeIndexKey (values : List IndexValue) (src rank dst : Int) : Key :=
  .raw (KeyUtils.edgeIndexKey 1 indexId values src rank dst)

/-- The indexed values of a property map; a missing property counts as null. -/
def indexValues (index : IndexDef) (props : Props) : List IndexValue :=
  index.fields.map fun field => indexValue ((props.get field).getD .null)

def spaceIdOf : Exec Nat :=
  match ctx.spaceId with
  | some id => pure id
  | none => do
    match ← get (SchemaKey.space space) with
    | none => pure 1
    | some (.space record) =>
      if record.id < 4294967296 then pure record.id else invalid "Invalid space id metadata"
    | some _ => .fail jsonError

def readIndexDef (spaceId : Nat) (key : Key) (value : Val) : Except ExecutionError IndexDef :=
  match value with
  | .indexDef index =>
    if index.spaceId ≠ spaceId ∨ key ≠ indexDef spaceId index.id ∨ index.fields = [] ∨ index.schemaName = "" then
      .error (.invalidOperation "Invalid persisted index definition")
    else .ok index
  | _ => .error jsonError

def mutationIndexes (kind : IndexType) : Exec (List IndexDef) := do
  let spaceId ← spaceIdOf ctx space
  let entries ← scanPrefix (indexDefPrefix spaceId)
  let indexes ← ofExcept (entries.mapM fun entry => readIndexDef spaceId entry.1 entry.2)
  pure (indexes.filter fun index => index.indexType = kind)

def vertexIndexKeys (vertex : VertexData) : Exec (List Key) := do
  let indexes ← mutationIndexes ctx space .tag
  pure (indexes.filterMap fun index =>
    (vertex.tags.find? fun tag => tag.name = index.schemaName).map fun tag =>
      tagIndexKey index.id (indexValues index tag.properties) vertex.vid)

def edgeIndexKeys (edge : EdgeData) : Exec (List Key) := do
  let indexes ← mutationIndexes ctx space .edge
  pure ((indexes.filter fun index => index.schemaName = edge.edgeType).map fun index =>
    edgeIndexKey index.id (indexValues index edge.properties) edge.srcVid edge.ranking edge.dstVid)

end

end ByoriDB.Executor
