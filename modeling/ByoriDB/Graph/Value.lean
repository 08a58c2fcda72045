import ByoriDB.Data.Table

namespace ByoriDB.Graph

open Data

inductive ValueKind where
  | date
  | time
  | dateTime
  | duration
  | geography
  | set
  deriving DecidableEq, Repr

/-- A property value.  Floats are kept as their bit patterns. -/
inductive Value where
  | empty
  | null
  | bool (flag : Bool)
  | int (number : Int)
  | float (bits : UInt64)
  | string (text : String)
  | list (items : List Value)
  | map (entries : List (String × Value))
  | other (kind : ValueKind) (text : String)

/-- Equality of floats is up to `1e-8`. -/
def floatClose (left right : UInt64) : Bool :=
  (Float.ofBits left - Float.ofBits right).abs < 1e-8

/- The equality the executor compares values with.  A geography value is unequal
to every value, itself included. -/
mutual
def Value.same : Value → Value → Bool
  | .empty, .empty => true
  | .null, .null => true
  | .bool left, .bool right => left == right
  | .int left, .int right => left == right
  | .float left, .float right => floatClose left right
  | .string left, .string right => left == right
  | .list left, .list right => Value.sameItems left right
  | .map left, .map right => left.length == right.length && Value.sameEntries left right
  | .other leftKind left, .other rightKind right =>
    leftKind != .geography && leftKind == rightKind && left == right
  | _, _ => false

def Value.sameItems : List Value → List Value → Bool
  | [], [] => true
  | left :: lefts, right :: rights => left.same right && Value.sameItems lefts rights
  | _, _ => false

def Value.sameEntries : List (String × Value) → List (String × Value) → Bool
  | [], _ => true
  | (name, value) :: rest, against =>
    (match against.lookup name with
      | some found => value.same found
      | none => false) && Value.sameEntries rest against
end

abbrev Props := Table String Value

def Props.same (left right : Props) : Bool :=
  left.toList.length == right.toList.length &&
    left.toList.all fun entry =>
      match right.get entry.1 with
      | some found => entry.2.same found
      | none => false

structure TagData where
  name : String
  properties : Props

structure VertexData where
  vid : Int
  tags : List TagData

structure EdgeData where
  srcVid : Int
  dstVid : Int
  edgeType : String
  ranking : Int
  properties : Props

def inferredMarker : String := "__inferred__"

def EdgeData.isInferred (edge : EdgeData) : Bool :=
  (edge.properties.get inferredMarker).isSome

def EdgeData.same (left right : EdgeData) : Bool :=
  left.srcVid == right.srcVid && left.dstVid == right.dstVid &&
    left.edgeType == right.edgeType && left.ranking == right.ranking &&
    Props.same left.properties right.properties

/-- A packed numeric vector, by the numbers it was packed from. -/
inductive Component where
  | int (number : Int)
  | float (bits : UInt64)
  deriving DecidableEq, Repr

def component : Value → Option Component
  | .int number => some (.int number)
  | .float bits => some (.float bits)
  | _ => none

/-- A non-empty list of numbers is mirrored to the dense vector store. -/
def packEmbedding : Value → Option (List Component)
  | .list [] => none
  | .list items => items.mapM component
  | _ => none

end ByoriDB.Graph
