import ByoriDB.Graph.Key
import ByoriDB.Graph.Value

/-! A payload is the record it decodes to, and reading it as a record of another kind is a decoding error.
No codec produces an empty payload: `Val.empty` is the value of presence-only keys and of tombstones. -/

namespace ByoriDB.Graph

inductive ExecutionError where
  | storage (message : String)
  | spaceNotFound (name : String)
  | tagNotFound (name : String)
  | edgeNotFound (name : String)
  | typeMismatch (message : String)
  | constraintViolation (message : String)
  | invalidOperation (message : String)
  | resourceExhausted (message : String)
  | serialization (message : String)
  | outOfFuel
  deriving DecidableEq, Repr

inductive DataType where
  | bool
  | int8
  | int16
  | int32
  | int64
  | float
  | double
  | string
  | fixedString (length : Nat)
  | timestamp
  | date
  | time
  | dateTime
  | geography
  deriving DecidableEq, Repr

def DataType.debug : DataType → String
  | .bool => "Bool"
  | .int8 => "Int8"
  | .int16 => "Int16"
  | .int32 => "Int32"
  | .int64 => "Int64"
  | .float => "Float"
  | .double => "Double"
  | .string => "String"
  | .fixedString length => s!"FixedString({length})"
  | .timestamp => "Timestamp"
  | .date => "Date"
  | .time => "Time"
  | .dateTime => "DateTime"
  | .geography => "Geography"

/-- A declared column.  `typeName` is the type as the schema record holds it when
that is a plain string. -/
structure PropertyDef where
  name : String
  typeName : Option String
  nullable : Bool
  deriving DecidableEq, Repr

/-- The relation semantics an edge type declares. -/
structure SemanticFlags where
  transitive : Bool := false
  symmetric : Bool := false
  inverseOf : Option String := none
  subpropertyOf : Option String := none
  domain : Option String := none
  range : Option String := none
  propertyChain : Option (List String) := none
  equivalentProperty : Option String := none
  deriving DecidableEq, Repr

structure TagSchema where
  name : String
  properties : List PropertyDef
  version : Option Int := none
  deriving DecidableEq, Repr

structure EdgeSchema where
  name : String
  properties : List PropertyDef
  semantics : SemanticFlags
  version : Option Int := none
  deriving DecidableEq, Repr

structure ClassDef where
  name : String
  superclasses : List String
  disjoint : List String
  equivalentClasses : List String
  deriving DecidableEq, Repr

/-- A condition over a flattened property map, as its evaluation: `none` is an
evaluation error. -/
abbrev Predicate := Props → Option Bool

inductive ShapeConstraintKind where
  | required
  | dataType (type : DataType)
  | predicate (holds : Predicate)

structure ShapeConstraint where
  property : String
  kind : ShapeConstraintKind

structure ShapeDef where
  name : String
  targetClass : String
  constraints : List ShapeConstraint

/-- The declared VID type of a space, as the text of the record parses. -/
inductive VidTypeText where
  | int64
  | fixedString (length : Nat)
  | unsupported (raw : String)
  deriving DecidableEq, Repr

structure SpaceRecord where
  id : Nat
  name : String
  vidType : VidTypeText
  deriving DecidableEq, Repr

inductive IndexType where
  | tag
  | edge
  deriving DecidableEq, Repr

structure IndexDef where
  id : Nat
  spaceId : Nat
  indexName : String
  indexType : IndexType
  schemaName : String
  fields : List String
  deriving DecidableEq, Repr

inductive RuleKind where
  | symmetric
  | inverseOf
  | subPropertyOf
  | equivalentProperty
  | transitive
  | propertyChain
  | domain
  | range
  deriving DecidableEq, Repr

inductive Fact where
  | edge (s : Int) (p : String) (d : Int)
  | vtype (vid : Int) (className : String)
  deriving DecidableEq, Repr

structure Justification where
  rule : RuleKind
  premises : List Fact
  deriving DecidableEq, Repr

inductive Val where
  | empty
  | one
  | vertex (data : VertexData)
  | edge (data : EdgeData)
  | space (record : SpaceRecord)
  | tagSchema (schema : TagSchema)
  | edgeSchema (schema : EdgeSchema)
  | classDef (definition : ClassDef)
  | shapeDef (definition : ShapeDef)
  | indexDef (definition : IndexDef)
  | count (number : Int)
  | vid (number : Int)
  | text (text : String)
  | embedding (components : List Component)
  | justifications (items : List Justification)
  | facts (items : List Fact)
  | user (name : String)

def Val.isEmpty : Val → Bool
  | .empty => true
  | _ => false

abbrev KV := Data.Table Key Val

/-- Edge payloads that inference did not write. -/
def Val.isAsserted : Val → Bool
  | .edge data => !data.isInferred
  | _ => false

def Val.isInferred : Val → Bool
  | .edge data => data.isInferred
  | _ => false

/-- The payloads of facts: vertices and asserted edges. -/
def Val.isFact : Val → Bool
  | .vertex _ => true
  | value => value.isAsserted

def invalidVertex : ExecutionError := .storage "Invalid vertex metadata"

def invalidEdge : ExecutionError := .invalidOperation "Invalid edge metadata"

/-- Decode a vertex fetched under the key of `expectedVid`. -/
def decodeVertex (expectedVid : Int) : Val → Except ExecutionError VertexData
  | .vertex data => if data.vid = expectedVid then .ok data else .error invalidVertex
  | _ => .error invalidVertex

/-- Decode an edge found under a forward or a reverse edge key.  The payload has
to agree with every component of the key. -/
def decodeQueryEdge (key : Key) (value : Val) : Except ExecutionError EdgeData :=
  match value, key with
  | .edge data, .text [.word _, .word kind, .num first, .word edgeType, .num second, .num rank] =>
    let matching :=
      if kind = "edge" then first = data.srcVid ∧ second = data.dstVid
      else if kind = "in-edge" then first = data.dstVid ∧ second = data.srcVid
      else False
    if data.edgeType = edgeType ∧ data.edgeType ≠ "" ∧ matching ∧ rank = data.ranking then
      .ok data
    else .error invalidEdge
  | _, _ => .error invalidEdge

theorem decodeQueryEdge_ok (decoded : decodeQueryEdge key value = .ok edge) :
    value = .edge edge ∧ ∃ space, key = edgeData space edge.srcVid edge.edgeType edge.dstVid edge.ranking ∨
      key = inEdgeData space edge.dstVid edge.edgeType edge.srcVid edge.ranking := by
  unfold decodeQueryEdge at decoded
  split at decoded
  · rename_i data space kind first edgeType second rank
    rcases ite_eq_iff.mp decoded with ⟨⟨rfl, _, matching, rfl⟩, same⟩ | ⟨_, impossible⟩
    · cases same
      refine ⟨rfl, space, ?_⟩
      split at matching
      · rename_i forward
        obtain ⟨rfl, rfl⟩ := matching
        exact .inl (by rw [forward]; rfl)
      · split at matching
        · rename_i reverse
          obtain ⟨rfl, rfl⟩ := matching
          exact .inr (by rw [reverse]; rfl)
        · exact matching.elim
    · cases impossible
  · cases decoded

/-- The key of an edge and of its reverse-index entry. -/
def EdgeData.key (space : String) (edge : EdgeData) : Key :=
  edgeData space edge.srcVid edge.edgeType edge.dstVid edge.ranking

def EdgeData.inKey (space : String) (edge : EdgeData) : Key :=
  inEdgeData space edge.dstVid edge.edgeType edge.srcVid edge.ranking

end ByoriDB.Graph
