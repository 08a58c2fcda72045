import ByoriDB.Store.Operations

/-! A textual key is a list of segments joined by colons, and a scan over the prefix `a:b:` selects the keys
that extend `a`, `b`.  All spaces share one keyspace: the first segment of a data key is the name of
its space, and its schema stands under the word `space`.  Index entries have binary keys. -/

namespace ByoriDB.Graph

open List Std
open Data

inductive Seg where
  | word (text : String)
  | num (value : Int)
  deriving DecidableEq, Repr

inductive Key where
  | text (segments : List Seg)
  | raw (bytes : List UInt8)
  deriving DecidableEq, Repr

def Seg.toText : Seg → String
  | .word text => text
  | .num value => toString value

def Key.toText : Key → String
  | .text segments => ":".intercalate (segments.map Seg.toText)
  | .raw _ => ""

def Seg.wordPart : Seg → String
  | .word text => text
  | .num _ => ""

def Seg.numPart : Seg → Int
  | .word _ => 0
  | .num value => value

def Seg.isNum : Seg → Nat
  | .word _ => 0
  | .num _ => 1

instance : Ord Seg where
  compare := compareLex (compareOn Seg.isNum) (compareLex (compareOn Seg.numPart) (compareOn Seg.wordPart))

instance : TransOrd Seg :=
  inferInstanceAs (TransCmp (compareLex (compareOn Seg.isNum)
    (compareLex (compareOn Seg.numPart) (compareOn Seg.wordPart))))

theorem Seg.compare_eq (left right : Seg) : compare left right = (compare left.isNum right.isNum).then
      ((compare left.numPart right.numPart).then (compare left.wordPart right.wordPart)) := rfl

instance : LawfulEqOrd Seg where
  eq_of_compare := by
    intro left right same
    rw [Seg.compare_eq, Ordering.then_eq_eq, Ordering.then_eq_eq] at same
    obtain ⟨kind, number, text⟩ := same
    cases left <;> cases right <;> simp_all [Seg.isNum, Seg.numPart, Seg.wordPart]

def Key.segments : Key → List Seg
  | .text segments => segments
  | .raw _ => []

def Key.bytes : Key → List UInt8
  | .text _ => []
  | .raw bytes => bytes

def Key.isText : Key → Nat
  | .raw _ => 0
  | .text _ => 1

instance : Ord Key where
  compare := compareLex (compareOn Key.isText) (compareLex (compareOn Key.segments) (compareOn Key.bytes))

instance : TransOrd Key :=
  inferInstanceAs (TransCmp (compareLex (compareOn Key.isText)
    (compareLex (compareOn Key.segments) (compareOn Key.bytes))))

theorem Key.compare_eq (left right : Key) : compare left right = (compare left.isText right.isText).then
      ((compare left.segments right.segments).then (compare left.bytes right.bytes)) := rfl

instance : LawfulEqOrd Key where
  eq_of_compare := by
    intro left right same
    rw [Key.compare_eq, Ordering.then_eq_eq, Ordering.then_eq_eq] at same
    obtain ⟨kind, segments, bytes⟩ := same
    cases left <;> cases right <;> simp_all [Key.isText, Key.segments, Key.bytes]

/-- A textual prefix ends with the colon after its last segment. -/
inductive Prefix where
  | text (segments : List Seg)
  | raw (bytes : List UInt8)
  deriving DecidableEq, Repr

def Prefix.covers : Prefix → Key → Bool
  | .text segments, .text own => segments.isPrefixOf own && segments.length < own.length
  | .raw bytes, .raw own => bytes.isPrefixOf own
  | _, _ => false

theorem covers_text :
    (Prefix.text segments).covers key = true ↔ ∃ rest, rest ≠ [] ∧ key = .text (segments ++ rest) := by
  cases key with
  | raw bytes => simp [Prefix.covers]
  | text own =>
    simp only [Prefix.covers, Bool.and_eq_true, List.isPrefixOf_iff_prefix, decide_eq_true_eq, Key.text.injEq]
    constructor
    · rintro ⟨⟨rest, rfl⟩, longer⟩
      refine ⟨rest, ?_, rfl⟩
      rintro rfl
      simp at longer
    · rintro ⟨rest, nonempty, rfl⟩
      refine ⟨⟨rest, rfl⟩, ?_⟩
      simpa [length_pos_iff] using nonempty

instance : Store.Scoped Key := ⟨Prefix, Prefix.covers⟩

namespace SchemaKey

def space (name : String) : Key := .text [.word "space", .word name]

/-- The prefix of the schema of a space, and that of its data. -/
def schemaPrefix (name : String) : Prefix := .text [.word "space", .word name]

def dataPrefix (name : String) : Prefix := .text [.word name]

def tag (space name : String) : Key := .text [.word "space", .word space, .word "tag", .word name]

def class_ (space name : String) : Key := .text [.word "space", .word space, .word "class", .word name]

def classPrefix (space : String) : Prefix := .text [.word "space", .word space, .word "class"]

def shape (space name : String) : Key := .text [.word "space", .word space, .word "shape", .word name]

def shapePrefix (space : String) : Prefix := .text [.word "space", .word space, .word "shape"]

def edge (space name : String) : Key := .text [.word "space", .word space, .word "edge", .word name]

section

variable (space : String)

def edgePrefix : Prefix := .text [.word "space", .word space, .word "edge"]

def vertex (vid : Int) : Key := .text [.word space, .word "vertex", .num vid]

def vertexPrefix : Prefix := .text [.word space, .word "vertex"]

section

variable (vid : Int) (src : Int) (dst : Int) (edgeType : String)

def edgeData (dst ranking : Int) : Key :=
  .text [.word space, .word "edge", .num src, .word edgeType, .num dst, .num ranking]

def edgeDataSpacePrefix : Prefix := .text [.word space, .word "edge"]

def edgeDataSrcPrefix : Prefix := .text [.word space, .word "edge", .num src]

def edgeDataTriplePrefix (dst : Int) : Prefix :=
  .text [.word space, .word "edge", .num src, .word edgeType, .num dst]

def inEdgeData (src ranking : Int) : Key :=
  .text [.word space, .word "in-edge", .num dst, .word edgeType, .num src, .num ranking]

def inEdgeDataSpacePrefix : Prefix := .text [.word space, .word "in-edge"]

def inEdgeDataDstPrefix : Prefix := .text [.word space, .word "in-edge", .num dst]

def vtype (vid : Int) (className : String) : Key :=
  .text [.word space, .word "vtype", .num vid, .word className]

def vtypeSpacePrefix : Prefix := .text [.word space, .word "vtype"]

def vtypePrefix : Prefix := .text [.word space, .word "vtype", .num vid]

def provEdge (s : Int) (p : String) (d : Int) : Key :=
  .text [.word space, .word "prov", .word "e", .num s, .word p, .num d]

def provVtype (className : String) : Key :=
  .text [.word space, .word "prov", .word "v", .num vid, .word className]

end

def provPrefix : Prefix := .text [.word space, .word "prov"]

def provRevEdge (s : Int) (p : String) (d : Int) : Key :=
  .text [.word space, .word "prov-rev", .word "e", .num s, .word p, .num d]

def provRevPrefix : Prefix := .text [.word space, .word "prov-rev"]

end

def tagvid (space tag : String) (vid : Int) : Key := .text [.word space, .word "tagvid", .word tag, .num vid]

def sameas (space : String) (vid : Int) : Key := .text [.word space, .word "sameas", .num vid]

def sameasMember (space : String) (rep member : Int) : Key :=
  .text [.word space, .word "sameas-members", .num rep, .num member]

def sameasMembersPrefix (space : String) (rep : Int) : Prefix :=
  .text [.word space, .word "sameas-members", .num rep]

def vecData (space prop : String) (vid : Int) : Key := .text [.word space, .word "vec", .word prop, .num vid]

def vecIndexDirty (space prop : String) : Key := .text [.word space, .word "vecidx-dirty", .word prop]

def indegCounter (space edgeType : String) (dst : Int) : Key :=
  .text [.word space, .word "indeg", .word edgeType, .num dst]

def indegPrefix (space : String) : Prefix := .text [.word space, .word "indeg"]

def outdegCounter (space edgeType : String) (src : Int) : Key :=
  .text [.word space, .word "outdeg", .word edgeType, .num src]

def outdegPrefix (space : String) : Prefix := .text [.word space, .word "outdeg"]

def inferenceDirty (space : String) : Key := .text [.word space, .word "inference", .word "dirty"]

def nextSpaceId : Key := .text [.word "__meta", .word "next_space_id"]

def indexDef (spaceId indexId : Nat) : Key :=
  .text [.word "__meta", .word "index_def", .num spaceId, .num indexId]

def indexDefsPrefix : Prefix := .text [.word "__meta", .word "index_def"]

def indexDefPrefix (spaceId : Nat) : Prefix := .text [.word "__meta", .word "index_def", .num spaceId]

end SchemaKey

/-- The word after the name of the space. -/
def Key.kind (space : String) : Key → Option String
  | .text (.word first :: .word second :: _ :: _) => if first = space then some second else none
  | _ => none

def Key.isEntity : Key → Bool
  | .text [.word _, .word kind, .num _] => kind = "vertex"
  | .text [.word _, .word kind, .num _, .word _, .num _, .num _] => kind = "edge"
  | _ => false

theorem covers_kind :
    (Prefix.text [.word space, .word kind]).covers key = true ↔ key.kind space = some kind := by
  rw [covers_text]
  constructor
  · rintro ⟨rest, nonempty, rfl⟩
    obtain ⟨head, tail, rfl⟩ := exists_cons_of_ne_nil nonempty
    simp [Key.kind]
  · intro same
    unfold Key.kind at same
    split at same
    · rename_i first second third rest
      split at same
      · rename_i here
        cases same
        exact ⟨third :: rest, by simp, by rw [here]; rfl⟩
      · cases same
    · cases same

export SchemaKey (class_ classPrefix dataPrefix edgeData edgeDataSpacePrefix edgeDataSrcPrefix edgeDataTriplePrefix
  edgePrefix inEdgeData inEdgeDataDstPrefix inEdgeDataSpacePrefix indegCounter indegPrefix indexDef
  indexDefPrefix indexDefsPrefix inferenceDirty nextSpaceId outdegCounter outdegPrefix provEdge provPrefix
  provRevEdge provRevPrefix provVtype sameas sameasMember sameasMembersPrefix schemaPrefix shapePrefix tagvid
  vecData vecIndexDirty vertexPrefix vtype vtypePrefix vtypeSpacePrefix)

namespace Key
export SchemaKey (edge space tag vertex)
end Key

end ByoriDB.Graph
