import ByoriDB.Executor.Index
import ByoriDB.Executor.Ontology
import Mathlib.Data.List.Sort

namespace ByoriDB.Executor

open Data Program Store ByoriDB.Graph

def sameasEdge : String := "sameAs"

section

variable (ctx : Ctx) (space : String) (edge : EdgeData)

/-- Check an edge found under either of its keys against its forward record. -/
def confirmEdge (edges : Table Key EdgeData) (entry : Key × Val) : Exec (Table Key EdgeData) := do
  let edge ← ofExcept (decodeQueryEdge entry.1 entry.2)
  match ← get (edge.key space) with
  | none => invalid "sameAs found an orphan reverse edge"
  | some forward =>
    let forwardEdge ← ofExcept (decodeQueryEdge (edge.key space) forward)
    if !forwardEdge.same edge then invalid "sameAs forward/reverse edge mismatch"
    else pure (edges.insert (edge.key space) edge)

def incidentEdges (vid : Int) : Exec (Table Key EdgeData) := do
  let outgoing ← scanPrefix (edgeDataSrcPrefix space vid)
  let edges ← outgoing.foldlM (confirmEdge space) .empty
  let incoming ← scanPrefix (inEdgeDataDstPrefix space vid)
  incoming.foldlM (confirmEdge space) edges

/-- The edges in the order of the texts of their keys, where the vertex `10` comes before `9`. -/
def inTextOrder (edges : Table Key EdgeData) : List (Key × EdgeData) :=
  edges.toList.insertionSort fun left right => left.1.toText ≤ right.1.toText

def edgeVersions (key : Key) (payload : Val) : Exec (List (VersionRow Key Val)) :=
  if edge.isInferred then pure [] else buildVersions [(key, payload)]

def retireEdge (key : Key) (edge : EdgeData) : Exec Unit := do
  let indexKeys ← edgeIndexKeys ctx space edge
  let versions ← edgeVersions edge key .empty
  batchApply [] (indexKeys ++ [key, edge.inKey space]) versions

def fillProps (own others : Props) : Props :=
  others.toList.foldl (fun props entry =>
    if (props.get entry.1).isSome then props else props.insert entry.1 entry.2) own

/-- The edge to store at an identity that may be taken.  An asserted edge that is
there keeps its properties, and takes over those it lacks. -/
def combineEdges (existing incoming : EdgeData) : EdgeData :=
  if !existing.isInferred || incoming.isInferred then
    if incoming.isInferred then existing
    else { existing with properties := fillProps existing.properties incoming.properties }
  else incoming

/-- The edge to write, and the index keys of the one it replaces. -/
def mergeWithExisting : Exec (EdgeData × List Key) := do
  match ← get (edge.key space) with
  | none => pure (edge, [])
  | some value =>
    let existing ← ofExcept (decodeQueryEdge (edge.key space) value)
    let stale ← edgeIndexKeys ctx space existing
    pure (combineEdges existing edge, stale)

def writeMergedEdge : Exec Unit := do
  let key := edge.key space
  let (merged, stale) ← mergeWithExisting ctx space edge
  let indexKeys ← edgeIndexKeys ctx space merged
  let puts := [(key, .edge merged), (merged.inKey space, .edge merged)] ++ indexKeys.map fun key => (key, .empty)
  let versions ← edgeVersions merged key (.edge merged)
  batchApply puts (stale.filter fun key => !(puts.map Prod.fst).contains key) versions

/-- An edge with its ends moved from one vertex to another. -/
def moveEnds (loser winner : Int) (edge : EdgeData) : EdgeData :=
  { edge with
    srcVid := if edge.srcVid = loser then winner else edge.srcVid
    dstVid := if edge.dstVid = loser then winner else edge.dstVid }

def moveEdges (winner loser : Int) : Exec Unit := do
  let edges ← incidentEdges space loser
  (inTextOrder edges).forM fun entry => retireEdge ctx space entry.1 entry.2
  (inTextOrder edges).forM fun entry => writeMergedEdge ctx space (moveEnds loser winner entry.2)

def vtypeClassFromKey : Key → Option String
  | .text segments =>
    match segments.getLast? with
    | some (.word className) => some className
    | _ => none
  | .raw _ => none

def moveType (winner loser : Int) (entry : Key × Val) : Exec Unit :=
  match (vtypeClassFromKey entry.1).filter fun className => vtype space loser className = entry.1 with
  | none => invalid "Invalid inferred type key during sameAs"
  | some className => do
    put (vtype space winner className) .empty
    delete entry.1

def moveTypes (winner loser : Int) : Exec Unit := do
  let entries ← scanPrefix (vtypePrefix space loser)
  entries.forM (moveType space winner loser)

/-- The properties of a vertex that are mirrored to the vector store. -/
def embeddingProps (tags : List TagData) : List (String × List Component) :=
  tags.flatMap fun tag => tag.properties.toList.filterMap fun entry =>
    (packEmbedding entry.2).map fun components => (entry.1, components)

/-- Merge a tag into the first one of its name, whose own properties win. -/
def absorbTag (tag : TagData) : List TagData → List TagData
  | [] => [tag]
  | own :: rest =>
    if own.name = tag.name then { own with properties := fillProps own.properties tag.properties } :: rest
    else own :: absorbTag tag rest

def readVertex (vid : Int) : Option Val → Except ExecutionError VertexData
  | none => .ok ⟨vid, []⟩
  | some value => decodeVertex vid value

def mergeVertexBlob (winner loser : Int) : Exec Unit := do
  let loserKey := SchemaKey.vertex space loser
  match ← get loserKey with
  | none => pure ()
  | some value =>
    let loserVertex ← ofExcept (decodeVertex loser value)
    let winnerKey := SchemaKey.vertex space winner
    let winnerVertex ← ofExcept (readVertex winner (← get winnerKey))
    let loserIndexes ← vertexIndexKeys ctx space loserVertex
    let winnerIndexes ← vertexIndexKeys ctx space winnerVertex
    let merged : VertexData := { winnerVertex with
      tags := loserVertex.tags.foldl (fun tags tag => absorbTag tag tags) winnerVertex.tags }
    let mergedIndexes ← vertexIndexKeys ctx space merged
    let loserVectors := (embeddingProps loserVertex.tags).map Prod.fst
    let mergedVectors := embeddingProps merged.tags
    let deletes := loserIndexes ++ winnerIndexes ++ [loserKey] ++
      (loserVertex.tags.map fun tag => tagvid space tag.name loser) ++
      loserVectors.map fun prop => vecData space prop loser
    let puts := [(winnerKey, .vertex merged)] ++ (mergedIndexes.map fun key => (key, .empty)) ++
      (merged.tags.map fun tag => (tagvid space tag.name winner, .empty)) ++
      (mergedVectors.map fun vector => (vecData space vector.1 winner, .embedding vector.2)) ++
      (loserVectors ++ mergedVectors.map Prod.fst).map fun prop => (vecIndexDirty space prop, .empty)
    let tombstones ← buildTombstones [loserKey]
    let versions ← buildVersions [(winnerKey, .vertex merged)]
    batchApply puts (deletes.filter fun key => !(puts.map Prod.fst).contains key) (tombstones ++ versions)

def repointMember (winner loser : Int) (entry : Key × Val) : Exec Unit :=
  match (sameasMemberFromKey entry.1).filter fun member => sameasMember space loser member = entry.1 with
  | none => invalid "Invalid sameAs member key"
  | some member => do
    put (sameas space member) (.vid winner)
    put (sameasMember space winner member) .empty
    delete entry.1

def collapseNode (winner loser : Int) : Exec Unit := do
  moveEdges ctx space winner loser
  moveTypes space winner loser
  mergeVertexBlob ctx space winner loser
  let members ← scanPrefix (sameasMembersPrefix space loser)
  members.forM (repointMember space winner loser)
  put (sameas space loser) (.vid winner)
  put (sameasMember space winner loser) .empty

/-- One more asserted edge of this type, at each of its ends. -/
def countEdge (counts : Table Key Int) (edge : EdgeData) : Table Key Int :=
  if edge.isInferred then counts
  else
    let bump (counts : Table Key Int) (key : Key) := counts.insert key ((counts.get key).getD 0 + 1)
    bump (bump counts (indegCounter space edge.edgeType edge.dstVid))
      (outdegCounter space edge.edgeType edge.srcVid)

def rebuildAssertedDegreeCounters : Exec Unit := do
  let entries ← scanPrefix (edgeDataSpacePrefix space)
  let edges ← ofExcept (entries.mapM fun entry => decodeQueryEdge entry.1 entry.2)
  let counts := edges.foldl (countEdge space) .empty
  let incoming ← scanPrefix (indegPrefix space)
  let outgoing ← scanPrefix (outdegPrefix space)
  let stale := ((incoming ++ outgoing).map Prod.fst).filter fun key => (counts.get key).isNone
  batchApply (counts.toList.map fun entry => (entry.1, .count entry.2)) stale []

def mergeTriple (merged : Nat) (t : Triple) : Exec Nat :=
  if t.p ≠ sameasEdge ∨ t.s = t.d then pure merged
  else do
    let a ← representativeOf space t.s
    let b ← representativeOf space t.d
    if a = b then pure merged
    else if ctx.maxTraversalNodes ≠ 0 ∧ merged ≥ ctx.maxTraversalNodes then
      .fail (.resourceExhausted
        s!"sameAs merges exceed max_traversal_nodes ({ctx.maxTraversalNodes}); no statement writes committed")
    else do
      collapseNode ctx space (min a b) (max a b)
      pure (merged + 1)

def mergeSameasTriples (triples : List Triple) : Exec Unit := do
  let merged ← triples.foldlM (mergeTriple ctx space) 0
  if merged > 0 then rebuildAssertedDegreeCounters space else pure ()

end

end ByoriDB.Executor
