import ByoriDB.Executor.SameAs

/-! A mutation hands its facts, their versions and the fence over in one batch, on the overlay. -/

namespace ByoriDB.Executor

open Data Program Store ByoriDB.Graph

structure VertexInsert where
  vid : Vid
  tags : List TagData

structure EdgeInsert where
  src : Vid
  dst : Vid
  edgeType : String
  ranking : Int
  props : Props

inductive InsertPlan where
  | vertex (space : String) (vertices : List VertexInsert)
  | edge (space : String) (edges : List EdgeInsert)

structure EdgeUpdateTarget where
  dst : Vid
  edgeName : String
  ranking : Int

/-- `vid` is the vertex, or the source of the edge when `edge` is given. -/
structure UpdatePlan where
  space : String
  vid : Vid
  tagName : Option String
  updates : Props
  conditions : Option Predicate
  edge : Option EdgeUpdateTarget

structure DeletePlan where
  space : String
  vids : List Vid
  conditions : Option Predicate

structure DeleteEdgePlan where
  space : String
  edgeName : String
  edgeRefs : List (Vid × Vid × Int)

def counted (column : String) (number : Int) : Response := ⟨[column], [[.int number]]⟩

/-- Whether a value may be stored in a column of a declared type. -/
def valueAssignable (value : Value) (typeName : Option String) : Bool :=
  match typeName with
  | none => true
  | some type =>
    match value with
    | .null => true
    | .bool _ => type == "Bool"
    | .int _ =>
      ["Int8", "Int16", "Int32", "Int64", "Float", "Double", "Timestamp", "Date", "Time", "DateTime"].contains type
    | .float _ => type == "Float" || type == "Double"
    | .string _ => ["String", "Geography", "Date", "Time", "DateTime", "Timestamp"].contains type
    | _ => true

/-- Check one property against the declared columns of a tag or an edge type. -/
def checkField (heading noun owner : String) (declared : List PropertyDef)
    (entry : String × Value) : Except ExecutionError Unit :=
  match declared.find? fun column => column.name = entry.1 with
  | none => .error (.invalidOperation s!"{heading} '{owner}' has no field '{entry.1}'")
  | some column =>
    if valueAssignable entry.2 column.typeName then .ok ()
    else
      let type := column.typeName.getD ""
      .error (.typeMismatch s!"field '{entry.1}' of {noun} '{owner}' expects type {type}")

def validateTagProps (space tagName : String) (props : Props) : Exec Unit := do
  match ← get (SchemaKey.tag space tagName) with
  | none => .fail (.tagNotFound tagName)
  | some (.tagSchema schema) =>
    ofExcept (props.toList.forM (checkField "Tag" "tag" tagName schema.properties))
  | some _ => invalid "Corrupt tag schema"

def validateEdgeProps (space edgeType : String) (props : Props) : Exec Unit :=
  if (props.get inferredMarker).isSome then invalid "__inferred__ is reserved for materialized inference"
  else do
    match ← get (SchemaKey.edge space edgeType) with
    | none => .fail (.edgeNotFound edgeType)
    | some (.edgeSchema schema) =>
      ofExcept (props.toList.forM (checkField "Edge type" "edge" edgeType schema.properties))
    | some _ => invalid "Corrupt edge schema"

/-- All properties, bare and qualified by their tag; of equal bare names the last
one counts. -/
def flattenProps (tags : List TagData) : Props :=
  tags.foldl (fun props tag => tag.properties.toList.foldl (fun props entry =>
    (props.insert (tag.name ++ "." ++ entry.1) entry.2).insert entry.1 entry.2) props) .empty

/-- The properties a condition is evaluated over; of equal bare names the first
one counts. -/
def currentProps (tags : List TagData) : Props :=
  tags.foldl (fun props tag => tag.properties.toList.foldl (fun props entry =>
    let props := props.insert (tag.name ++ "." ++ entry.1) entry.2
    if (props.get entry.1).isSome then props else props.insert entry.1 entry.2) props) .empty

def evaluateCondition (condition : Predicate) (props : Props) : Except ExecutionError Bool :=
  match condition props with
  | some result => .ok result
  | none => .error (.invalidOperation "condition cannot be evaluated")

def passes (conditions : Option Predicate) (props : Props) : Except ExecutionError Bool :=
  match conditions with
  | none => .ok true
  | some condition => evaluateCondition condition props

section

variable (ctx : Ctx) (space : String) (indexes : List IndexDef) (vidType : SpaceVidType)

def validateVertex (vertex : VertexInsert) : Exec Unit := do
  ofExcept (validateWriteVid space vidType vertex.vid)
  vertex.tags.forM fun tag => validateTagProps space tag.name tag.properties
  validateWriteShapes space (vertex.tags.map TagData.name) (flattenProps vertex.tags)

def resolveForWrite (vid : Vid) (what : String) : Exec Int := do
  match ← resolveVid ctx space vidType vid true with
  | some internal => pure internal
  | none => invalid s!"failed to create {what} mapping in space '{space}'"

def markVectorIndexDirty (space prop : String) : Exec Unit := put (vecIndexDirty space prop) .empty

/-- What the rows of the statement add up to. -/
structure VertexRows where
  batch : List (Key × Val)
  viewDeletes : List Key
  dirtyProps : List String
  originalTags : Table Int (List String)
  finalVertices : Table Int VertexData
  inserted : Int

/-- What the stored vertex, if there is one, leaves in tags, indexes and vectors. -/
structure OldView where
  tags : List String
  deletes : List Key
  dirtyProps : List String

section

variable (plan : UpdatePlan) (rows : VertexRows) (old : EdgeData) (vid : Int)

def oldView : Exec OldView := do
  match ← get (SchemaKey.vertex space vid) with
  | none => pure ⟨[], [], []⟩
  | some value =>
    let old ← ofExcept (decodeVertex vid value)
    let indexKeys ← vertexIndexKeys ctx space old
    let vectors := (embeddingProps old.tags).map Prod.fst
    pure ⟨old.tags.map TagData.name, indexKeys ++ vectors.map fun prop => vecData space prop vid, vectors⟩

/-- The old view is looked at once for each vertex. -/
def noteOldView : Exec VertexRows :=
  match rows.originalTags.get vid with
  | some _ => pure rows
  | none => do
    let old ← oldView ctx space vid
    pure { rows with
      viewDeletes := rows.viewDeletes ++ old.deletes
      dirtyProps := rows.dirtyProps ++ old.dirtyProps
      originalTags := rows.originalTags.insert vid old.tags }

def insertVertexRow (vertex : VertexInsert) : Exec VertexRows := do
  let internal ← resolveForWrite ctx space vidType vertex.vid "VID"
  let vid ← representativeOf space internal
  let rows ← noteOldView ctx space rows vid
  pure { rows with
    batch := rows.batch ++ [(SchemaKey.vertex space vid, .vertex ⟨vid, vertex.tags⟩)]
    finalVertices := rows.finalVertices.insert vid ⟨vid, vertex.tags⟩
    inserted := rows.inserted + 1 }

/-- The vectors, index entries and tag entries of the vertices as they end up. -/
def vertexViewPuts (vertices : List VertexData) : List (Key × Val) :=
  (vertices.flatMap fun vertex =>
    ((embeddingProps vertex.tags).map fun vector => (vecData space vector.1 vertex.vid, .embedding vector.2)) ++
    indexes.flatMap fun index => (vertex.tags.filter fun tag => tag.name = index.schemaName).map fun tag =>
      (tagIndexKey index.id (indexValues index tag.properties) vertex.vid, .empty)) ++
  vertices.flatMap fun vertex => vertex.tags.map fun tag => (tagvid space tag.name vertex.vid, .empty)

def removedTags (original : Table Int (List String)) (vertices : List VertexData) : List Key :=
  vertices.flatMap fun vertex =>
    (((original.get vertex.vid).getD []).filter fun name => !(vertex.tags.map TagData.name).contains name).map
      fun name => tagvid space name vertex.vid

def commitVertices : Exec Response := do
  let vertices := rows.finalVertices.toList.map Prod.snd
  let batch := rows.batch ++ vertexViewPuts space indexes vertices
  let stale := removedTags space rows.originalTags vertices ++ rows.viewDeletes
  let puts ← fenceSemanticBatch space batch
  let versions ← buildVersions rows.batch
  batchApply puts (stale.filter fun key => !(batch.map Prod.fst).contains key) versions
  let dirty := rows.dirtyProps ++ vertices.flatMap fun vertex => (embeddingProps vertex.tags).map Prod.fst
  dirty.eraseDups.forM (markVectorIndexDirty space)
  pure (counted "Inserted" rows.inserted)

def insertVertices (planSpace : String) (vertices : List VertexInsert) : Exec Response := do
  let space ← effectiveSpace ctx planSpace
  let vidType ← spaceVidType space
  let indexes ← mutationIndexes ctx space .tag
  vertices.forM (validateVertex space vidType)
  let rows ← vertices.foldlM (insertVertexRow ctx space vidType) ⟨[], [], [], .empty, .empty, 0⟩
  commitVertices space indexes rows

structure EdgeRows where
  edges : List EdgeData
  viewDeletes : List Key
  seenEdges : List Key
  degIn : Table Key Int
  degOut : Table Key Int

def addDelta (deltas : Table Key Int) (key : Key) (delta : Int) : Table Key Int :=
  deltas.insert key ((deltas.get key).getD 0 + delta)

def validateEdge (edge : EdgeInsert) : Exec Unit := do
  validateEdgeProps space edge.edgeType edge.props
  ofExcept (validateWriteVid space vidType edge.src)
  ofExcept (validateWriteVid space vidType edge.dst)

/-- The index keys of the edge that is overwritten, and whether the edge counts
as a new assertion. -/
def replacedEdge (seen : List Key) (key : Key) : Exec (List Key × Bool) :=
  if seen.contains key then pure ([], false)
  else do
    match ← get key with
    | none => pure ([], true)
    | some value =>
      let old ← ofExcept (decodeQueryEdge key value)
      let stale ← edgeIndexKeys ctx space old
      pure (stale, old.isInferred)

def insertEdgeRow (rows : EdgeRows) (edge : EdgeInsert) : Exec EdgeRows := do
  let src ← resolveForWrite ctx space vidType edge.src "source VID"
  let dst ← resolveForWrite ctx space vidType edge.dst "destination VID"
  let src ← representativeOf space src
  let dst ← representativeOf space dst
  let data : EdgeData := ⟨src, dst, edge.edgeType, edge.ranking, edge.props⟩
  let (stale, isNew) ← replacedEdge ctx space rows.seenEdges (data.key space)
  let inKey := indegCounter space edge.edgeType dst
  let outKey := outdegCounter space edge.edgeType src
  pure {
    edges := rows.edges ++ [data]
    viewDeletes := rows.viewDeletes ++ stale
    seenEdges := data.key space :: rows.seenEdges
    degIn := if isNew then addDelta rows.degIn inKey 1 else rows.degIn
    degOut := if isNew then addDelta rows.degOut outKey 1 else rows.degOut }

/-- The index entries of the edges as they end up: of equal edges the last one. -/
def edgeViewPuts (edges : List EdgeData) : List (Key × Val) :=
  let final := Table.ofList (edges.map fun edge => (edge.key space, edge))
  final.toList.flatMap fun entry =>
    (indexes.filter fun index => index.schemaName = entry.2.edgeType).map fun index =>
      (edgeIndexKey index.id (indexValues index entry.2.properties) entry.2.srcVid entry.2.ranking entry.2.dstVid, .empty)

def applyDegrees (degIn degOut : Table Key Int) : Exec Unit :=
  let deltas := degIn.toList ++ degOut.toList
  if deltas.isEmpty then pure () else addCounters deltas

def commitEdges (rows : EdgeRows) : Exec Response := do
  let batch := (rows.edges.flatMap fun edge => [(edge.key space, .edge edge), (edge.inKey space, .edge edge)]) ++
    edgeViewPuts space indexes rows.edges
  let puts ← fenceSemanticBatch space batch
  let versions ← buildVersions (rows.edges.map fun edge => (edge.key space, .edge edge))
  batchApply puts (rows.viewDeletes.filter fun key => !(batch.map Prod.fst).contains key) versions
  applyDegrees rows.degIn rows.degOut
  mergeSameasTriples ctx space (rows.edges.map fun edge => ⟨edge.srcVid, edge.edgeType, edge.dstVid⟩)
  pure (counted "Inserted" rows.edges.length)

def insertEdges (planSpace : String) (edges : List EdgeInsert) : Exec Response := do
  let space ← effectiveSpace ctx planSpace
  let vidType ← spaceVidType space
  let indexes ← mutationIndexes ctx space .edge
  edges.forM (validateEdge space vidType)
  let rows ← edges.foldlM (insertEdgeRow ctx space vidType) ⟨[], [], [], .empty, .empty⟩
  commitEdges ctx space indexes rows

def executeInsert : InsertPlan → Exec Response
  | .vertex space vertices => insertVertices ctx space vertices
  | .edge space edges => insertEdges ctx space edges

def updatedEdge (updates : Props) : EdgeData :=
  { old with properties := (old.properties.putAll updates.toList).erase inferredMarker }

def indexMoves (old new : EdgeData) : List (Key × Key) :=
  (indexes.filter fun index => index.schemaName = old.edgeType).filterMap fun index =>
    let oldValues := indexValues index old.properties
    let newValues := indexValues index new.properties
    if IndexValue.sameAll oldValues newValues then none
    else some (edgeIndexKey index.id oldValues old.srcVid old.ranking old.dstVid,
      edgeIndexKey index.id newValues old.srcVid old.ranking old.dstVid)

/-- A promoted edge counts as a new assertion. -/
def countPromoted : Exec Unit :=
  if old.isInferred then
    addCounters [(indegCounter space old.edgeType old.dstVid, 1), (outdegCounter space old.edgeType old.srcVid, 1)]
  else pure ()

def rewriteEdge (updates : Props) : Exec Response := do
  let edge := updatedEdge old updates
  let indexes ← mutationIndexes ctx space .edge
  let moves := indexMoves indexes old edge
  let puts ← fenceSemanticBatch space ([(edge.key space, .edge edge), (edge.inKey space, .edge edge)] ++
    moves.map fun move => (move.2, .empty))
  let versions ← buildVersions [(edge.key space, .edge edge)]
  batchApply puts (moves.map Prod.fst) versions
  countPromoted space old
  pure (counted "Updated" 1)

def updateStoredEdge (key : Key) : Exec Response := do
  match ← get key with
  | none => pure (counted "Updated" 0)
  | some value =>
    let old ← ofExcept (decodeQueryEdge key value)
    let pass ← ofExcept (passes plan.conditions (flattenProps [⟨old.edgeType, old.properties⟩]))
    if pass then rewriteEdge ctx space old plan.updates else pure (counted "Updated" 0)

def executeUpdateEdge (target : EdgeUpdateTarget) : Exec Response := do
  let space ← effectiveSpace ctx plan.space
  let vidType ← spaceVidType space
  ofExcept (validateWriteVid space vidType plan.vid)
  ofExcept (validateWriteVid space vidType target.dst)
  validateEdgeProps space target.edgeName plan.updates
  let src ← resolveVid ctx space vidType plan.vid false
  let dst ← resolveVid ctx space vidType target.dst false
  match src, dst with
  | some src, some dst =>
    let src ← representativeOf space src
    let dst ← representativeOf space dst
    updateStoredEdge ctx space plan (edgeData space src target.edgeName dst target.ranking)
  | _, _ => pure (counted "Updated" 0)

/-- The vertex an id stands for, without creating a mapping. -/
def currentVid (vid : Vid) : Exec (Option Int) := do
  match ← resolveVid ctx space vidType vid false with
  | none => pure none
  | some internal =>
    let rep ← representativeOf space internal
    pure (some rep)

def updateCandidate (space tagName : String) : Option Int → Exec (Bool × VertexData)
  | none => pure (false, ⟨0, [⟨tagName, .empty⟩]⟩)
  | some vid => do
    match ← get (SchemaKey.vertex space vid) with
    | none => pure (false, ⟨vid, [⟨tagName, .empty⟩]⟩)
    | some value =>
      let vertex ← ofExcept (decodeVertex vid value)
      pure (true, vertex)

/-- A condition never holds of a vertex that does not exist. -/
def updateApplies (conditions : Option Predicate) (existed : Bool) (tags : List TagData) : Except ExecutionError Bool :=
  match conditions with
  | none => .ok true
  | some condition => if existed then evaluateCondition condition (currentProps tags) else .ok false

def updatedTags (tagName : String) (updates : Props) (tags : List TagData) : List TagData :=
  let tags := if tags.any fun tag => tag.name = tagName then tags else tags ++ [⟨tagName, .empty⟩]
  tags.map fun tag =>
    if tag.name = tagName then { tag with properties := tag.properties.putAll updates.toList } else tag

def targetVid (vid : Vid) : Option Int → Exec Int
  | some existing => pure existing
  | none => resolveForWrite ctx space vidType vid "UPDATE VID"

def deleteTagIndex (index : IndexDef) (vid : Int) : Option TagData → Exec Unit
  | some tag => delete (tagIndexKey index.id (indexValues index tag.properties) vid)
  | none => pure ()

def insertTagIndex (index : IndexDef) (vid : Int) : Option TagData → Exec Unit
  | some tag => put (tagIndexKey index.id (indexValues index tag.properties) vid) .empty
  | none => pure ()

/-- Replace the index entry of the old values by that of the new ones. -/
def moveTagIndex (oldTags : List TagData) (vertex : VertexData) (index : IndexDef) : Exec Unit := do
  deleteTagIndex index vertex.vid (oldTags.filter fun tag => tag.name = index.schemaName).getLast?
  insertTagIndex index vertex.vid (vertex.tags.find? fun tag => tag.name = index.schemaName)

def storeEmbedding (space prop : String) (vid : Int) : Option (List Component) → Exec Unit
  | some components => put (vecData space prop vid) (.embedding components)
  | none => delete (vecData space prop vid)

def mirrorEmbedding (entry : String × Value) : Exec Unit := do
  storeEmbedding space entry.1 vid (packEmbedding entry.2)
  markVectorIndexDirty space entry.1

def rewriteVertex (oldTags : List TagData) (vertex : VertexData) (updates : Props) : Exec Response := do
  let key := SchemaKey.vertex space vertex.vid
  let puts ← fenceSemanticBatch space ([(key, .vertex vertex)] ++
    vertex.tags.map fun tag => (tagvid space tag.name vertex.vid, .empty))
  let versions ← buildVersions [(key, .vertex vertex)]
  batchApply puts [] versions
  let indexes ← mutationIndexes ctx space .tag
  indexes.forM (moveTagIndex oldTags vertex)
  updates.toList.forM (mirrorEmbedding space vertex.vid)
  pure (counted "Updated" 1)

def updateTag (tagName : String) : Exec Response := do
  ofExcept (validateWriteVid space vidType plan.vid)
  validateTagProps space tagName plan.updates
  let existing ← currentVid ctx space vidType plan.vid
  let (existed, candidate) ← updateCandidate space tagName existing
  let applies ← ofExcept (updateApplies plan.conditions existed candidate.tags)
  if applies then do
    let tags := updatedTags tagName plan.updates candidate.tags
    validateWriteShapes space (tags.map TagData.name) (flattenProps tags)
    let vid ← targetVid ctx space vidType plan.vid existing
    rewriteVertex ctx space candidate.tags ⟨vid, tags⟩ plan.updates
  else pure (counted "Updated" 0)

def executeUpdateVertex : Exec Response := do
  let space ← effectiveSpace ctx plan.space
  let vidType ← spaceVidType space
  match plan.tagName with
  | none => invalid "Tag name required for UPDATE"
  | some tagName => updateTag ctx space vidType plan tagName

def executeUpdate : Exec Response :=
  match plan.edge with
  | some target => executeUpdateEdge ctx plan target
  | none => executeUpdateVertex ctx plan

def resolveExisting (vids : List Int) (vid : Vid) : Exec (List Int) := do
  match ← resolveVid ctx space vidType vid false with
  | some internal => pure (vids ++ [internal])
  | none => pure vids

/-- Merges are irreversible: a vertex that takes part in one cannot be deleted. -/
def guardMerged : Exec Unit := do
  let rep ← representativeOf space vid
  if rep ≠ vid then
    invalid s!"vertex {vid} was merged into representative {rep} via owl:sameAs; deletion is unsupported (insertion-only)"
  else do
    let members ← membersOf space vid
    if members.isEmpty then pure ()
    else
      invalid s!"vertex {vid} is a sameAs representative with merged members; deletion is unsupported (insertion-only)"

end

structure VertexDeletion where
  vids : List Int
  viewDeletes : List Key
  dirtyProps : List String

def dropTagIndex (vertex : VertexData) (index : IndexDef) : Exec Unit :=
  deleteTagIndex index vertex.vid (vertex.tags.find? fun tag => tag.name = index.schemaName)

def deleteRow (conditions : Option Predicate) (indexes : List IndexDef) (deletion : VertexDeletion)
    (row : Int × Option Val) : Exec VertexDeletion :=
  match row.2 with
  | none => pure deletion
  | some value => do
    let vertex ← ofExcept (decodeVertex row.1 value)
    let pass ← ofExcept (passes conditions (currentProps vertex.tags))
    if pass then do
      let vectors := (embeddingProps vertex.tags).map Prod.fst
      indexes.forM (dropTagIndex vertex)
      pure {
        vids := deletion.vids ++ [row.1]
        viewDeletes := deletion.viewDeletes ++ (vertex.tags.map fun tag => tagvid space tag.name row.1) ++
          vectors.map fun prop => vecData space prop row.1
        dirtyProps := deletion.dirtyProps ++ vectors }
    else pure deletion

def commitDeletion (deletion : VertexDeletion) : Exec Response := do
  let keys := deletion.vids.map (SchemaKey.vertex space)
  let puts ← fenceSemanticBatch space []
  let versions ← buildTombstones keys
  batchApply puts (keys ++ deletion.viewDeletes) versions
  deletion.dirtyProps.eraseDups.forM (markVectorIndexDirty space)
  pure (counted "Deleted" deletion.vids.length)

def executeDelete (plan : DeletePlan) : Exec Response := do
  let space ← effectiveSpace ctx plan.space
  let vidType ← spaceVidType space
  let vids ← plan.vids.foldlM (resolveExisting ctx space vidType) []
  vids.forM (guardMerged space)
  let stored ← batchGet (vids.map (SchemaKey.vertex space))
  let indexes ← mutationIndexes ctx space .tag
  let deletion ← (vids.zip stored).foldlM (deleteRow space plan.conditions indexes) ⟨[], [], []⟩
  commitDeletion space deletion

structure EdgeDeletion where
  edges : List EdgeData
  indexKeys : List Key
  seenRefs : List Key
  degIn : Table Key Int
  degOut : Table Key Int

def deleteStoredEdge (deletion : EdgeDeletion) (key : Key) : Exec EdgeDeletion :=
  if deletion.seenRefs.contains key then pure deletion
  else do
    match ← get key with
    | none => pure { deletion with seenRefs := key :: deletion.seenRefs }
    | some value =>
      let edge ← ofExcept (decodeQueryEdge key value)
      if edge.isInferred then
        invalid "Cannot delete an inferred-only edge; delete its supporting assertions instead"
      else
        pure {
          edges := deletion.edges ++ [edge]
          indexKeys := deletion.indexKeys ++ indexes.map fun index =>
            edgeIndexKey index.id (indexValues index edge.properties) edge.srcVid edge.ranking edge.dstVid
          seenRefs := key :: deletion.seenRefs
          degIn := addDelta deletion.degIn (indegCounter space edge.edgeType edge.dstVid) (-1)
          degOut := addDelta deletion.degOut (outdegCounter space edge.edgeType edge.srcVid) (-1) }

def deleteEdgeRef (edgeName : String) (indexes : List IndexDef)
    (deletion : EdgeDeletion) (ref : Vid × Vid × Int) : Exec EdgeDeletion := do
  match ← resolveVid ctx space vidType ref.1 false with
  | none => pure deletion
  | some src => do
    match ← resolveVid ctx space vidType ref.2.1 false with
    | none => pure deletion
    | some dst =>
      let src ← representativeOf space src
      let dst ← representativeOf space dst
      deleteStoredEdge space indexes deletion (edgeData space src edgeName dst ref.2.2)

def commitEdgeDeletion (deletion : EdgeDeletion) : Exec Response := do
  let keys := deletion.edges.map (EdgeData.key space)
  let puts ← fenceSemanticBatch space []
  let versions ← buildTombstones keys
  batchApply puts (keys ++ deletion.edges.map (EdgeData.inKey space) ++ deletion.indexKeys) versions
  applyDegrees deletion.degIn deletion.degOut
  pure (counted "Deleted" deletion.edges.length)

def executeDeleteEdge (plan : DeleteEdgePlan) : Exec Response := do
  let space ← effectiveSpace ctx plan.space
  let vidType ← spaceVidType space
  if plan.edgeName = sameasEdge then
    invalid "deleting a sameAs edge is unsupported — owl:sameAs merges are irreversible (insertion-only)"
  else do
    let indexes ← mutationIndexes ctx space .edge
    let deletion ← plan.edgeRefs.foldlM (deleteEdgeRef ctx space vidType plan.edgeName
      (indexes.filter fun index => index.schemaName = plan.edgeName)) ⟨[], [], [], .empty, .empty⟩
    commitEdgeDeletion space deletion

end

end ByoriDB.Executor
