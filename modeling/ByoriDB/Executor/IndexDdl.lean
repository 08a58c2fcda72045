import ByoriDB.Executor.Statement

/-! Each statement works with a fresh index manager, which loads all persisted definitions on its first use. -/

namespace ByoriDB.Executor

open Program Store ByoriDB.Graph

section

variable (loaded : List IndexDef) (ctx : Ctx) (name : String) (ifExists : Bool)

/-- The id of the selected space; 1 when its record cannot be read. -/
def resolveSpaceId : Exec Nat :=
  match ctx.spaceId with
  | some id => pure id
  | none =>
    match ctx.space with
    | none => pure 1
    | some name => do pure (((← get (SchemaKey.space name)).bind recordedSpaceId).getD 1)

/-- The definitions that decode, in the order of their keys. -/
def ensureLoaded : Exec (List IndexDef) := do
  let entries ← scanPrefix indexDefsPrefix
  pure (entries.filterMap fun entry =>
    match entry.2 with
    | .indexDef index => some index
    | _ => none)

def maxIndexId : Nat := loaded.foldl (fun largest index => max largest index.id) 0

/-- Ids are 32 bits wide. -/
def nextIndexId : Nat :=
  if loaded = [] then 1 else max 1 ((maxIndexId loaded + 1) % 4294967296)

def getIndex (spaceId : Nat) (name : String) : Option IndexDef := do
  let named ← (loaded.filter fun index => index.spaceId = spaceId ∧ index.indexName = name).getLast?
  (loaded.filter fun index => index.spaceId = spaceId ∧ index.id = named.id).getLast?

def persistDef (index : IndexDef) : Exec Unit := put (indexDef index.spaceId index.id) (.indexDef index)

def registerIndex (indexType : IndexType) (spaceId : Nat) (name schemaName : String) (fields : List String) : Exec Nat := do
  let loaded ← ensureLoaded
  if loaded.any fun index => index.spaceId = spaceId ∧ index.indexName = name then
    invalid s!"Index already exists: {name}"
  else do
    let id := nextIndexId loaded
    persistDef ⟨id, spaceId, name, indexType, schemaName, fields⟩
    pure id

def dropIndexWithData (notFound : Exec Response) (spaceId : Nat) (name : String) : Exec Response := do
  match getIndex (← ensureLoaded) spaceId name with
  | none => notFound
  | some index => do
    let entries ← scanPrefix (indexPrefix index)
    entries.forM fun entry => delete entry.1
    delete (indexDef spaceId index.id)
    pure noRows

def lastNumber : Key → Int
  | .text segments =>
    match segments.getLast? with
    | some (.num value) => value
    | some (.word text) => text.toInt?.getD 0
    | none => 0
  | .raw _ => 0

def fieldValues (fields : List String) (props : Props) : List IndexValue :=
  fields.map fun field => indexValue ((props.get field).getD .null)

/-- The entries of a vertex: one for each of its tags of this name.  Vertices under
the id 0 are passed over. -/
def tagBackfill (indexId : Nat) (tagName : String) (fields : List String) (row : Key × Val) : List (Key × Val) :=
  let vid := lastNumber row.1
  if vid = 0 then []
  else
    match row.2 with
    | .vertex vertex =>
      (vertex.tags.filter fun tag => tag.name = tagName).map fun tag =>
        (tagIndexKey indexId (fieldValues fields tag.properties) vid, .empty)
    | _ => []

def edgeBackfill (indexId : Nat) (edgeName : String) (fields : List String) (row : Key × Val) : List (Key × Val) :=
  match row.2 with
  | .edge edge =>
    if edge.edgeType = edgeName then
      [(edgeIndexKey indexId (fieldValues fields edge.properties) edge.srcVid edge.ranking edge.dstVid, .empty)]
    else []
  | _ => []

/-- Write the entries of all rows, 4096 at a time. -/
def backfill (scope : Prefix) (entriesOf : Key × Val → List (Key × Val)) : Exec Unit := do
  let rows ← scanPrefix scope
  ((rows.flatMap entriesOf).toChunks 4096).forM batchPut

def backfillTagIndex (space : String) (indexId : Nat) (tagName : String) (fields : List String) : Exec Unit :=
  backfill (.text [.word space, .word "vertex"]) (tagBackfill indexId tagName fields)

def backfillEdgeIndex (space : String) (indexId : Nat) (edgeName : String) (fields : List String) : Exec Unit :=
  backfill (edgeDataSpacePrefix space) (edgeBackfill indexId edgeName fields)

def handleCreateTagIndex (name tagName : String) (fields : List String) : Exec Response := do
  let space ← ctx.requireSpace
  let spaceId ← resolveSpaceId ctx
  let indexId ← registerIndex .tag spaceId name tagName fields
  backfillTagIndex space indexId tagName fields
  pure noRows

def handleCreateEdgeIndex (name edgeName : String) (fields : List String) : Exec Response := do
  let space ← ctx.requireSpace
  let spaceId ← resolveSpaceId ctx
  let indexId ← registerIndex .edge spaceId name edgeName fields
  backfillEdgeIndex space indexId edgeName fields
  pure noRows

/-- Either statement drops an index of either kind; only the messages differ. -/
def handleDropIndex (label : String) (ctx : Ctx) (name : String) (ifExists : Bool) : Exec Response := do
  let _ ← ctx.requireSpace
  let spaceId ← resolveSpaceId ctx
  dropIndexWithData (if ifExists then pure noRows else invalid s!"{label} index {name} not found") spaceId name

def handleDropTagIndex : Exec Response := handleDropIndex "Tag" ctx name ifExists

def handleDropEdgeIndex : Exec Response := handleDropIndex "Edge" ctx name ifExists

inductive IndexStatement where
  | createTagIndex (name tagName : String) (fields : List String)
  | createEdgeIndex (name edgeName : String) (fields : List String)
  | dropTagIndex (name : String) (ifExists : Bool)
  | dropEdgeIndex (name : String) (ifExists : Bool)

def IndexStatement.plan : IndexStatement → Plan
  | .createTagIndex name tagName fields => .schemaChange .createTagIndex (handleCreateTagIndex ctx name tagName fields)
  | .createEdgeIndex name edgeName fields => .schemaChange .createEdgeIndex (handleCreateEdgeIndex ctx name edgeName fields)
  | .dropTagIndex name ifExists => .schemaChange .dropTagIndex (handleDropTagIndex ctx name ifExists)
  | .dropEdgeIndex name ifExists => .schemaChange .dropEdgeIndex (handleDropEdgeIndex ctx name ifExists)

end

/-- A statement of a session, with the space that the session has selected. -/
structure IndexRequest where
  ctx : Ctx
  statement : IndexStatement

def IndexRequest.program (layout : Layout Key Val) (fuel : Nat) (request : IndexRequest) : Exec Response :=
  execute layout fuel request.ctx (request.statement.plan request.ctx)

end ByoriDB.Executor
