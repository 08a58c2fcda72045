import ByoriDB.Executor.Ontology

namespace ByoriDB.Executor

open Data Program Store ByoriDB.Graph

/-- A reference without a rank means every rank of the pair. -/
structure FetchEdgeRef where
  src : Vid
  dst : Vid
  ranking : Option Int

/-- `tags` are the requested tags, or the edge type of an edge fetch. -/
structure FetchPlan where
  space : String
  vids : List Vid
  tags : List String
  edgeRefs : List FetchEdgeRef
  isEdgeFetch : Bool
  srcVar : Option String
  asOf : Option Int

def estimateValueBytes : Value → Nat
  | .string text => 24 + text.utf8ByteSize
  | .list _ | .map _ | .other .set _ => 512
  | _ => 16

def estimateRowBytes (row : List Value) : Nat := 24 + (row.map estimateValueBytes).sum

section

variable (ctx : Ctx) (space : String) (plan : FetchPlan) (vidType : SpaceVidType)

def checkResultBudget (bytes : Nat) : Except ExecutionError Unit :=
  if ctx.memoryCap > 0 ∧ bytes > ctx.memoryCap then
    .error (.resourceExhausted s!"query exceeded the {ctx.maxMemoryMb} MB result-memory cap (max_memory_mb) while materializing rows — add a LIMIT or narrow the query")
  else .ok ()

structure FetchRows where
  rows : List (List Value)
  bytes : Nat

/-- Add a row; the size is checked from time to time. -/
def FetchRows.add (fetched : FetchRows) (row : List Value) : Except ExecutionError FetchRows :=
  let fetched : FetchRows := ⟨fetched.rows ++ [row], fetched.bytes + estimateRowBytes row⟩
  if fetched.rows.length % 16384 = 0 then (checkResultBudget ctx fetched.bytes).map fun _ => fetched
  else .ok fetched

/-- The name of a variable and of the column that is referred to. -/
def splitVarRef (varRef : String) : String × Option String :=
  match varRef.splitOn "." with
  | name :: column :: columns => (name, some (".".intercalate (column :: columns)))
  | _ => (varRef, none)

def vidOfValue : Value → Option Vid
  | .int number => some (.int number)
  | .string text => some (.string text)
  | _ => none

def boundVids (bound : Response) (column : Option String) : List Vid :=
  let index := (column.bind fun name => bound.columns.findIdx? fun own => own = name).getD 0
  bound.rows.filterMap fun row => row[index]?.bind vidOfValue

def fetchedVids : Except ExecutionError (List Vid) :=
  match plan.srcVar with
  | none => .ok plan.vids
  | some varRef =>
    let (name, column) := splitVarRef varRef
    match ctx.vars name with
    | some bound => .ok (boundVids bound column)
    | none => .error (.invalidOperation s!"Variable '{name}' is not defined")

def resolveFetched (vids : List Int) (vid : Vid) : Exec (List Int) := do
  match ← resolveVid ctx space vidType vid false with
  | some internal => pure (vids ++ [internal])
  | none => pure vids

def fetchTargets (plan : FetchPlan) : Exec (List Int) := do
  let vids ← ofExcept (fetchedVids ctx plan)
  let resolved ← vids.foldlM (resolveFetched ctx space vidType) []
  resolved.mapM (representativeOf space)

/-- A version without a payload means that the entity did not exist. -/
def payloadAsOf (key : Key) (ts : Int) : Exec (Option Val) := do
  let version ← getAsOf key ts ts
  pure (version.filter fun value => !value.isEmpty)

def fetchPayloads (asOf : Option Int) (keys : List Key) : Exec (List (Option Val)) :=
  match asOf with
  | some ts => keys.mapM fun key => payloadAsOf key ts
  | none => batchGet keys

/-- Without requested tags every tag is of interest. -/
def wantsTag (tag : TagData) : Bool :=
  plan.tags.isEmpty || plan.tags.contains tag.name

def tagJson (tag : TagData) : Value :=
  .map [("name", .string tag.name), ("props", .map tag.properties.toList)]

def vertexRow (shown : Value) (vertex : VertexData) : List Value :=
  shown :: (vertex.tags.filter (wantsTag plan)).map fun tag => .string (ctx.json (tagJson tag))

def fetchVertex (plan : FetchPlan) (fetched : FetchRows)
    (target : Int × Option Val) : Exec FetchRows :=
  match target.2 with
  | some (.vertex vertex) =>
    if plan.tags.isEmpty || vertex.tags.any (wantsTag plan) then do
      let shown ← displayVid space vidType target.1
      ofExcept (fetched.add ctx (vertexRow ctx plan shown vertex))
    else pure fetched
  | _ => pure fetched

def fetchVertices (space : String) : Exec Response := do
  let vidType ← spaceVidType space
  let targets ← fetchTargets ctx space vidType plan
  let payloads ← fetchPayloads plan.asOf (targets.map (SchemaKey.vertex space))
  let fetched ← (targets.zip payloads).foldlM (fetchVertex ctx space vidType plan) ⟨[], 0⟩
  ofExcept (checkResultBudget ctx fetched.bytes)
  pure ⟨"VertexID" :: plan.tags, fetched.rows⟩

def fetchScope (src : Int) (edgeType : String) : Prefix :=
  if edgeType = "*" then edgeDataSrcPrefix space src
  else .text [.word space, .word "edge", .num src, .word edgeType]

def fetchEdgePayloads (asOf : Option Int) (scope : Prefix) : Exec (List Val) :=
  match asOf with
  | some ts => do
    let keys ← scanHistoryEntityKeys scope
    let payloads ← keys.mapM fun key => payloadAsOf key ts
    pure payloads.reduceOption
  | none => do
    let entries ← scanPrefix scope
    pure (entries.map Prod.snd)

def edgeJson (src dst : Value) (edge : EdgeData) : Value :=
  .map [("src", src), ("dst", dst), ("edge_type", .string edge.edgeType), ("ranking", .int edge.ranking),
    ("props", .map edge.properties.toList)]

def fetchEdge (dst : Int) (ranking : Option Int)
    (fetched : FetchRows) (payload : Val) : Exec FetchRows :=
  match payload with
  | .edge edge =>
    if edge.dstVid = dst ∧ ranking.all (fun rank => edge.ranking = rank) = true then do
      let srcValue ← displayVid space vidType edge.srcVid
      let dstValue ← displayVid space vidType edge.dstVid
      ofExcept (fetched.add ctx [srcValue, dstValue, .string (ctx.json (edgeJson srcValue dstValue edge))])
    else pure fetched
  | _ => pure fetched

def fetchEdgeRef (plan : FetchPlan) (fetched : FetchRows)
    (ref : FetchEdgeRef) : Exec FetchRows := do
  match ← resolveVid ctx space vidType ref.src false with
  | none => pure fetched
  | some src => do
    match ← resolveVid ctx space vidType ref.dst false with
    | none => pure fetched
    | some dst =>
      let payloads ← fetchEdgePayloads plan.asOf (fetchScope space src (plan.tags.head?.getD "*"))
      payloads.foldlM (fetchEdge ctx space vidType dst ref.ranking) fetched

def fetchEdges (space : String) : Exec Response := do
  let vidType ← spaceVidType space
  let fetched ← plan.edgeRefs.foldlM (fetchEdgeRef ctx space vidType plan) ⟨[], 0⟩
  ofExcept (checkResultBudget ctx fetched.bytes)
  pure ⟨["src", "dst", "properties"], fetched.rows⟩

def executeFetch : Exec Response := do
  let space ← effectiveSpace ctx plan.space
  if plan.isEdgeFetch then fetchEdges ctx plan space else fetchVertices ctx plan space

end

end ByoriDB.Executor
