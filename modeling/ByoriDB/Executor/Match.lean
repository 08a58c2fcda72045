import ByoriDB.Executor.Go
import ByoriDB.Executor.IndexDdl

namespace ByoriDB.Executor

open Data Program Store ByoriDB.Graph

inductive Literal where
  | int (number : Int)
  | float (bits : UInt64)
  | string (text : String)
  | bool (flag : Bool)
  | null
  deriving DecidableEq

/-- The expressions a pattern may compare a property with.  Only literals are
supported. -/
inductive Expression where
  | literal (value : Literal)
  | other

inductive LabelMatch where
  | all
  | any
  deriving DecidableEq, Repr

structure NodePattern where
  variableName : Option String := none
  labels : List String := []
  labelMatch : LabelMatch := .all
  props : List (String × Expression) := []

structure EdgePattern where
  variableName : Option String := none
  edgeTypes : List String := []
  direction : EdgeDirection := .outgoing
  props : List (String × Expression) := []
  range : Option (Nat × Nat) := none

structure PathPattern where
  start : NodePattern
  edges : List EdgePattern := []
  nodes : List NodePattern := []

inductive Pattern where
  | path (path : PathPattern)
  | multiple (patterns : List Pattern)

/-- A path as its start and its hops, each an edge with the node it leads to. -/
structure FlatPattern where
  start : NodePattern
  hops : List (EdgePattern × NodePattern)

/-- Edges beyond the last node lead to the start node again. -/
def PathPattern.flatten (path : PathPattern) : FlatPattern :=
  ⟨path.start, path.edges.zip (path.nodes ++ List.replicate path.edges.length path.start)⟩

def flattenPattern : Pattern → Except ExecutionError FlatPattern
  | .path path => .ok path.flatten
  | .multiple (.path path :: _) => .ok path.flatten
  | .multiple (.multiple _ :: _) => .error (.invalidOperation "Nested multi-patterns are not supported")
  | .multiple [] => .error (.invalidOperation "Empty pattern")

structure MatchBindings where
  values : Table String Value
  edges : Table String EdgeData

def MatchBindings.empty : MatchBindings := ⟨.empty, .empty⟩

def bindingKindError (name : String) : ExecutionError :=
  .invalidOperation s!"MATCH variable '{name}' cannot be both a vertex and an edge"

/-- A repeated variable has to stand for the same vertex.  Null is a binding, too. -/
def bindVertexVariable (bindings : MatchBindings) (name : String)
    (vid : Int) : Except ExecutionError (Option MatchBindings) :=
  if (bindings.edges.get name).isSome then .error (bindingKindError name)
  else
    match bindings.values.get name with
    | some (.int existing) => .ok (if existing = vid then some bindings else none)
    | some .null => .ok none
    | some _ => .error (bindingKindError name)
    | none => .ok (some { bindings with values := bindings.values.insert name (.int vid) })

section

variable (edge : EdgeData) (space : String) (vid : Int) (edgeTypes : List String)

def EdgeData.identity : Int × Int × String × Int := (edge.srcVid, edge.dstVid, edge.edgeType, edge.ranking)

def bindEdgeVariable (bindings : MatchBindings) (name : String)
    (edge : EdgeData) : Except ExecutionError (Option MatchBindings) :=
  match bindings.edges.get name with
  | some existing => .ok (if EdgeData.identity existing = EdgeData.identity edge then some bindings else none)
  | none =>
    match bindings.values.get name with
    | some .null => .ok none
    | some _ => .error (bindingKindError name)
    | none => .ok (some ⟨bindings.values.insert name (.int edge.dstVid), bindings.edges.insert name edge⟩)

def expressionAsValue : Expression → Option Value
  | .literal (.int number) => some (.int number)
  | .literal (.float bits) => some (.float bits)
  | .literal (.string text) => some (.string text)
  | .literal (.bool flag) => some (.bool flag)
  | .literal .null => some .null
  | .other => none

/-- Integers and floats are compared as numbers. -/
def valueEquals : Value → Value → Bool
  | .null, .null => true
  | .bool left, .bool right => left == right
  | .int left, .int right => left == right
  | .int left, .float right => Float.ofInt left == Float.ofBits right
  | .float left, .float right => Float.ofBits left == Float.ofBits right
  | .float left, .int right => Float.ofBits left == Float.ofInt right
  | .string left, .string right => left == right
  | _, _ => false

/-- Every property has to be found with the value of its literal. -/
def matchesProps (site : String) (found : String → Value → Bool) : List (String × Expression) → Except ExecutionError Bool
  | [] => .ok true
  | (name, expected) :: rest =>
    match expressionAsValue expected with
    | none => .error (.invalidOperation s!"Unsupported literal in {site} property '{name}'")
    | some value => if found name value then matchesProps site found rest else .ok false

/-- ASCII letters are compared without regard to their case. -/
def eqIgnoreAsciiCase (left right : String) : Bool :=
  left.toList.map Char.toLower == right.toList.map Char.toLower

def TagData.holds (tag : TagData) (name : String) (value : Value) : Bool :=
  (tag.properties.get name).any fun own => valueEquals own value

def NodePattern.admitsTags (node : NodePattern) (tags : List TagData) : Bool :=
  let carries := fun label => tags.any fun tag => eqIgnoreAsciiCase label tag.name
  node.labels.isEmpty ||
    match node.labelMatch with
    | .all => node.labels.all carries
    | .any => node.labels.any carries

def matchesNode (expectedVid : Int) (value : Val) (node : NodePattern) : Except ExecutionError Bool := do
  let vertex ← decodeVertex expectedVid value
  if node.admitsTags vertex.tags then
    matchesProps "pattern" (fun name value => vertex.tags.any fun tag => TagData.holds tag name value) node.props
  else pure false

def EdgeData.holds (name : String) (value : Value) : Bool :=
  (edge.properties.get name).any fun own => valueEquals own value

def matchesEdgeData (pattern : EdgePattern) : Except ExecutionError Bool :=
  matchesProps "edge" (EdgeData.holds edge) pattern.props

/-- Only an entry whose key names another type is passed over. -/
def excludesType (key : Key) : Bool :=
  !edgeTypes.isEmpty && (edgeTypeFromKey key).any fun edgeType => !edgeTypes.contains edgeType

def strictNeighbors (incoming : Bool) : Exec (List GraphNeighbor) := do
  let entries ← scanPrefix (if incoming then inEdgeDataDstPrefix space vid else edgeDataSrcPrefix space vid)
  ofExcept ((entries.filter fun entry => !excludesType edgeTypes entry.1).mapM fun entry => do
    let edge ← decodeQueryEdge entry.1 entry.2
    pure ⟨if incoming then edge.srcVid else edge.dstVid, edge⟩)

def distinctEdges (neighbors : List GraphNeighbor) : List GraphNeighbor :=
  neighbors.foldl (fun kept neighbor =>
    if kept.any fun other => EdgeData.identity other.edge = EdgeData.identity neighbor.edge then kept else kept ++ [neighbor]) []

def neighborsForDirection : EdgeDirection → Exec (List GraphNeighbor)
  | .outgoing => strictNeighbors space vid edgeTypes false
  | .incoming => strictNeighbors space vid edgeTypes true
  | .undirected => do
    let out ← strictNeighbors space vid edgeTypes false
    let incoming ← strictNeighbors space vid edgeTypes true
    pure (distinctEdges (out ++ incoming))

end

/-- The neighbours whose edges have the properties of the pattern. -/
def surviving (edge : EdgePattern) (neighbors : List GraphNeighbor) : Except ExecutionError (List GraphNeighbor) :=
  neighbors.filterMapM fun neighbor => do
    pure (if ← matchesEdgeData neighbor.edge edge then some neighbor else none)

structure Expansion where
  terminals : List Int
  stack : List (Int × Nat × List Int)

/-- Take in the next vertex of a path; a vertex that is not stored ends the path. -/
def Expansion.reach (min max depth : Nat) (path : List Int) (expansion : Expansion)
    (next : Int × Option Val) : Except ExecutionError Expansion :=
  match next.2 with
  | none => .ok expansion
  | some value => do
    let _ ← decodeVertex next.1 value
    let terminals :=
      if depth + 1 ≥ min ∧ next.1 ∉ expansion.terminals then expansion.terminals ++ [next.1] else expansion.terminals
    let stack := if depth + 1 < max then (next.1, depth + 1, path ++ [next.1]) :: expansion.stack else expansion.stack
    pure ⟨terminals, stack⟩

def expansionExceeded (maxNodes : Nat) : ExecutionError :=
  .resourceExhausted s!"MATCH variable-length expansion exceeded max_traversal_nodes ({maxNodes}); query result is incomplete"

/-- The loop over the stack, last in, first out.  The fuel bounds the number of
entries taken from it. -/
def expandLoop (ctx : QueryCtx) (space : String) (edge : EdgePattern) (min max : Nat) : Nat → Nat → Expansion → Exec (List Int)
  | fuel, expansions, expansion =>
    match expansion.stack with
    | [] => pure expansion.terminals
    | (vid, depth, path) :: stack =>
      match fuel with
      | 0 => .fail .outOfFuel
      | fuel + 1 =>
        if depth ≥ max then expandLoop ctx space edge min max fuel expansions { expansion with stack }
        else if ctx.maxTraversalNodes > 0 ∧ expansions + 1 > ctx.maxTraversalNodes then
          .fail (expansionExceeded ctx.maxTraversalNodes)
        else do
          let neighbors ← neighborsForDirection space vid edge.edgeTypes edge.direction
          let fitting ← ofExcept (surviving edge neighbors)
          let next := (fitting.map GraphNeighbor.dst).filter fun dst => !path.contains dst
          let values ← batchGet (next.map (SchemaKey.vertex space))
          let expansion ← ofExcept
            ((next.zip values).foldlM (Expansion.reach min max depth path) { expansion with stack })
          expandLoop ctx space edge min max fuel (expansions + 1) expansion

/-- The distinct vertices at the end of the paths of the lengths in question. -/
def expandVarLength (fuel : Nat) (ctx : QueryCtx) (space : String)
    (start : Int) (edge : EdgePattern) (range : Nat × Nat) : Exec (List Int) :=
  let (min, max) := range
  if edge.variableName.isSome then
    invalid "variable binding on a variable-length edge (e.g. [e:t*1..3]) is not supported yet"
  else if max = 0 ∨ min > max then invalid s!"invalid variable-length range *{min}..{max}"
  else if ctx.maxGoSteps > 0 ∧ max > ctx.maxGoSteps then
    invalid s!"variable-length range *{min}..{max} exceeds the maximum of {ctx.maxGoSteps} steps"
  else expandLoop ctx space edge min max fuel 0 ⟨[], [(start, 0, [start])]⟩

section

variable (ctx : QueryCtx)

/-- One entry more than allowed shows that a scan is incomplete. -/
def candidateScanLimit : Option Nat :=
  if ctx.maxScanLimit = 0 ∨ ctx.maxScanLimit ≥ 18446744073709551615 then none else some (ctx.maxScanLimit + 1)

def takeLimited (limit : Option Nat) (entries : List (Key × Val)) : List (Key × Val) :=
  match limit with
  | some limit => entries.take limit
  | none => entries

def scanPrefixLimited (scope : Prefix) (limit : Option Nat) : Exec (List (Key × Val)) := do
  let entries ← scanPrefix scope
  pure (takeLimited limit entries)

def scanExceeded (operation : String) : ExecutionError :=
  .resourceExhausted s!"MATCH {operation} exceeded max_scan_limit ({ctx.maxScanLimit}); query result is incomplete"

def checkCandidateScanSize (scanned : Nat) (operation : String) : Except ExecutionError Unit :=
  if ctx.maxScanLimit > 0 ∧ scanned > ctx.maxScanLimit then .error (scanExceeded ctx operation) else .ok ()

/-- The vertex id that follows the prefix. -/
def decodeCandidateVid (scope : List Seg) : Key → Except ExecutionError Int
  | .text segments =>
    if scope.isPrefixOf segments then
      match segments.drop scope.length with
      | [.num vid] => .ok vid
      | _ => .error (.invalidOperation "Invalid MATCH vertex key")
    else .error (.invalidOperation "Invalid MATCH vertex key")
  | .raw _ => .error (.invalidOperation "Invalid MATCH vertex key")

def tagvidScope (space label : String) : List Seg := [.word space, .word "tagvid", .word label]

section

variable (space : String) (node : NodePattern)

def vertexScope : List Seg := [.word space, .word "vertex"]

def validCandidates (vids : List Int) : Exec (List Int) := do
  let values ← batchGet (vids.map (SchemaKey.vertex space))
  ofExcept ((vids.zip values).filterMapM fun candidate =>
    match candidate.2 with
    | some value => do pure (if ← matchesNode candidate.1 value node then some candidate.1 else none)
    | none => .ok none)

/-- The number of leading fields that the pattern gives values for. -/
def coveredFields (props : List (String × Value)) (fields : List String) : Nat :=
  (fields.takeWhile fun field => (props.lookup field).isSome).length

def lookupValues (props : List (String × Value)) (fields : List String) : List IndexValue :=
  fields.filterMap fun field => (props.lookup field).map indexValue

/-- The better of two indexes by prefix: the longer prefix, then the fewer fields. -/
def preferIndex (props : List (String × Value)) (best : Option (IndexDef × Nat))
    (index : IndexDef) : Option (IndexDef × Nat) :=
  let covered := coveredFields props index.fields
  if covered = 0 then best
  else
    match best with
    | none => some (index, covered)
    | some (current, length) =>
      if covered > length ∨ (covered = length ∧ index.fields.length < current.fields.length) then some (index, covered)
      else best

/-- An index with the pattern's fields, or else the one with the longest prefix. -/
def pickIndexPlan (indexes : List IndexDef) (props : List (String × Value)) : Option (IndexDef × List IndexValue) :=
  match indexes.find? fun index => index.fields.length = props.length ∧
    index.fields.all fun field => (props.lookup field).isSome with
  | some index => some (index, lookupValues props index.fields)
  | none =>
    (indexes.foldl (preferIndex props) none).map fun (index, covered) =>
      (index, lookupValues props (index.fields.take covered))

def listTagIndexes (spaceId : Nat) : Exec (List IndexDef) := do
  let loaded ← ensureLoaded
  pure (loaded.filter fun index => index.spaceId = spaceId ∧ index.indexType = .tag)

/-- The length of the encoded value at the head of the bytes. -/
def encodedLength : Bytes → Option Nat
  | 0 :: _ => some 1
  | 1 :: _ :: _ => some 2
  | 2 :: rest => if rest.length ≥ 8 then some 9 else none
  | 3 :: rest => if rest.length ≥ 8 then some 9 else none
  | 4 :: length :: rest => if rest.length ≥ length.toNat then some (2 + length.toNat) else none
  | _ => none

/-- Do the bytes hold this number of encoded values, and nothing more? -/
def holdsValues : Nat → Bytes → Bool
  | 0, bytes => bytes.isEmpty
  | fields + 1, bytes =>
    match encodedLength bytes with
    | some length => holdsValues fields (bytes.drop length)
    | none => false

def scannedVid (index : IndexDef) (key : Key) : Except ExecutionError Int :=
  let malformed : ExecutionError := .storage s!"malformed tag-index key for index '{index.indexName}' in partition 1"
  match key with
  | .raw bytes =>
    let header := (indexKeyPrefix tagIndexKind index.id).length
    let valueEnd := bytes.length - 8
    if bytes.length < 8 ∨ valueEnd < header then .error malformed
    else if holdsValues index.fields.length ((bytes.take valueEnd).drop header) then
      .ok (asI64 (Bytes.ofBigEndian (bytes.drop valueEnd)))
    else .error malformed
  | .text _ => .error malformed

def lookupTag (index : IndexDef) (values : List IndexValue) (limit : Option Nat) : Exec (List Int) := do
  let entries ← scanPrefixLimited (.raw (indexKeyPrefix tagIndexKind index.id ++ values.flatMap IndexValue.encode)) limit
  ofExcept (entries.mapM fun entry => scannedVid index entry.1)

def NodePattern.isUnion : Bool := node.labels.length > 1 && node.labelMatch == .any

/-- The candidates by the list of a tag's vertices.  A list without a vertex that
fits is not relied on. -/
def tagvidCandidates (label : String) : Exec (Option (List Int)) := do
  let entries ← scanPrefixLimited (.text (tagvidScope space label)) (candidateScanLimit ctx)
  ofExcept (checkCandidateScanSize ctx entries.length "tag-VID scan")
  if entries.isEmpty then pure none
  else do
    let indexed ← ofExcept (entries.mapM fun entry => decodeCandidateVid (tagvidScope space label) entry.1)
    let vids ← validCandidates space node indexed
    pure (if vids.isEmpty then none else some vids)

def indexCandidates (label : String) (props : List (String × Value)) : Exec (Option (List Int)) := do
  let spaceId ← resolveSpaceId ctx.toCtx
  let indexes ← listTagIndexes spaceId
  match pickIndexPlan (indexes.filter fun index => eqIgnoreAsciiCase index.schemaName label) props with
  | none => pure none
  | some (index, values) => do
    let vids ← lookupTag index values (candidateScanLimit ctx)
    ofExcept (checkCandidateScanSize ctx vids.length "property-index partition scan")
    if vids.isEmpty then pure (some []) else some <$> validCandidates space node vids

def literalProps : List (String × Value) :=
  node.props.filterMap fun prop => (expressionAsValue prop.2).map fun value => (prop.1, value)

def findIndexedNodeCandidates : Exec (Option (List Int)) :=
  if node.isUnion then pure none
  else
    match node.labels with
    | [] => pure none
    | label :: _ =>
      if (literalProps node).isEmpty then tagvidCandidates ctx space node label
      else indexCandidates ctx space node label (literalProps node)

def scanCandidates : Exec (List Int) := do
  let entries ← scanPrefixLimited (.text (vertexScope space)) (candidateScanLimit ctx)
  ofExcept (checkCandidateScanSize ctx entries.length "full vertex scan")
  ofExcept (entries.filterMapM fun entry => do
    let vid ← decodeCandidateVid (vertexScope space) entry.1
    pure (if ← matchesNode vid entry.2 node then some vid else none))

def findNodeCandidates : Exec (List Int) := do
  match ← findIndexedNodeCandidates ctx space node with
  | some candidates => pure candidates
  | none => scanCandidates ctx space node

end

end

def bindingRowBytes : Nat := 256

def checkRowBudget (ctx : Ctx) (rows : List MatchBindings) : Except ExecutionError Unit :=
  checkResultBudget ctx (min (rows.length * bindingRowBytes) 18446744073709551615)

/-- Add a row; the size is checked from time to time. -/
def pushRow (ctx : Ctx) (rows : List MatchBindings) (row : MatchBindings) : Except ExecutionError (List MatchBindings) :=
  let rows := rows ++ [row]
  if rows.length % 65536 = 0 then (checkRowBudget ctx rows).map fun _ => rows else .ok rows

section

variable (fuel : Nat) (bindings : MatchBindings) (ctx : QueryCtx) (space : String)

section

variable (flat : FlatPattern) (node : NodePattern) (rows : List MatchBindings) (row : MatchBindings)

def bindNode (vid : Int) : Except ExecutionError (Option MatchBindings) :=
  match node.variableName with
  | some name => bindVertexVariable bindings name vid
  | none => .ok (some bindings)

def bindEdge (pattern : EdgePattern) (edge : EdgeData) : Except ExecutionError (Option MatchBindings) :=
  match pattern.variableName with
  | some name => bindEdgeVariable bindings name edge
  | none => .ok (some bindings)

/-- Bind the edge of a hop, then the node it leads to. -/
def bindHop (hop : EdgePattern × NodePattern) (neighbor : GraphNeighbor) :
    Except ExecutionError (Option MatchBindings) := do
  match ← bindEdge bindings hop.1 neighbor.edge with
  | some bound => bindNode bound hop.2 neighbor.dst
  | none => pure none

/-- The bindings that lead on to a vertex, if it is stored and fits. -/
def enterNode (vid : Int) (value : Option Val)
    (bind : Except ExecutionError (Option MatchBindings)) : Except ExecutionError (Option MatchBindings) :=
  match value with
  | none => .ok none
  | some value => do
    if ← matchesNode vid value node then bind else pure none

def matchEdges (fuel : Nat) (ctx : QueryCtx) (space : String) :
    List (EdgePattern × NodePattern) → Int → MatchBindings → List MatchBindings → Exec (List MatchBindings)
  | [], _, bindings, rows => ofExcept (pushRow ctx.toCtx rows bindings)
  | (edge, node) :: hops, current, bindings, rows =>
    match edge.range with
    | some range => do
      let terminals ← expandVarLength fuel ctx space current edge range
      let values ← batchGet (terminals.map (SchemaKey.vertex space))
      (terminals.zip values).foldlM (fun rows (dst, value) => do
        match ← ofExcept (enterNode node dst value (bindNode bindings node dst)) with
        | some next => matchEdges fuel ctx space hops dst next rows
        | none => pure rows) rows
    | none => do
      let neighbors ← neighborsForDirection space current edge.edgeTypes edge.direction
      let fitting ← ofExcept (surviving edge neighbors)
      let values ← batchGet (fitting.map fun neighbor => SchemaKey.vertex space neighbor.dst)
      (fitting.zip values).foldlM (fun rows (neighbor, value) => do
        match ← ofExcept (enterNode node neighbor.dst value (bindHop bindings (edge, node) neighbor)) with
        | some next => matchEdges fuel ctx space hops neighbor.dst next rows
        | none => pure rows) rows

/-- The key under which a start node without a variable is bound. -/
def anonymousStart : String := "__anon_0__"

/-- Bind the start of a pattern.  Without a variable it is no join variable. -/
def bindStart (vid : Int) : Except ExecutionError (Option MatchBindings) :=
  match node.variableName with
  | some name => bindVertexVariable bindings name vid
  | none => .ok (some { bindings with values := bindings.values.insert anonymousStart (.int vid) })

def startCandidates : Option Int → Exec (List Int)
  | some vid => do
    let value ← get (SchemaKey.vertex space vid)
    match value with
    | some value => do pure (if ← ofExcept (matchesNode vid value node) then [vid] else [])
    | none => pure []
  | none => findNodeCandidates ctx space node

def rowLimitReached (rowLimit : Option Nat) (rows : List MatchBindings) : Bool :=
  rowLimit.any fun limit => limit ≤ rows.length

/-- Is the start already bound to an edge, or to null? -/
def startBinding : Except ExecutionError Bool :=
  match node.variableName with
  | none => .ok true
  | some name =>
    if (bindings.edges.get name).isSome then .error (bindingKindError name)
    else
      match bindings.values.get name with
      | some .null => .ok false
      | _ => .ok true

def matchFlatPattern (bindings : MatchBindings)
    (rowLimit : Option Nat) (startVid : Option Int) : Exec (List MatchBindings) := do
  if ← ofExcept (startBinding bindings flat.start) then do
    let candidates ← startCandidates ctx space flat.start startVid
    candidates.foldlM (fun rows vid =>
      if rowLimitReached rowLimit rows then pure rows
      else do
        match ← ofExcept (bindStart bindings flat.start vid) with
        | some next => matchEdges fuel ctx space flat.hops vid next rows
        | none => pure rows) []
  else pure []

/-- The vertex that the start of the pattern is bound to already. -/
def alreadyBoundVid : Option Int :=
  flat.start.variableName.bind fun name =>
    match row.values.get name with
    | some (.int vid) => some vid
    | _ => none

/-- Rows without a match are dropped. -/
def joinPattern (pattern : Pattern) : Exec (List MatchBindings) := do
  let flat ← ofExcept (flattenPattern pattern)
  let next ← rows.foldlM (fun next row => do
    let matched ← matchFlatPattern fuel ctx space flat row none (alreadyBoundVid flat row)
    pure (next ++ matched)) []
  ofExcept (checkRowBudget ctx.toCtx next)
  pure next

def FlatPattern.variables : List String :=
  (flat.start :: flat.hops.map Prod.snd).filterMap NodePattern.variableName ++
    (flat.hops.map Prod.fst).filterMap EdgePattern.variableName

def MatchBindings.orNull (names : List String) : MatchBindings :=
  { row with values := names.foldl (fun values name =>
    if (values.get name).isSome then values else values.insert name .null) row.values }

def MatchBindings.merge (row other : MatchBindings) : MatchBindings :=
  ⟨row.values.putAll other.values.toList, row.edges.putAll other.edges.toList⟩

/-- A row without a match is kept, with nulls. -/
def extendRow : Exec (List MatchBindings) := do
  let matched ← matchFlatPattern fuel ctx space flat row none (alreadyBoundVid flat row)
  pure (if matched.isEmpty then [row.orNull flat.variables] else matched.map row.merge)

def extendOptional (pattern : Pattern) : Exec (List MatchBindings) := do
  let flat ← ofExcept (flattenPattern pattern)
  rows.foldlM (fun next row => do pure (next ++ (← extendRow fuel ctx space flat row))) []

end

/-- Each row passes through all optional patterns before the next row. -/
def optionalRows (patterns : List Pattern) (rows : List MatchBindings) : Exec (List MatchBindings) :=
  rows.foldlM (fun expanded row => do
    pure (expanded ++ (← patterns.foldlM (extendOptional fuel ctx space) [row]))) []

inductive ReturnExpr where
  | countStar
  | aggregate
  | plain
  deriving DecidableEq, Repr

structure ReturnColumn where
  name : String
  expression : ReturnExpr

/-- A `MATCH` without `WHERE`. -/
structure MatchPlan where
  pattern : Pattern
  optionalPatterns : List Pattern := []
  returnClause : Option (List ReturnColumn) := none
  grouped : Bool := false
  ordered : Bool := false
  limit : Option Nat := none
  offset : Option Nat := none

/-- The rows that are bound, before `RETURN` is evaluated, or a count. -/
inductive MatchOutcome where
  | bound (rows : List MatchBindings)
  | counted (response : Response)

def MatchPlan.window (plan : MatchPlan) : Except ExecutionError (Option Nat) :=
  match plan.offset, plan.limit with
  | some offset, some limit =>
    if offset + limit ≤ 18446744073709551615 then .ok (some (offset + limit))
    else .error (.invalidOperation "MATCH OFFSET + LIMIT exceeds the supported range")
  | none, limit => .ok limit
  | some _, none => .ok none

def MatchPlan.aggregates (plan : MatchPlan) : Bool :=
  plan.grouped || plan.returnClause.any fun columns => columns.any fun column => column.expression != .plain

def Pattern.joined : Pattern → List Pattern
  | .path _ => []
  | .multiple patterns => patterns.drop 1

/-- Only rows that no later step can drop, add or reorder are limited early. -/
def MatchPlan.rowLimit (plan : MatchPlan) (window : Option Nat) : Option Nat :=
  if plan.pattern.joined.isEmpty && !plan.ordered && !plan.aggregates && plan.optionalPatterns.isEmpty then window else none

structure TagvidCount where
  rawCount : Nat
  count : Nat
  pending : List Int

/-- Each counted vertex has to have an external id. -/
def countNode (vidType : SpaceVidType) (node : NodePattern) (count : Nat) (candidate : Int × Option Val) : Exec Nat :=
  match candidate.2 with
  | none => pure count
  | some value => do
    if ← ofExcept (matchesNode candidate.1 value node) then do
      let _ ← displayVid space vidType candidate.1
      pure (count + 1)
    else pure count

def countValidTagvidChunk (vidType : SpaceVidType) (node : NodePattern) (vids : List Int) : Exec Nat := do
  let values ← batchGet (vids.map (SchemaKey.vertex space))
  (vids.zip values).foldlM (countNode space vidType node) 0

end

section

variable (ctx : QueryCtx)

def countTagvidEntry (space label : String) (vidType : SpaceVidType) (node : NodePattern) (tally : TagvidCount)
    (entry : Key × Val) : Exec TagvidCount := do
  let rawCount := tally.rawCount + 1
  ofExcept (checkCandidateScanSize ctx rawCount "tag-vid count scan")
  let vid ← ofExcept (decodeCandidateVid (tagvidScope space label) entry.1)
  let pending := tally.pending ++ [vid]
  if pending.length = 256 then do
    let counted ← countValidTagvidChunk space vidType node pending
    pure ⟨rawCount, tally.count + counted, []⟩
  else pure ⟨rawCount, tally.count, pending⟩

def countByTagvid (space label : String) (node : NodePattern) : Exec Nat := do
  let entries ← scanPrefix (.text (tagvidScope space label))
  let vidType ← spaceVidType space
  let tally ← entries.foldlM (countTagvidEntry ctx space label vidType node) ⟨0, 0, []⟩
  if tally.pending.isEmpty then pure tally.count
  else do pure (tally.count + (← countValidTagvidChunk space vidType node tally.pending))

def countByScan (space : String) (node : NodePattern) : Exec Nat := do
  let entries ← scanPrefix (.text (vertexScope space))
  let vidType ← spaceVidType space
  let (_, count) ← entries.foldlM (fun (scanned, count) entry => do
    ofExcept (checkCandidateScanSize ctx (scanned + 1) "full vertex count scan")
    let vid ← ofExcept (decodeCandidateVid (vertexScope space) entry.1)
    pure (scanned + 1, ← countNode space vidType node count (vid, some entry.2))) (0, 0)
  pure count

def countNodeMatchesBounded (space : String) (node : NodePattern) : Exec Nat :=
  match node.props, node.isUnion, node.labels with
  | [], false, label :: _ => do
    let count ← countByTagvid ctx space label node
    if count > 0 then pure count else countByScan ctx space node
  | _, _, _ => countByScan ctx space node

/-- The column and the node of a statement that only counts the vertices of a node. -/
def MatchPlan.simpleCount (plan : MatchPlan) : Option (String × NodePattern) :=
  match plan.optionalPatterns, plan.grouped, plan.returnClause, plan.pattern with
  | [], false, some [⟨name, .countStar⟩], .path ⟨start, [], _⟩ => some (name, start)
  | _, _, _, _ => none

def executeSimpleCount (space : String) (plan : MatchPlan) (name : String) (node : NodePattern) : Exec Response := do
  let count ← countNodeMatchesBounded ctx space node
  if count > 9223372036854775807 then .fail (.resourceExhausted "MATCH count exceeds INT64 range")
  else pure ⟨[name], if plan.limit = some 0 ∨ plan.offset.getD 0 > 0 then [] else [[.int count]]⟩

end

def boundVertices (row : MatchBindings) : List Int :=
  row.values.toList.filterMap fun entry =>
    match entry.2 with
    | .int vid => some vid
    | _ => none

def validateMatchVidMappings (space : String) (vidType : SpaceVidType) (rows : List MatchBindings) : Exec Unit :=
  match vidType with
  | .int64 => pure ()
  | .fixedString _ =>
    let vids := rows.flatMap fun row =>
      boundVertices row ++ row.edges.toList.flatMap fun entry => [entry.2.srcVid, entry.2.dstVid]
    (Table.distinct vids).forM fun vid => do
      let _ ← displayVid space vidType vid
      pure ()

def executeMatchUnfenced (fuel : Nat) (ctx : QueryCtx) (plan : MatchPlan) : Exec MatchOutcome := do
  let window ← ofExcept plan.window
  let space ← ctx.requireSpace
  let vidType ← spaceVidType space
  let flat ← ofExcept (flattenPattern plan.pattern)
  match plan.simpleCount with
  | some (name, node) => do
    let response ← executeSimpleCount ctx space plan name node
    pure (.counted response)
  | none => do
    let rows ← matchFlatPattern fuel ctx space flat .empty (plan.rowLimit window) none
    ofExcept (checkRowBudget ctx.toCtx rows)
    let rows ← plan.pattern.joined.foldlM (joinPattern fuel ctx space) rows
    let rows ← optionalRows fuel ctx space plan.optionalPatterns rows
    ofExcept (checkRowBudget ctx.toCtx rows)
    validateMatchVidMappings space vidType rows
    pure (.bound rows)

end ByoriDB.Executor
