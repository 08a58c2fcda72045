import ByoriDB.Executor.Context

namespace ByoriDB.Executor

open Data Program Store ByoriDB.Graph

structure TraversalMetrics where
  visitedVertices : Nat := 0
  scannedEdges : Nat := 0
  decodedEdges : Nat := 0
  maxFrontierSize : Nat := 0
  capReached : Bool := false

def TraversalMetrics.recordFrontier (metrics : TraversalMetrics) (size : Nat) : TraversalMetrics :=
  if size > metrics.maxFrontierSize then { metrics with maxFrontierSize := size } else metrics

/-- Count an expanded vertex, within the limit on their number. -/
def TraversalMetrics.countVertex (metrics : TraversalMetrics) (maxNodes : Nat) (message : String) :
    Except ExecutionError TraversalMetrics :=
  if maxNodes > 0 ∧ metrics.visitedVertices ≥ maxNodes then .error (.resourceExhausted message)
  else .ok { metrics with visitedVertices := metrics.visitedVertices + 1 }

/-- How the edges of a step may be followed. -/
inductive EdgeDirection where
  | outgoing
  | incoming
  | undirected
  deriving DecidableEq, Repr

/-- The context of a query, with the limits on its work. -/
structure QueryCtx extends Ctx where
  maxScanLimit : Nat
  maxGoSteps : Nat

def edgeTypeFromKey : Key → Option String
  | .text segments => segments[3]?.map Seg.toText
  | .raw _ => none

/-- No types stand for all types. -/
def admitsType (edgeTypes : List String) (key : Key) : Bool :=
  edgeTypes.isEmpty || (edgeTypeFromKey key).any edgeTypes.contains

def noteNeighbor (edgeTypes : List String) (neighbor : EdgeData → Int)
    (found : List Int × TraversalMetrics) (entry : Key × Val) :
    Except ExecutionError (List Int × TraversalMetrics) :=
  if admitsType edgeTypes entry.1 then do
    let edge ← decodeQueryEdge entry.1 entry.2
    let metrics := { found.2 with scannedEdges := found.2.scannedEdges + 1, decodedEdges := found.2.decodedEdges + 1 }
    pure (if found.1.contains (neighbor edge) then found.1 else found.1 ++ [neighbor edge], metrics)
  else pure found

/-- The distinct ends of the edges from a vertex, and with `bidirect` also those of
the edges to it. -/
def collectNeighborVids (space : String) (vid : Int) (edgeTypes : List String) (bidirect : Bool) (metrics : TraversalMetrics) :
    Exec (List Int × TraversalMetrics) := do
  let forward ← scanPrefix (edgeDataSrcPrefix space vid)
  let found ← ofExcept (forward.foldlM (noteNeighbor edgeTypes EdgeData.dstVid) ([], metrics))
  if bidirect then do
    let reverse ← scanPrefix (inEdgeDataDstPrefix space vid)
    ofExcept (reverse.foldlM (noteNeighbor edgeTypes EdgeData.srcVid) found)
  else pure found

structure PathQuery where
  start : Int
  target : Int
  edgeTypes : List String
  maxSteps : Nat
  bidirect : Bool

def traversalSpace (ctx : Ctx) : String := ctx.space.getD "default"

def traversalExceeded : String := "FIND traversal exceeded max_traversal_nodes"

structure PathSearch where
  visited : List Int
  parent : Table Int Int
  queue : List (Int × Nat)
  metrics : TraversalMetrics

def PathSearch.visit (target current : Int) (step : Nat) : List Int → PathSearch → Bool × PathSearch
  | [], search => (false, search)
  | dst :: rest, search =>
    if search.visited.contains dst then search.visit target current step rest
    else
      let reached := { search with visited := dst :: search.visited, parent := search.parent.insert dst current }
      if dst = target then (true, reached)
      else
        let queue := search.queue ++ [(dst, step + 1)]
        PathSearch.visit target current step rest
          { reached with queue, metrics := search.metrics.recordFrontier queue.length }

/-- From a vertex back to the start.  No vertex is passed twice, so the number of
parents bounds the steps. -/
def followParents (parent : Table Int Int) (start : Int) : Nat → Int → List Int
  | 0, current => [current]
  | fuel + 1, current =>
    if current = start then [current]
    else
      match parent.get current with
      | some before => current :: followParents parent start fuel before
      | none => [current]

def reconstructPath (parent : Table Int Int) (start target : Int) : List Int :=
  (followParents parent start parent.toList.length target).reverse

/-- The loop over the queue.  The fuel bounds the number of vertices taken from it. -/
def searchPath (space : String) (maxNodes : Nat) (query : PathQuery) :
    Nat → PathSearch → Exec (Option (List Int) × TraversalMetrics)
  | fuel, search =>
    match search.queue with
    | [] => pure (none, search.metrics)
    | (current, step) :: queue =>
      match fuel with
      | 0 => .fail .outOfFuel
      | fuel + 1 =>
        if step ≥ query.maxSteps then searchPath space maxNodes query fuel { search with queue }
        else do
          let metrics ← ofExcept (search.metrics.countVertex maxNodes traversalExceeded)
          let (neighbors, metrics) ← collectNeighborVids space current query.edgeTypes query.bidirect metrics
          match PathSearch.visit query.target current step neighbors { search with queue, metrics } with
          | (true, search) => pure (some (reconstructPath search.parent query.start query.target), search.metrics)
          | (false, search) => searchPath space maxNodes query fuel search

def shortestPath (fuel : Nat) (ctx : Ctx) (query : PathQuery) : Exec (Option (List Int) × TraversalMetrics) :=
  if query.start = query.target then pure (some [query.start], {})
  else
    searchPath (traversalSpace ctx) ctx.maxTraversalNodes query fuel
      ⟨[query.start], .empty, [(query.start, 0)], TraversalMetrics.recordFrontier {} 1⟩

structure LevelSearch where
  depth : Table Int Nat
  parents : Table Int (List Int)
  nextFrontier : List Int
  found : Bool
  metrics : TraversalMetrics

/-- A neighbour is met for the first time, or again within the same level. -/
def LevelSearch.meet (target : Int) (currentDepth : Nat) (vid : Int) (search : LevelSearch) (neighbor : Int) : LevelSearch :=
  match search.depth.get neighbor with
  | none =>
    { search with
      depth := search.depth.insert neighbor (currentDepth + 1)
      parents := search.parents.insert neighbor [vid]
      nextFrontier := search.nextFrontier ++ [neighbor]
      found := search.found || neighbor == target }
  | some depth =>
    if depth = currentDepth + 1 then
      { search with parents := search.parents.insert neighbor ((search.parents.get neighbor).getD [] ++ [vid]) }
    else search

def expandVertex (space : String) (maxNodes : Nat) (query : PathQuery) (currentDepth : Nat) (search : LevelSearch) (vid : Int) :
    Exec LevelSearch := do
  let metrics ← ofExcept (search.metrics.countVertex maxNodes traversalExceeded)
  let (neighbors, metrics) ← collectNeighborVids space vid query.edgeTypes query.bidirect metrics
  pure (neighbors.foldl (LevelSearch.meet query.target currentDepth vid) { search with metrics })

def searchLevels (space : String) (maxNodes : Nat) (query : PathQuery) : Nat → Nat → List Int → LevelSearch → Exec LevelSearch
  | 0, _, _, search => pure search
  | left + 1, currentDepth, frontier, search =>
    if frontier.isEmpty || search.found then pure search
    else do
      let search := { search with nextFrontier := [], metrics := search.metrics.recordFrontier frontier.length }
      let search ← frontier.foldlM (expandVertex space maxNodes query currentDepth) search
      searchLevels space maxNodes query left (currentDepth + 1) search.nextFrontier search

/-- Complete the paths on the stack, which lead from the target back to a vertex.
The fuel bounds the number of paths taken from the stack. -/
def enumeratePaths (parents : Table Int (List Int)) (start : Int) (maxPaths : Nat) :
    Nat → List (List Int) → List (List Int) → Except ExecutionError (List (List Int))
  | _, [], paths => .ok paths
  | 0, _ :: _, _ => .error .outOfFuel
  | fuel + 1, trail :: stack, paths =>
    match trail.getLast? with
    | none => enumeratePaths parents start maxPaths fuel stack paths
    | some head =>
      if head = start then
        if maxPaths > 0 ∧ paths.length ≥ maxPaths then
          .error (.resourceExhausted "FIND ALL SHORTEST PATHS exceeded max_find_paths")
        else enumeratePaths parents start maxPaths fuel stack (paths ++ [trail.reverse])
      else
        match parents.get head with
        | none => enumeratePaths parents start maxPaths fuel stack paths
        | some before =>
          enumeratePaths parents start maxPaths fuel ((before.map fun vid => trail ++ [vid]).reverse ++ stack) paths

def allShortestPaths (fuel : Nat) (ctx : Ctx) (query : PathQuery)
    (maxPaths : Nat) : Exec (List (List Int) × TraversalMetrics) :=
  if query.start = query.target then pure ([[query.start]], {})
  else do
    let search ← searchLevels (traversalSpace ctx) ctx.maxTraversalNodes query query.maxSteps 0 [query.start]
      ⟨Table.empty.insert query.start 0, .empty, [], false, {}⟩
    if search.found then do
      let paths ← ofExcept (enumeratePaths search.parents query.start maxPaths fuel [[query.target]] [])
      pure (paths, search.metrics)
    else pure ([], search.metrics)

end ByoriDB.Executor
