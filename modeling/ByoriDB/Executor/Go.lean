import ByoriDB.Data.Levels
import ByoriDB.Executor.Neighbors

namespace ByoriDB.Executor

open Data Program Store ByoriDB.Graph

structure GraphNeighbor where
  dst : Int
  edge : EdgeData

/-- Payloads that are no edges are passed over. -/
def decodeNeighbor (neighbor : EdgeData → Int) (entry : Key × Val) : Option GraphNeighbor :=
  match entry.2 with
  | .edge edge => some ⟨neighbor edge, edge⟩
  | _ => none

section

variable (space : String) (src : Int)

def getNeighbors (edgeTypes : List String) : Exec (List GraphNeighbor) := do
  let results ← scanPrefix (edgeDataSrcPrefix space src)
  pure ((results.filter fun entry => admitsType edgeTypes entry.1).filterMap (decodeNeighbor EdgeData.dstVid))

def getIncomingNeighbors (dst : Int) (edgeTypes : List String) : Exec (List GraphNeighbor) := do
  let results ← scanPrefix (inEdgeDataDstPrefix space dst)
  pure ((results.filter fun entry => admitsType edgeTypes entry.1).filterMap (decodeNeighbor EdgeData.srcVid))

inductive StepClause where
  | exactly (steps : Nat)
  | range (min max : Nat)

def StepClause.bounds : StepClause → Nat × Nat
  | .exactly steps => (steps, steps)
  | .range min max => (min, max)

/-- A `GO` without `WHERE` and `YIELD`. -/
structure GoPlan where
  overEdges : List String
  direction : EdgeDirection
  steps : StepClause

def GoPlan.neighbors (plan : GoPlan) (space : String) (vid : Int) : Exec (List GraphNeighbor) :=
  match plan.direction with
  | .outgoing => getNeighbors space vid plan.overEdges
  | .incoming => getIncomingNeighbors space vid plan.overEdges
  | .undirected => do
    let neighbors ← getNeighbors space vid plan.overEdges
    let incoming ← getIncomingNeighbors space vid plan.overEdges
    pure (neighbors ++ incoming)

structure GoRow where
  src : Int
  dst : Int
  lastEdge : Option EdgeData

def GraphNeighbor.identity (neighbor : GraphNeighbor) : Int × String × Int :=
  (neighbor.dst, neighbor.edge.edgeType, neighbor.edge.ranking)

structure GoSearch where
  visited : List Int
  reported : List (Int × String × Int)
  rows : List GoRow
  nextFrontier : List Int

/-- Report the edge, if it is new at one of the hops in question. -/
def GoSearch.report (minSteps hop : Nat) (search : GoSearch) (neighbor : GraphNeighbor) : GoSearch :=
  if hop ≥ minSteps ∧ neighbor.identity ∉ search.reported then
    { search with
      reported := search.reported ++ [neighbor.identity]
      rows := search.rows ++ [⟨src, neighbor.dst, some neighbor.edge⟩] }
  else search

def GoSearch.visit (search : GoSearch) (dst : Int) : GoSearch :=
  if dst ∈ search.visited then search
  else { search with visited := dst :: search.visited, nextFrontier := search.nextFrontier ++ [dst] }

def GoSearch.pass (minSteps hop : Nat) (search : GoSearch) (neighbor : GraphNeighbor) : GoSearch :=
  (search.report src minSteps hop neighbor).visit neighbor.dst

def goExpand (plan : GoPlan) (src : Int) (minSteps hop : Nat) (search : GoSearch) (vid : Int) : Exec GoSearch := do
  let neighbors ← plan.neighbors space vid
  pure (neighbors.foldl (GoSearch.pass src minSteps hop) search)

def goHops (space : String) (plan : GoPlan) (src : Int) (minSteps : Nat) : Nat → Nat → List Int → GoSearch → Exec GoSearch
  | 0, _, _, search => pure search
  | left + 1, hop, frontier, search => do
    let search ← frontier.foldlM (goExpand space plan src minSteps hop) { search with nextFrontier := [] }
    if search.nextFrontier.isEmpty then pure search
    else goHops space plan src minSteps left (hop + 1) search.nextFrontier search

def goFrom (plan : GoPlan) (src : Int) : Exec (List GoRow) := do
  let (minSteps, maxSteps) := plan.steps.bounds
  let origin := if minSteps = 0 then [⟨src, src, none⟩] else []
  let search ← goHops space plan src minSteps maxSteps 1 [src] ⟨[src], [], origin, []⟩
  pure search.rows

end

def goTraversal (ctx : QueryCtx) (space : String) (plan : GoPlan) (fromVids : List Int) : Exec (List GoRow) := do
  let fromVids ← fromVids.mapM (representativeOf space)
  let maxSteps := plan.steps.bounds.2
  if ctx.maxGoSteps > 0 ∧ maxSteps > ctx.maxGoSteps then
    invalid s!"GO step count {maxSteps} exceeds maximum allowed {ctx.maxGoSteps}"
  else do
    let parts ← fromVids.mapM (goFrom space plan)
    pure parts.flatten

end ByoriDB.Executor
