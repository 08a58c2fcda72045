import ByoriDB.Executor.Traversal
import Mathlib.Data.Rat.Defs

/-! With a bound on the hops a state is a vertex with the hops spent.  Weights are exact numbers. -/

namespace ByoriDB.Executor

open Data Program Store ByoriDB.Graph

/-- The number a float stands for, if it is finite. -/
def floatNumber (bits : UInt64) : Option ℚ :=
  let magnitude : Nat := bits.toNat % 2 ^ 63
  let exponent : Nat := magnitude / 2 ^ 52
  let fraction : Nat := magnitude % 2 ^ 52
  let size : ℚ := if exponent = 0 then mkRat fraction (2 ^ 1074) else mkRat ((2 ^ 52 + fraction) * 2 ^ exponent : Nat) (2 ^ 1075)
  if exponent = 2047 then none else some (if bits.toNat < 2 ^ 63 then size else -size)

/-- The weight of an edge, if it is finite.  Edges without a number weigh one. -/
def edgeWeight (weightProp : String) (edge : EdgeData) : Option ℚ :=
  match edge.properties.get weightProp with
  | some (.float bits) => floatNumber bits
  | some (.int number) => some number
  | _ => some 1

structure WeightedQuery where
  start : Int
  target : Int
  edgeTypes : List String
  weightProp : String
  maxSteps : Option Nat

abbrev HopState := Int × Nat

/-- An entry of the heap comes before another one by its cost, its vertex and its hops. -/
def heapBefore (left right : ℚ × HopState) : Bool :=
  left.1 < right.1 || (left.1 == right.1 &&
    (left.2.1 < right.2.1 || (left.2.1 == right.2.1 && left.2.2 ≤ right.2.2)))

/-- The heap as the list of its entries in the order in which they are popped. -/
def heapPush (entry : ℚ × HopState) : List (ℚ × HopState) → List (ℚ × HopState)
  | [] => [entry]
  | first :: rest => if heapBefore entry first then entry :: first :: rest else first :: heapPush entry rest

structure WeightedSearch where
  dist : HopState → Option ℚ
  parent : List (HopState × HopState)
  heap : List (ℚ × HopState)
  bestTarget : Option (HopState × ℚ)
  metrics : TraversalMetrics

def weightedExceeded : String := "FIND weighted traversal exceeded max_traversal_nodes"

def invalidWeight : ExecutionError :=
  .invalidOperation "Dijkstra shortest path requires finite nonnegative edge weights"

def WeightedQuery.nextHops (query : WeightedQuery) (hops : Nat) : Nat := if query.maxSteps.isSome then hops + 1 else 0

/-- A state is reached at a cost; it is pushed if that is an improvement. -/
def WeightedSearch.reach (state : HopState) (search : WeightedSearch) (next : HopState) (cost : ℚ) : WeightedSearch :=
  if (search.dist next).all (cost < ·) then
    let heap := heapPush (cost, next) search.heap
    { search with
      dist := fun other => if other = next then some cost else search.dist other
      parent := (next, state) :: search.parent
      heap := heap
      metrics := search.metrics.recordFrontier heap.length }
  else search

def relaxEdge (query : WeightedQuery) (cost : ℚ) (state : HopState)
    (search : WeightedSearch) (entry : Key × Val) : Except ExecutionError WeightedSearch :=
  if admitsType query.edgeTypes entry.1 then do
    let edge ← decodeQueryEdge entry.1 entry.2
    let metrics :=
      { search.metrics with scannedEdges := search.metrics.scannedEdges + 1, decodedEdges := search.metrics.decodedEdges + 1 }
    match edgeWeight query.weightProp edge with
    | none => .error invalidWeight
    | some weight =>
      if weight < 0 then .error invalidWeight
      else .ok ({ search with metrics }.reach state (edge.dstVid, query.nextHops state.2) (cost + weight))
  else .ok search

def WeightedSearch.meetTarget (search : WeightedSearch) (state : HopState) (cost : ℚ) : WeightedSearch :=
  if search.bestTarget.all (cost < ·.2) then { search with bestTarget := some (state, cost) } else search

/-- The loop over the heap.  The fuel bounds the number of entries popped from it. -/
def weightedLoop (space : String) (maxNodes : Nat) (query : WeightedQuery) : Nat → WeightedSearch → Exec WeightedSearch
  | fuel, search =>
    match search.heap with
    | [] => pure search
    | (cost, state) :: heap =>
      match fuel with
      | 0 => .fail .outOfFuel
      | fuel + 1 =>
        let search := { search with heap }
        if (search.dist state).any (· < cost) then weightedLoop space maxNodes query fuel search
        else if state.1 = query.target then weightedLoop space maxNodes query fuel (search.meetTarget state cost)
        else if query.maxSteps.any (state.2 ≥ ·) then weightedLoop space maxNodes query fuel search
        else do
          let metrics ← ofExcept (search.metrics.countVertex maxNodes weightedExceeded)
          let entries ← scanPrefix (edgeDataSrcPrefix space state.1)
          let search ← ofExcept (entries.foldlM (relaxEdge query cost state) { search with metrics })
          weightedLoop space maxNodes query fuel search

def traceStates (parent : List (HopState × HopState)) (initial : HopState) : Nat → HopState → Except ExecutionError (List Int)
  | fuel, state =>
    if state = initial then .ok [state.1]
    else
      match fuel with
      | 0 => .error .outOfFuel
      | fuel + 1 =>
        match parent.lookup state with
        | none => .error (.invalidOperation "Invalid shortest-path predecessor state")
        | some before => do
          let rest ← traceStates parent initial fuel before
          .ok (state.1 :: rest)

def dijkstraShortestPathWithSteps (fuel : Nat) (ctx : Ctx) (query : WeightedQuery) :
    Exec (Option (List Int × ℚ) × TraversalMetrics) :=
  if query.start = query.target then pure (some ([query.start], 0), {})
  else do
    let initial : HopState := (query.start, 0)
    let search ← weightedLoop (traversalSpace ctx) ctx.maxTraversalNodes query fuel
      ⟨fun state => if state = initial then some 0 else none, [], [(0, initial)], none, TraversalMetrics.recordFrontier {} 1⟩
    match search.bestTarget with
    | none => pure (none, search.metrics)
    | some (state, cost) => do
      let path ← ofExcept (traceStates search.parent initial search.parent.length state)
      pure (some (path.reverse, cost), search.metrics)

end ByoriDB.Executor
