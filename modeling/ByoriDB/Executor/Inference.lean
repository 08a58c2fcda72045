import ByoriDB.Executor.Context

namespace ByoriDB.Executor

open Data Program Store ByoriDB.Graph

structure Triple where
  s : Int
  p : String
  d : Int
  deriving DecidableEq, Repr

/-- The declared semantics, indexed by edge type. -/
structure RelMeta where
  transitive : List String
  symmetric : List String
  inverse : Table String (List String)
  superprops : Table String (List String)
  equivalentProps : Table String (List String)
  domain : Table String String
  range : Table String String
  chainFirst : Table String (List (String × String))
  chainSecond : Table String (List (String × String))

namespace RelMeta

def empty : RelMeta := ⟨[], [], .empty, .empty, .empty, .empty, .empty, .empty, .empty⟩

def isEmpty (rel : RelMeta) : Bool :=
  rel.transitive.isEmpty && rel.symmetric.isEmpty && rel.inverse.toList.isEmpty &&
    rel.superprops.toList.isEmpty && rel.equivalentProps.toList.isEmpty && rel.domain.toList.isEmpty &&
    rel.range.toList.isEmpty && rel.chainFirst.toList.isEmpty && rel.chainSecond.toList.isEmpty

end RelMeta

/-- The list stored under a key; a missing entry is the empty list. -/
def listed {α : Type} (table : Table String (List α)) (key : String) : List α := (table.get key).getD []

def push {α : Type} (table : Table String (List α)) (key : String) (value : α) : Table String (List α) :=
  table.insert key (listed table key ++ [value])

/-- Enter the flags of one edge type.  `INVERSE OF` and `EQUIVALENT TO` hold in
both directions, and a chain is entered under each of its links. -/
def RelMeta.register (rel : RelMeta) (name : String) (sem : SemanticFlags) : RelMeta where
  transitive := if sem.transitive then rel.transitive.insert name else rel.transitive
  symmetric := if sem.symmetric then rel.symmetric.insert name else rel.symmetric
  inverse := match sem.inverseOf with
    | some q => push (push rel.inverse name q) q name
    | none => rel.inverse
  superprops := match sem.subpropertyOf with
    | some q => push rel.superprops name q
    | none => rel.superprops
  equivalentProps := match sem.equivalentProperty with
    | some q => push (push rel.equivalentProps name q) q name
    | none => rel.equivalentProps
  domain := match sem.domain with
    | some c => rel.domain.insert name c
    | none => rel.domain
  range := match sem.range with
    | some c => rel.range.insert name c
    | none => rel.range
  chainFirst := match sem.propertyChain with
    | some [p1, p2] => push rel.chainFirst p1 (name, p2)
    | _ => rel.chainFirst
  chainSecond := match sem.propertyChain with
    | some [p1, p2] => push rel.chainSecond p2 (name, p1)
    | _ => rel.chainSecond

def jsonError : ExecutionError := .serialization "invalid JSON record"

def readEdgeSchema (space : String) (key : Key) (value : Val) : Except ExecutionError EdgeSchema :=
  match value with
  | .edgeSchema schema =>
    if schema.name = "" then .error (.invalidOperation "Invalid inference edge schema name")
    else if key ≠ SchemaKey.edge space schema.name then
      .error (.invalidOperation "Inference schema key/name mismatch")
    else
      match schema.semantics.propertyChain with
      | some chain =>
        if chain.length ≠ 2 then .error (.invalidOperation "Invalid inference property chain")
        else .ok schema
      | none => .ok schema
  | _ => .error jsonError

def loadRelMeta (space : String) : Exec RelMeta := do
  let entries ← scanPrefix (edgePrefix space)
  entries.foldlM (fun rel entry => do
    let schema ← ofExcept (readEdgeSchema space entry.1 entry.2)
    pure (rel.register schema.name schema.semantics)) RelMeta.empty

def Triple.fact (t : Triple) : Fact := .edge t.s t.p t.d

def provKey (space : String) : Fact → Key
  | .edge s p d => provEdge space s p d
  | .vtype vid className => provVtype space vid className

def readJustifications : Option Val → Except ExecutionError (List Justification)
  | none => .ok []
  | some (.justifications items) => .ok items
  | some _ => .error jsonError

def readFacts : Option Val → Except ExecutionError (List Fact)
  | none => .ok []
  | some (.facts items) => .ok items
  | some _ => .error jsonError

/-- The entry of one premise in the reverse index. -/
def reversePut (space : String) (fact : Fact) (puts : List (Key × Val)) : Fact → Exec (List (Key × Val))
  | .vtype _ _ => pure puts
  | .edge s p d => do
    let key := provRevEdge space s p d
    let deps ← ofExcept (readFacts (← get key))
    if deps.contains fact then pure puts else pure (puts ++ [(key, .facts (deps ++ [fact]))])

def provenancePuts (space : String) (fact : Fact) (justification : Justification) : Exec (List (Key × Val)) := do
  let key := provKey space fact
  let justs ← ofExcept (readJustifications (← get key))
  if justs.contains justification then pure []
  else
    let puts ← justification.premises.eraseDups.foldlM (reversePut space fact) []
    pure (puts ++ [(key, .justifications (justs ++ [justification]))])

section

variable (space : String)

def inferenceNeighbors (vid : Int) (edgeType : String) (incoming : Bool) : Exec (List Int) := do
  let scope := if incoming then inEdgeDataDstPrefix space vid else edgeDataSrcPrefix space vid
  let entries ← scanPrefix scope
  let edges ← ofExcept (entries.mapM fun entry => decodeQueryEdge entry.1 entry.2)
  pure ((edges.filter fun edge => edge.edgeType = edgeType).map fun edge =>
    if incoming then edge.srcVid else edge.dstVid)

section

variable (rel : RelMeta) (t : Triple)

def tripleExists : Exec Bool := do
  let hits ← scanPrefix (edgeDataTriplePrefix space t.s t.p t.d)
  let _ ← ofExcept (hits.mapM fun entry => decodeQueryEdge entry.1 entry.2)
  pure (!hits.isEmpty)

def chargeInference (cap written : Nat) (isNew : Bool) : Exec Nat :=
  if isNew then
    if cap ≠ 0 ∧ written ≥ cap then
      .fail (.resourceExhausted s!"Inference closure exceeds max_traversal_nodes ({cap}); assertions/history may already be committed. Inference remains dirty; increase the budget and run REPAIR INFERENCE.")
    else pure (written + 1)
  else pure written

/-- What follows from one edge alone, with the reasons. -/
def unaryDerivations : List (Triple × Justification) :=
  (if rel.symmetric.contains t.p then [(⟨t.d, t.p, t.s⟩, ⟨.symmetric, [t.fact]⟩)] else []) ++
    ((listed rel.inverse t.p).map fun q => (⟨t.d, q, t.s⟩, ⟨.inverseOf, [t.fact]⟩)) ++
    ((listed rel.superprops t.p).map fun q => (⟨t.s, q, t.d⟩, ⟨.subPropertyOf, [t.fact]⟩)) ++
    ((listed rel.equivalentProps t.p).map fun q => (⟨t.s, q, t.d⟩, ⟨.equivalentProperty, [t.fact]⟩))

def transitiveDerivations : Exec (List (Triple × Justification)) :=
  if rel.transitive.contains t.p then do
    let after ← inferenceNeighbors space t.d t.p false
    let before ← inferenceNeighbors space t.s t.p true
    pure ((after.map fun x => (⟨t.s, t.p, x⟩, ⟨.transitive, [t.fact, .edge t.d t.p x]⟩)) ++
      (before.map fun y => (⟨y, t.p, t.d⟩, ⟨.transitive, [.edge y t.p t.s, t.fact]⟩)))
  else pure []

/-- Chains that start with the edge. -/
def chainFirstDerivations : Exec (List (Triple × Justification)) := do
  let groups ← (listed rel.chainFirst t.p).mapM fun link => do
    let after ← inferenceNeighbors space t.d link.2 false
    pure (after.map fun b => (⟨t.s, link.1, b⟩, ⟨.propertyChain, [t.fact, .edge t.d link.2 b]⟩))
  pure groups.flatten

/-- Chains that end with the edge. -/
def chainSecondDerivations : Exec (List (Triple × Justification)) := do
  let groups ← (listed rel.chainSecond t.p).mapM fun link => do
    let before ← inferenceNeighbors space t.s link.2 true
    pure (before.map fun a => (⟨a, link.1, t.d⟩, ⟨.propertyChain, [.edge a link.2 t.s, t.fact]⟩))
  pure groups.flatten

/-- What follows from one edge and the edges stored now, in the order in which
the rules are tried. -/
def derivations : Exec (List (Triple × Justification)) := do
  let transitive ← transitiveDerivations space rel t
  let first ← chainFirstDerivations space rel t
  let second ← chainSecondDerivations space rel t
  pure (unaryDerivations rel t ++ transitive ++ first ++ second)

end

/-- Record that a vertex belongs to a declared domain or range. -/
def typeVertex (cap : Nat) (premise : Fact) (rule : RuleKind) (vid : Int)
    (className : Option String) (written : Nat) : Exec Nat :=
  match className with
  | none => pure written
  | some className => do
    let key := vtype space vid className
    let isNew := (← get key).isNone
    let written ← chargeInference cap written isNew
    let puts ← provenancePuts space (.vtype vid className) ⟨rule, [premise]⟩
    batchApply (if isNew then puts ++ [(key, .empty)] else puts) [] []
    pure written

end

def inferredEdge (t : Triple) : EdgeData :=
  ⟨t.s, t.d, t.p, 0, Table.empty.insert inferredMarker (.bool true)⟩

structure Chase where
  worklist : List Triple
  seen : List Triple
  written : Nat

def storeDerived (space : String) (cap : Nat) (chase : Chase) (derived : Triple × Justification) : Exec Chase := do
  let t := derived.1
  let stored ← tripleExists space t
  let written ← chargeInference cap chase.written (!stored)
  let puts ← provenancePuts space t.fact derived.2
  let edge := inferredEdge t
  let puts :=
    if stored then puts else puts ++ [(edge.key space, .edge edge), (edge.inKey space, .edge edge)]
  batchApply puts [] []
  if chase.seen.contains t then
    pure { chase with written }
  else if stored then
    pure { chase with written, seen := t :: chase.seen }
  else
    pure { worklist := chase.worklist ++ [t], written, seen := t :: chase.seen }

def processTriple (space : String) (cap : Nat) (rel : RelMeta) (chase : Chase) (t : Triple) : Exec Chase := do
  let derived ← derivations space rel t
  let written ← typeVertex space cap t.fact .domain t.s (rel.domain.get t.p) chase.written
  let written ← typeVertex space cap t.fact .range t.d (rel.range.get t.p) written
  derived.foldlM (storeDerived space cap) { chase with written }

/-- The worklist loop.  The fuel bounds the number of edges that are processed. -/
def chaseLoop (space : String) (cap : Nat) (rel : RelMeta) : Nat → Chase → Exec Unit
  | fuel, chase =>
    match chase.worklist with
    | [] => pure ()
    | t :: rest =>
      match fuel with
      | 0 => .fail .outOfFuel
      | fuel + 1 => do
        let chase ← processTriple space cap rel { chase with worklist := rest } t
        chaseLoop space cap rel fuel chase

def runMaterialization (fuel : Nat) (ctx : Ctx) (space : String) (seeds : List Triple) (rel : RelMeta) : Exec Unit :=
  let distinct := seeds.eraseDups
  chaseLoop space ctx.maxTraversalNodes rel fuel ⟨distinct, distinct, 0⟩

/-- What the forward edges contribute to a rebuild. -/
structure Survey where
  asserted : List Triple
  puts : List (Key × Val)
  deletes : List Key

def surveyEdge (space : String) (survey : Survey) (entry : Key × Val) : Except ExecutionError Survey := do
  let edge ← decodeQueryEdge entry.1 entry.2
  if edge.isInferred then
    pure { survey with deletes := survey.deletes ++ [entry.1] }
  else
    pure { survey with
      asserted := survey.asserted ++ [⟨edge.srcVid, edge.edgeType, edge.dstVid⟩]
      puts := survey.puts ++ [(edge.inKey space, entry.2)] }

def rematerializeSpace (fuel : Nat) (ctx : Ctx) (space : String) : Exec Unit := do
  let rel ← loadRelMeta space
  let entries ← scanPrefix (edgeDataSpacePrefix space)
  let survey ← ofExcept (entries.foldlM (surveyEdge space) ⟨[], [], []⟩)
  let reverse ← scanPrefix (inEdgeDataSpacePrefix space)
  let _ ← ofExcept (reverse.mapM fun entry => decodeQueryEdge entry.1 entry.2)
  let types ← scanPrefix (vtypeSpacePrefix space)
  let prov ← scanPrefix (provPrefix space)
  let provRev ← scanPrefix (provRevPrefix space)
  let deletes := survey.deletes ++ (reverse ++ types ++ prov ++ provRev).map Prod.fst
  let keep := survey.puts.map Prod.fst
  batchApply survey.puts (deletes.filter fun key => !keep.contains key) []
  runMaterialization fuel ctx space survey.asserted rel

/-- One version for each fact, open-ended, at its own transaction time. -/
def buildVersions (entities : List (Key × Val)) : Exec (List (VersionRow Key Val)) :=
  entities.mapM fun entity => do
    let tx ← txNow
    pure ⟨entity.1, tx, validOpen, tx, entity.2⟩

/-- The versions of deleted facts have no payload. -/
def buildTombstones (entityKeys : List Key) : Exec (List (VersionRow Key Val)) :=
  buildVersions (entityKeys.map fun key => (key, .empty))

def inferenceIsDirty (space : String) : Exec Bool := do
  pure (← get (inferenceDirty space)).isSome

def incompleteMessage (space : String) : String :=
  s!"Inference incomplete in space '{space}'; assertions/history may already be committed. Run CHECK INFERENCE and have an administrator run REPAIR INFERENCE before reading or mutating this space."

def ensureInferenceClean (space : String) : Exec Unit := do
  if ← inferenceIsDirty space then invalid (incompleteMessage space) else pure ()

/-- Called right before a batch of assertions is handed to the store. -/
def fenceSemanticBatch (space : String) (puts : List (Key × Val)) : Exec (List (Key × Val)) := do
  let rel ← loadRelMeta space
  pure (if rel.isEmpty then puts else puts ++ [(inferenceDirty space, .one)])

def checkInference (ctx : Ctx) : Exec Response := do
  let space ← ctx.requireSpace
  let dirty ← inferenceIsDirty space
  pure ⟨["space", "status"], [[.string space, .string (if dirty then "repair_required" else "complete")]]⟩

def repairInference (fuel : Nat) (ctx : Ctx) : Exec Response :=
  if !ctx.isAdmin then invalid "REPAIR INFERENCE requires GOD or ADMIN role"
  else do
    let space ← ctx.requireSpace
    put (inferenceDirty space) .one
    rematerializeSpace fuel ctx space
    delete (inferenceDirty space)
    checkInference ctx

end ByoriDB.Executor
