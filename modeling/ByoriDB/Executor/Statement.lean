import ByoriDB.Executor.Ddl
import ByoriDB.Executor.Fetch
import ByoriDB.Store.Overlay

namespace ByoriDB.Executor

open Program Store ByoriDB.Graph

/-- The reads of the graph whose handlers are not modelled. -/
inductive Query where
  | match_
  | go
  | lookup
  | find
  | recommend
  | checkConsistency
  | checkShape
  | explainInference
  | showStats
  deriving DecidableEq, Repr

/-- The schema statements whose handlers are not modelled. -/
inductive SchemaChange where
  | createTag
  | createTagIndex
  | createEdgeIndex
  | createClass
  | createShape
  | alterTag
  | dropTag
  | dropTagIndex
  | dropEdgeIndex
  | dropClass
  | dropShape
  deriving DecidableEq, Repr

inductive Mutation where
  | insert (plan : InsertPlan)
  | update (plan : UpdatePlan)
  | delete (plan : DeletePlan)
  | deleteEdge (plan : DeleteEdgePlan)

/-- The statements that touch a space.  A statement without a modelled handler
comes with what its handler does. -/
inductive Plan where
  | mutate (mutation : Mutation)
  | fetch (plan : FetchPlan)
  | createSpace (name : String) (ifNotExists : Bool) (vidType : VidTypeText)
  | dropSpace (name : String) (ifExists : Bool)
  | createEdge (plan : CreateEdgePlan)
  | alterEdge (name : String) (operations : List AlterColumnOp)
  | dropEdge (name : String) (ifExists : Bool)
  | checkInference
  | repairInference
  | query (kind : Query) (answer : Exec Response)
  | schemaChange (kind : SchemaChange) (change : Exec Response)

def Mutation.space : Mutation → String
  | .insert (.vertex space _) | .insert (.edge space _) => space
  | .update plan => plan.space
  | .delete plan => plan.space
  | .deleteEdge plan => plan.space

/-- The space that the plan names, and whether the statement mutates it. -/
def Plan.access : Plan → Option String × Bool
  | .mutate mutation => (some mutation.space, true)
  | .fetch plan => (some plan.space, false)
  | .createSpace name _ _ | .dropSpace name _ => (some name, true)
  | .createEdge _ | .alterEdge _ _ | .dropEdge _ _ | .repairInference | .schemaChange _ _ => (none, true)
  | .checkInference | .query _ _ => (none, false)

section

variable (layout : Layout Key Val) (fuel : Nat) (ctx : Ctx) (space : String)

def inferenceScope (plan : Plan) : Option (String × Bool) :=
  ((plan.access.1.filter fun space => space ≠ "").or ctx.space).map fun space => (space, plan.access.2)

def Mutation.perform : Mutation → Exec Response
  | .insert plan => executeInsert ctx plan
  | .update plan => executeUpdate ctx plan
  | .delete plan => executeDelete ctx plan
  | .deleteEdge plan => executeDeleteEdge ctx plan

/-- The context of the staged execution.  A cached space id is kept only when the
statement runs on the selected space. -/
def Ctx.derive : Ctx :=
  { ctx with space := some space, spaceId := if ctx.space = some space then ctx.spaceId else none }

def stagingError (reason : StagingError) : ExecutionError := .storage reason.message

def executeDmlAtomically (mutation : Mutation) : Exec Response :=
  match inferenceScope ctx (.mutate mutation) with
  | none => invalid "No space selected"
  | some (space, _) =>
    MutationStore.atomically layout ctx.memoryCap stagingError (mutation.perform (ctx.derive space))

def dispatch : Plan → Exec Response
  | .mutate mutation => executeDmlAtomically layout ctx mutation
  | .fetch plan => executeFetch ctx plan
  | .createSpace name ifNotExists vidType => createSpace name ifNotExists vidType
  | .dropSpace name ifExists => dropSpace name ifExists
  | .createEdge plan => createEdge ctx plan
  | .alterEdge name operations => alterEdge ctx name operations
  | .dropEdge name ifExists => dropEdge ctx name ifExists
  | .checkInference => checkInference ctx
  | .repairInference => repairInference fuel ctx
  | .query _ answer => answer
  | .schemaChange _ change => change

/-- The statements that a marked space still answers. -/
def Plan.isRecovery : Plan → Bool
  | .checkInference | .repairInference => true
  | _ => false

def gate (plan : Plan) : Exec Unit :=
  if plan.isRecovery then pure () else ensureInferenceClean space

/-- Rebuild what a mutation has left incomplete. -/
def settle : Exec Unit := do
  if ← inferenceIsDirty space then do
    rematerializeSpace fuel ctx space
    delete (inferenceDirty space)
  else pure ()

def execute (plan : Plan) : Exec Response :=
  match inferenceScope ctx plan with
  | none => dispatch layout fuel ctx plan
  | some (space, mutation) => do
    gate space plan
    let response ← dispatch layout fuel ctx plan
    if mutation then settle fuel ctx space else pure ()
    pure response

end

end ByoriDB.Executor
