import ByoriDB.Executor.Dml

/-! A change of the edge types carries the inference marker; a space is dropped by prefix. -/

namespace ByoriDB.Executor

open Data Program Store ByoriDB.Graph
open SchemaKey (edge)

def noRows : Response := ⟨[], []⟩

structure CreateEdgePlan where
  name : String
  ifNotExists : Bool
  props : List PropertyDef
  semantics : SemanticFlags

/-- An edge type that a clause refers to has to exist and to be another one. -/
def checkEdgeTarget (space name : String) (reference : String × Option String) : Exec Unit :=
  match reference.2 with
  | none => pure ()
  | some target =>
    if target = name then invalid s!"Edge {name} cannot be {reference.1} itself"
    else do
      match ← get (edge space target) with
      | none => invalid s!"{reference.1} target edge type '{target}' does not exist"
      | some _ => pure ()

def checkChainLink (space target : String) : Exec Unit := do
  match ← get (edge space target) with
  | none => invalid s!"CHAIN target edge type '{target}' does not exist"
  | some _ => pure ()

def checkChain (space : String) : Option (List String) → Exec Unit
  | none => pure ()
  | some chain =>
    if chain.length ≠ 2 then
      invalid s!"CHAIN must have exactly 2 edge types (got {chain.length}); longer chains are not yet supported"
    else chain.forM (checkChainLink space)

def checkClassTarget (space : String) (reference : String × Option String) : Exec Unit :=
  match reference.2 with
  | none => pure ()
  | some target => do
    let isClass := (← get (class_ space target)).isSome
    let isTag := (← get (SchemaKey.tag space target)).isSome
    if !isClass && !isTag then invalid s!"{reference.1} target class '{target}' does not exist" else pure ()

/-- Everything the declared semantics refer to exists. -/
def checkSemantics (space name : String) (semantics : SemanticFlags) : Exec Unit := do
  [("INVERSE OF", semantics.inverseOf), ("SUBPROPERTY OF", semantics.subpropertyOf),
    ("EQUIVALENT TO", semantics.equivalentProperty)].forM (checkEdgeTarget space name)
  checkChain space semantics.propertyChain
  [("DOMAIN", semantics.domain), ("RANGE", semantics.range)].forM (checkClassTarget space)

section

variable (ctx : Ctx) (name : String)

def createEdge (plan : CreateEdgePlan) : Exec Response := do
  let space ← ctx.requireSpace
  match ← get (edge space plan.name) with
  | some _ => if plan.ifNotExists then pure noRows else invalid s!"Edge {plan.name} already exists"
  | none => do
    checkSemantics space plan.name plan.semantics
    batchApply [(edge space plan.name, .edgeSchema ⟨plan.name, plan.props, plan.semantics, none⟩),
      (inferenceDirty space, .one)] [] []
    pure noRows

inductive AlterOpType where
  | addColumn
  | dropColumn
  | changeColumn

/-- `hasDefault` tells whether the column declares a default value. -/
structure AlterColumnOp where
  opType : AlterOpType
  prop : PropertyDef
  hasDefault : Bool

def missingColumn (kind owner column : String) : ExecutionError :=
  .invalidOperation s!"Column '{column}' does not exist in {kind} '{owner}'"

def applyAlterOperation (kind owner : String) (columns : List PropertyDef) (op : AlterColumnOp) :
    Except ExecutionError (List PropertyDef) :=
  let listed := columns.any fun column => column.name = op.prop.name
  match op.opType with
  | .addColumn =>
    if !op.prop.nullable && !op.hasDefault then
      .error (.invalidOperation
        s!"Column '{op.prop.name}' must be nullable or have a default value for ADD COLUMN")
    else if listed then
      .error (.invalidOperation s!"Column '{op.prop.name}' already exists in {kind} '{owner}'")
    else .ok (columns ++ [op.prop])
  | .dropColumn =>
    if listed then .ok (columns.filter fun column => column.name ≠ op.prop.name)
    else .error (missingColumn kind owner op.prop.name)
  | .changeColumn =>
    if listed then
      .ok (columns.replaceF fun column => if column.name = op.prop.name then some op.prop else none)
    else .error (missingColumn kind owner op.prop.name)

def nextVersion : Option Int → Int
  | some version => version + 1
  | none => 2

def alterEdge (operations : List AlterColumnOp) : Exec Response := do
  let space ← ctx.requireSpace
  match ← get (edge space name) with
  | none => .fail (.edgeNotFound name)
  | some (.edgeSchema schema) =>
    let columns ← ofExcept (operations.foldlM (applyAlterOperation "edge" name) schema.properties)
    let altered : EdgeSchema := { schema with properties := columns, version := some (nextVersion schema.version) }
    let puts ← fenceSemanticBatch space [(edge space name, .edgeSchema altered)]
    batchApply puts [] []
    pure ⟨["Altered"], [[.string s!"Edge {name} altered successfully"]]⟩
  | some _ => .fail jsonError

def dropEdge (ifExists : Bool) : Exec Response :=
  if name = sameasEdge then
    invalid "the reserved sameAs edge type cannot be dropped — owl:sameAs merges are irreversible (insertion-only)"
  else do
    let space ← ctx.requireSpace
    match ← get (edge space name) with
    | none => if ifExists then pure noRows else .fail (.edgeNotFound name)
    | some _ => do
      batchApply [(inferenceDirty space, .one)] [edge space name] []
      pure noRows

/-- The counter of space ids is kept as text. -/
def storedSpaceId : Option Val → Nat
  | some (.text digits) => (digits.toNat?.filter (· < 4294967296)).getD 1
  | _ => 1

def allocateSpaceId : Exec Nat := do
  let id := storedSpaceId (← get nextSpaceId)
  put nextSpaceId (.text (toString ((id + 1) % 4294967296)))
  pure id

def createSpace (ifNotExists : Bool) (vidType : VidTypeText) : Exec Response := do
  match ← get (SchemaKey.space name) with
  | some _ => if ifNotExists then pure noRows else invalid s!"Space {name} already exists"
  | none => do
    let id ← allocateSpaceId
    put (SchemaKey.space name) (.space ⟨id, name, vidType⟩)
    pure noRows

/-- Delete the keys under a prefix, a bounded number of them at a time. -/
def deleteByPrefix (scope : Prefix) : Exec Unit := do
  let entries ← scanPrefix scope
  ((entries.map Prod.fst).toChunks 10000).forM batchDelete

/-- The index definitions of a space; records that do not decode are skipped. -/
def listIndexes (spaceId : Nat) : Exec (List IndexDef) := do
  let entries ← scanPrefix indexDefsPrefix
  pure (entries.filterMap fun entry =>
    match entry.2 with
    | .indexDef index => if index.spaceId = spaceId then some index else none
    | _ => none)

def indexPrefix (index : IndexDef) : Prefix :=
  .raw (indexKeyPrefix (match index.indexType with
    | .tag => tagIndexKind
    | .edge => edgeIndexKind) index.id)

def purgeIndex (spaceId : Nat) (index : IndexDef) : Exec Unit := do
  deleteByPrefix (indexPrefix index)
  delete (indexDef spaceId index.id)

def purgeIndexes : Option Nat → Exec Unit
  | none => pure ()
  | some spaceId => do
    let indexes ← listIndexes spaceId
    indexes.forM (purgeIndex spaceId)

def recordedSpaceId : Val → Option Nat
  | .space record => some (record.id % 4294967296)
  | _ => none

def dropSpace (ifExists : Bool) : Exec Response := do
  match ← get (SchemaKey.space name) with
  | none => if ifExists then pure noRows else .fail (.spaceNotFound name)
  | some stored => do
    purgeIndexes (recordedSpaceId stored)
    deleteByPrefix (dataPrefix name)
    deleteByPrefix (schemaPrefix name)
    delete (SchemaKey.space name)
    pure noRows

end

end ByoriDB.Executor
