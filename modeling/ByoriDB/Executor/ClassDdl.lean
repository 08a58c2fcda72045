import ByoriDB.Executor.Statement

namespace ByoriDB.Executor

open Data Program Store ByoriDB.Graph
open SchemaKey (tag)

section

variable (ctx : Ctx) (name : String)

def handleCreateTag (ifNotExists : Bool) (props : List PropertyDef) : Exec Response := do
  let space ← ctx.requireSpace
  match ← get (tag space name) with
  | some _ => if ifNotExists then pure noRows else invalid s!"Tag {name} already exists"
  | none => do
    put (tag space name) (.tagSchema ⟨name, props, none⟩)
    pure noRows

def dropTag (ifExists : Bool) : Exec Response := do
  let space ← ctx.requireSpace
  match ← get (tag space name) with
  | none => if ifExists then pure noRows else .fail (.tagNotFound name)
  | some _ => do
    match ← get (class_ space name) with
    | some _ => invalid s!"{name} is a class; use DROP CLASS"
    | none => do
      delete (tag space name)
      pure noRows

structure CreateClassPlan where
  name : String
  ifNotExists : Bool := false
  props : List PropertyDef := []
  superclasses : List String := []
  disjoint : List String := []
  equivalentClasses : List String := []

def loadClass (space name : String) : Exec (Option ClassDef) := do
  match ← get (class_ space name) with
  | none => pure none
  | some (.classDef definition) => pure (some definition)
  | some _ => invalid s!"Corrupt class metadata for {name}"

def readClass (entry : Key × Val) : Except ExecutionError ClassDef :=
  match entry.2 with
  | .classDef definition => .ok definition
  | _ => .error (.invalidOperation s!"Corrupt class metadata at {entry.1.toText}")

def listClasses (space : String) : Exec (List ClassDef) := do
  let entries ← scanPrefix (classPrefix space)
  ofExcept (entries.mapM readClass)

/-- A superclass is another class, and its own superclasses are within the depth limit. -/
def checkSuperclass (space name parent : String) : Exec Unit :=
  if parent = name then invalid s!"Class {name} cannot be a subclass of itself"
  else do
    match ← get (class_ space parent) with
    | none => invalid s!"Superclass {parent} does not exist as a class"
    | some _ => do
      let ancestors ← classAncestorsOf space parent
      if ancestors.contains name then invalid s!"SUBCLASS OF {parent} would create a cycle through {name}" else pure ()

/-- A class that a clause refers to has to exist and to be another one. -/
def checkRelatedClass (space name clause target : String) : Exec Unit :=
  if target = name then invalid s!"Class {name} cannot be {clause} itself"
  else do
    match ← get (class_ space target) with
    | none => invalid s!"{clause} {target} does not exist as a class"
    | some _ => pure ()

/-- The record of an equivalent class, with the new class registered on it. -/
def registerEquivalent (space name target : String) : Exec (List (Key × Val)) := do
  match ← loadClass space target with
  | none => pure []
  | some definition =>
    if definition.equivalentClasses.contains name then pure []
    else
      pure [(class_ space target,
        .classDef { definition with equivalentClasses := definition.equivalentClasses ++ [name] })]

def CreateClassPlan.definition (plan : CreateClassPlan) : ClassDef :=
  ⟨plan.name, plan.superclasses.eraseDups, plan.disjoint.eraseDups, plan.equivalentClasses.eraseDups⟩

def handleCreateClass (plan : CreateClassPlan) : Exec Response := do
  let space ← ctx.requireSpace
  match ← get (class_ space plan.name) with
  | some _ => if plan.ifNotExists then pure noRows else invalid s!"Class {plan.name} already exists"
  | none => do
    match ← get (tag space plan.name) with
    | some _ => invalid s!"Tag {plan.name} already exists; classes and tags share one namespace"
    | none => do
      plan.superclasses.eraseDups.forM (checkSuperclass space plan.name)
      plan.disjoint.forM (checkRelatedClass space plan.name "DISJOINT WITH")
      plan.equivalentClasses.forM (checkRelatedClass space plan.name "EQUIVALENT TO")
      let registered ← plan.equivalentClasses.eraseDups.mapM (registerEquivalent space plan.name)
      batchPut ((tag space plan.name, .tagSchema ⟨plan.name, plan.props, none⟩) ::
        (class_ space plan.name, .classDef plan.definition) :: registered.flatten)
      pure noRows

def classReferences (classes : List ClassDef) : List String :=
  (classes.filter fun other => other.name ≠ name ∧ (other.disjoint.contains name ∨ other.equivalentClasses.contains name)).map
    fun other => s!"class {other.name}"

def edgeReference (space name : String) (entry : Key × Val) : Except ExecutionError (List String) :=
  match entry.2 with
  | .edgeSchema schema =>
    if entry.1 ≠ SchemaKey.edge space schema.name then
      .error (.invalidOperation "Edge schema key/name mismatch while checking class references")
    else if schema.semantics.domain = some name ∨ schema.semantics.range = some name then .ok [s!"edge {schema.name}"]
    else .ok []
  | _ => .error jsonError

def shapeReference (space name : String) (entry : Key × Val) : Except ExecutionError (List String) :=
  match entry.2 with
  | .shapeDef shape =>
    if entry.1 ≠ SchemaKey.shape space shape.name then
      .error (.invalidOperation "Shape schema key/name mismatch while checking class references")
    else if shape.targetClass = name then .ok [s!"shape {shape.name}"]
    else .ok []
  | _ => .error jsonError

def indexReferences (indexes : List IndexDef) : List String :=
  (indexes.filter fun index => index.schemaName = name).map fun index => s!"index {index.indexName}"

/-- Everything persisted that names the class, apart from its subclasses. -/
def referencesTo (space name : String) : Exec (List String) := do
  let classes ← listClasses space
  let schemas ← scanPrefix (edgePrefix space)
  let edges ← ofExcept (schemas.mapM (edgeReference space name))
  let records ← scanPrefix (shapePrefix space)
  let shapes ← ofExcept (records.mapM (shapeReference space name))
  let indexes ← mutationIndexes ctx space .tag
  pure (classReferences name classes ++ edges.flatten ++ shapes.flatten ++ indexReferences name indexes)

def handleDropClass (ifExists : Bool) : Exec Response := do
  let space ← ctx.requireSpace
  match ← get (class_ space name) with
  | none => if ifExists then pure noRows else invalid s!"Class {name} not found"
  | some _ => do
    let classes ← listClasses space
    let children := (classes.filter fun other => other.superclasses.contains name).map ClassDef.name
    if !children.isEmpty then
      let listed := ", ".intercalate children
      invalid s!"Class {name} has subclasses ({listed}); drop them first"
    else do
      let references ← referencesTo ctx space name
      if !references.isEmpty then
        let listed := ", ".intercalate (references.mergeSort fun a b => decide (a ≤ b))
        invalid s!"Class {name} is referenced by {listed}; remove those references before dropping it"
      else do
        batchDelete [class_ space name, tag space name]
        pure noRows

end

/-- The statements that create and drop tags, classes and edge types. -/
inductive SchemaStatement where
  | createTag (name : String) (ifNotExists : Bool) (props : List PropertyDef)
  | createClass (plan : CreateClassPlan)
  | createEdge (plan : CreateEdgePlan)
  | dropTag (name : String) (ifExists : Bool)
  | dropClass (name : String) (ifExists : Bool)
  | dropEdge (name : String) (ifExists : Bool)

def SchemaStatement.plan (ctx : Ctx) : SchemaStatement → Plan
  | .createTag name ifNotExists props => .schemaChange .createTag (handleCreateTag ctx name ifNotExists props)
  | .createClass plan => .schemaChange .createClass (handleCreateClass ctx plan)
  | .createEdge plan => .createEdge plan
  | .dropTag name ifExists => .schemaChange .dropTag (Executor.dropTag ctx name ifExists)
  | .dropClass name ifExists => .schemaChange .dropClass (handleDropClass ctx name ifExists)
  | .dropEdge name ifExists => .dropEdge name ifExists

/-- A statement of a session, with the space that the session has selected. -/
structure SchemaRequest where
  ctx : Ctx
  statement : SchemaStatement

def SchemaRequest.program (layout : Layout Key Val) (fuel : Nat) (request : SchemaRequest) : Exec Response :=
  execute layout fuel request.ctx (request.statement.plan request.ctx)

end ByoriDB.Executor
