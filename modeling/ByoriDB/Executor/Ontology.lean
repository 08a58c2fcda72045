import ByoriDB.Executor.Inference
import ByoriDB.Executor.Vid

namespace ByoriDB.Executor

open Data Program Store ByoriDB.Graph

def followSameas (space : String) (start : Int) : Nat → Int → Exec Int
  | 0, _ => invalid s!"sameAs chain for vertex {start} exceeds depth 64"
  | depth + 1, current => do
    match ← get (sameas space current) with
    | none => pure current
    | some stored =>
      match decodeInternal stored with
      | none => invalid s!"Corrupt sameAs pointer for vertex {current}"
      | some rep => if rep = current then pure current else followSameas space start depth rep

section

variable (space : String) (props : Props)

def representativeOf (vid : Int) : Exec Int := followSameas space vid 64 vid

def sameasMemberFromKey : Key → Option Int
  | .text segments =>
    match segments.getLast? with
    | some (.num member) => some member
    | _ => none
  | .raw _ => none

def membersOf (rep : Int) : Exec (List Int) := do
  let entries ← scanPrefix (sameasMembersPrefix space rep)
  pure (entries.filterMap fun entry => sameasMemberFromKey entry.1)

structure ClassSearch where
  ancestors : List String
  seen : List String
  next : List String

/-- Visit one class: its superclasses and its equivalent classes are ancestors. -/
def visitClass (search : ClassSearch) (current : String) : Exec ClassSearch := do
  match ← get (class_ space current) with
  | none => pure search
  | some (.classDef definition) =>
    pure ((definition.superclasses ++ definition.equivalentClasses).foldl (fun search parent =>
      if search.seen.contains parent then search
      else ⟨search.ancestors ++ [parent], parent :: search.seen, search.next ++ [parent]⟩) search)
  | some _ => invalid s!"Corrupt class metadata for {current}"

def climbClasses (space name : String) : Nat → List String → ClassSearch → Exec (List String)
  | depth, frontier, search =>
    if frontier.isEmpty then pure search.ancestors
    else
      match depth with
      | 0 => invalid s!"class hierarchy of {name} exceeds the maximum depth of 16"
      | depth + 1 => do
        let search ← frontier.foldlM (visitClass space) { search with next := [] }
        climbClasses space name depth search.next search

def classAncestorsOf (space name : String) : Exec (List String) :=
  climbClasses space name 16 [name] ⟨[], [name], []⟩

def valueMatchesType (type : DataType) : Value → Bool
  | .null | .empty => true
  | .bool _ => type = .bool
  | .int _ => [DataType.int8, .int16, .int32, .int64, .timestamp, .float, .double].contains type
  | .float _ => type = .float || type = .double
  | .string _ =>
    match type with
    | .string | .fixedString _ => true
    | _ => false
  | .other .date _ => type = .date
  | .other .time _ => type = .time
  | .other .dateTime _ => type = .dateTime || type = .timestamp
  | .other .geography _ => type = .geography
  | _ => true

def isPresent : Option Value → Bool
  | none | some .null | some .empty => false
  | some _ => true

def constraintViolation (constraint : ShapeConstraint) : Option (String × String) :=
  let found := props.get constraint.property
  match constraint.kind with
  | .required => if isPresent found then none else some (constraint.property, "required property is missing")
  | .dataType type =>
    match found with
    | some value =>
      if isPresent found && !valueMatchesType type value then
        some (constraint.property, s!"expected type {type.debug}")
      else none
    | none => none
  | .predicate holds =>
    if (holds props).getD false then none else some (constraint.property, "value predicate not satisfied")

def shapeViolations (shape : ShapeDef) (props : Props) : List (String × String) :=
  shape.constraints.filterMap (constraintViolation props)

def readShape (entry : Key × Val) : Except ExecutionError ShapeDef :=
  match entry.2 with
  | .shapeDef shape => .ok shape
  | _ => .error (.invalidOperation s!"Corrupt shape metadata at {entry.1.toText}")

def loadShapes : Exec (List ShapeDef) := do
  let entries ← scanPrefix (shapePrefix space)
  ofExcept (entries.mapM readShape)

/-- The declared classes of a vertex together with their ancestors. -/
def classSet (tagNames : List String) : Exec (List String) := do
  let groups ← tagNames.mapM fun tag => do
    let ancestors ← classAncestorsOf space tag
    pure (tag :: ancestors)
  pure groups.flatten

def refuseViolation (shape : ShapeDef) : Except ExecutionError Unit :=
  match shapeViolations shape props with
  | [] => .ok ()
  | (property, reason) :: _ =>
    .error (.invalidOperation s!"shape {shape.name} violated on property {property}: {reason}")

def validateWriteShapes (tagNames : List String) (props : Props) : Exec Unit := do
  let shapes ← loadShapes space
  if shapes.isEmpty then pure ()
  else
    let classes ← classSet space tagNames
    ofExcept ((shapes.filter fun shape => classes.contains shape.targetClass).forM (refuseViolation props))

end

end ByoriDB.Executor
