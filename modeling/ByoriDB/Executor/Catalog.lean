import ByoriDB.Executor.Execution
import ByoriDB.Executor.Hierarchy
import ByoriDB.Program.Outcome

/-! Each schema statement has one effect on the schema of its space, which depends on the schema alone. -/

namespace ByoriDB.Graph.SemanticFlags

/-- The edge types that the semantics of an edge type name. -/
def relatives (semantics : SemanticFlags) : List String :=
  semantics.inverseOf.toList ++ semantics.subpropertyOf.toList ++
    semantics.equivalentProperty.toList ++ semantics.propertyChain.getD []

def endpoints (semantics : SemanticFlags) : List String := semantics.domain.toList ++ semantics.range.toList

end ByoriDB.Graph.SemanticFlags

namespace ByoriDB.Executor

open List Data Program
open Prog (Answers)
open Store ByoriDB.Graph
open SchemaKey (edge tag)

variable {env : Env} {space name : String} {world : World} {kv kv' : KV} {ctx : Ctx}

def SameSchema (space : String) (kv kv' : KV) : Prop :=
  ∀ key, (schemaPrefix space).covers key = true → kv'.get key = kv.get key

theorem SameSchema.refl (space : String) (kv : KV) : SameSchema space kv kv := fun _ _ => rfl

theorem SameSchema.trans (first : SameSchema space kv kv') (second : SameSchema space kv' kv'') :
    SameSchema space kv kv'' :=
  fun key covered => (second key covered).trans (first key covered)

theorem kind_schema (covered : (schemaPrefix space).covers key = true) :
    key.kind space = none ∨ key.kind space = some "space" := by
  obtain ⟨rest, nonempty, rfl⟩ := covers_text.mp covered
  obtain ⟨head, tail, rfl⟩ := exists_cons_of_ne_nil nonempty
  by_cases same : "space" = space
  · exact .inr (by simp [Key.kind, ← same])
  · exact .inl (by simp [Key.kind, same])

theorem schema_ne_marker (covered : (schemaPrefix space).covers key = true) : key ≠ inferenceDirty space := by
  rintro rfl
  rcases kind_schema covered with kind | kind <;> simp [Key.kind, inferenceDirty] at kind

theorem KeepsAssertions.sameSchema (keeps : KeepsAssertions space kv kv') : SameSchema space kv kv' := by
  intro key covered
  refine keeps.other key ?_ ?_ <;> rcases kind_schema covered with kind | kind <;> simp [kind, derivedKinds]

theorem Progress.sameSchema (progress : Progress space world (· = world) final) :
    SameSchema space world.kv final.kv := by
  cases progress with
  | waiting content => exact kv_congr content ▸ .refl space _
  | committed holds => exact holds ▸ .refl space _
  | rebuilding holds _ keeps _ => exact holds ▸ keeps.sameSchema
  | settled holds _ built cleared _ =>
    intro key covered
    rw [cleared, get_erase, if_neg (schema_ne_marker covered), built.keeps.sameSchema key covered, holds]

theorem ends_settle : (settle fuel ctx space).Ends (handler env)
    (fun _ final => SameSchema space world.kv final.kv) world := by
  have settles : (settle fuel ctx space).wp (handler env) (Advances env space world (· = world)) _ world := wp_settle rfl
  exact Prog.ends_of_wp settles (fun _ _ advances _ => advances.sameSchema) (.refl space _)

/-- A statement ends with the schema of a store as stated. -/
def Leaves (space : String) (reaches : KV → Prop) (_ : Except ExecutionError Response) (final : World) : Prop :=
  ∃ kv', reaches kv' ∧ SameSchema space kv' final.kv

theorem Leaves.idle (holds : reaches world.kv) (result : Except ExecutionError Response) :
    Leaves space reaches result world := ⟨_, holds, .refl space _⟩

theorem ends_execute (scope : inferenceScope ctx plan = some (space, true))
    (guarded : plan.isRecovery = false) (refused : Dirty space world.kv → reaches world.kv)
    (dispatched : ¬ Dirty space world.kv →
      (dispatch env.toLayout fuel ctx plan).Ends (handler env) (Leaves space reaches) world) :
    (execute env.toLayout fuel ctx plan).Ends (handler env) (Leaves space reaches) world := by
  rw [execute, scope]
  simp only [gate, guarded, if_true, Bool.false_eq_true, if_false]
  rw [ensureInferenceClean, bind_assoc_eq, inferenceIsDirty, bind_assoc_eq]
  refine ends_perform.mpr ?_
  rw [handler_get, pure_bind_eq]
  split
  · rename_i marked
    exact .idle (refused marked) _
  · rename_i unmarked
    rw [pure_bind_eq]
    refine Prog.ends_seq (dispatched unmarked) ?_ fun _ _ reached => reached
    rintro response final ⟨kv', holds, same⟩
    exact Prog.ends_seq ends_settle (fun _ _ kept => ⟨kv', holds, same.trans kept⟩) fun _ _ kept => ⟨kv', holds, same.trans kept⟩

section

variable (space : String) (kv : KV) (name : String)

def IsEdgeType : Prop := (kv.get (edge space name)).isSome = true

def IsTag : Prop := (kv.get (tag space name)).isSome = true

/-- Everything the semantics of an edge type name exists. -/
def Anchored (semantics : SemanticFlags) : Prop :=
  (∀ target ∈ semantics.relatives, IsEdgeType space kv target) ∧
    ∀ target ∈ semantics.endpoints, IsClass space kv target ∨ IsTag space kv target

/-- A class that the new one may name: another one, that exists. -/
def IsOther (name target : String) : Prop := target ≠ name ∧ IsClass space kv target

/-- The class is new, and may be related to the others as it says. -/
structure Creatable (plan : CreateClassPlan) : Prop where
  fresh : ¬ IsClass space kv plan.name ∧ ¬ IsTag space kv plan.name
  superclasses : ∀ parent ∈ plan.superclasses, IsOther space kv plan.name parent ∧ WithinDepth (ClassLink space kv) parent ∧
    ¬ IsAncestor (ClassLink space kv) parent plan.name
  disjoint : ∀ target ∈ plan.disjoint, IsOther space kv plan.name target
  equivalent : ∀ target ∈ plan.equivalentClasses, IsOther space kv plan.name target

/-- The new class on the record of a class it is equivalent to. -/
def registration (name target : String) : List (Key × Val) :=
  match kv.get (class_ space target) with
  | some (.classDef definition) =>
    if definition.equivalentClasses.contains name then []
    else [(class_ space target, .classDef { definition with equivalentClasses := definition.equivalentClasses ++ [name] })]
  | _ => []

def CreateClassPlan.puts (plan : CreateClassPlan) : List (Key × Val) :=
  (tag space plan.name, .tagSchema ⟨plan.name, plan.props, none⟩) ::
    (class_ space plan.name, .classDef plan.definition) ::
    (plan.equivalentClasses.eraseDups.map (registration space kv plan.name)).flatten

/-- No other class and no edge type names the class. -/
structure Unreferenced : Prop where
  classes : ∀ other, other ≠ name → ¬ ClassLink space kv other name
  edges : ∀ other schema, kv.get (edge space other) = some (.edgeSchema schema) → name ∉ schema.semantics.endpoints

/-- The change is made if the statement is accepted, and nothing else is. -/
def Applied (accepted : Prop) (changed kv kv' : KV) : Prop := (accepted ∧ kv' = changed) ∨ (¬ accepted ∧ kv' = kv)

def SchemaStatement.Edits : SchemaStatement → KV → Prop
  | .createTag name _ props => Applied (¬ IsTag space kv name) (kv.insert (tag space name) (.tagSchema ⟨name, props, none⟩)) kv
  | .createClass plan => Applied (Creatable space kv plan) (kv.putAll (plan.puts space kv)) kv
  | .createEdge plan =>
    Applied (¬ IsEdgeType space kv plan.name ∧ Anchored space kv plan.semantics ∧
        ∀ chain ∈ plan.semantics.propertyChain, chain.length = 2)
      (kv.insert (edge space plan.name) (.edgeSchema ⟨plan.name, plan.props, plan.semantics, none⟩)) kv
  | .dropTag name _ => Applied (IsTag space kv name ∧ ¬ IsClass space kv name) (kv.erase (tag space name)) kv
  | .dropClass name _ => fun kv' =>
    kv' = kv ∨ Unreferenced space kv name ∧ kv' = kv.eraseAll [class_ space name, tag space name]
  | .dropEdge name _ => Applied (name ≠ sameasEdge ∧ IsEdgeType space kv name) (kv.erase (edge space name)) kv

end

section

theorem covers_schema :
    (schemaPrefix space).covers (.text [.word "space", .word space, .word kind, .word name]) = true :=
  covers_text.mpr ⟨[.word kind, .word name], by simp, rfl⟩

section

variable (scope : ctx.requireSpace = pure space)
include scope

theorem ends_handleCreateTag (name : String) (ifNotExists : Bool) (props : List PropertyDef) :
    (handleCreateTag ctx name ifNotExists props).Ends (handler env) (Leaves
      space ((SchemaStatement.createTag name ifNotExists props).Edits space world.kv)) world := by
  rw [handleCreateTag, scope, pure_bind_eq]
  refine ends_perform.mpr ?_
  rw [handler_get]
  cases found : world.kv.get (tag space name) with
  | some value =>
    have refused : ¬ ¬ IsTag space world.kv name := by simp [IsTag, found]
    dsimp only
    split <;> exact .idle (.inr ⟨refused, rfl⟩) _
  | none =>
    refine ends_perform.mpr (ends_pure.mpr ?_)
    exact ⟨_, .inl ⟨by simp [IsTag, found], rfl⟩, .refl space _⟩

theorem ends_dropTag (name : String) (ifExists : Bool) : (dropTag ctx name ifExists).Ends (handler env)
      (Leaves space ((SchemaStatement.dropTag name ifExists).Edits space world.kv)) world := by
  rw [dropTag, scope, pure_bind_eq]
  refine ends_perform.mpr ?_
  rw [handler_get]
  cases found : world.kv.get (tag space name) with
  | none =>
    have refused : ¬ (IsTag space world.kv name ∧ ¬ IsClass space world.kv name) := by simp [IsTag, found]
    dsimp only
    split <;> exact .idle (.inr ⟨refused, rfl⟩) _
  | some value =>
    refine ends_perform.mpr ?_
    rw [handler_get]
    cases record : world.kv.get (class_ space name) with
    | some value => exact .idle (.inr ⟨by simp [IsClass, record], rfl⟩) _
    | none =>
      refine ends_perform.mpr (ends_pure.mpr ?_)
      exact ⟨_, .inl ⟨by simp [IsTag, IsClass, found, record], rfl⟩, .refl space _⟩

theorem ends_dropEdge (name : String) (ifExists : Bool) : (dropEdge ctx name ifExists).Ends (handler env)
      (Leaves space ((SchemaStatement.dropEdge name ifExists).Edits space world.kv)) world := by
  unfold dropEdge
  split
  · rename_i reserved
    exact .idle (.inr ⟨fun accepted => accepted.1 reserved, rfl⟩) _
  · rename_i other
    rw [scope, pure_bind_eq]
    refine ends_perform.mpr ?_
    rw [handler_get]
    cases found : world.kv.get (edge space name) with
    | none =>
      have refused : ¬ (name ≠ sameasEdge ∧ IsEdgeType space world.kv name) := by simp [IsEdgeType, found]
      dsimp only
      split <;> exact .idle (.inr ⟨refused, rfl⟩) _
    | some value =>
      refine ends_perform.mpr (ends_pure.mpr ?_)
      refine ⟨_, .inl ⟨⟨other, by simp [IsEdgeType, found]⟩, rfl⟩, fun key covered => ?_⟩
      change ((world.kv.insert (inferenceDirty space) .one).erase (edge space name)).get key = _
      rw [get_erase, get_erase, get_insert, if_neg (schema_ne_marker covered)]

end

theorem checks_checkEdgeTarget (fresh : ¬ IsEdgeType space world.kv name)
    (reference : String × Option String) : (checkEdgeTarget space name reference).Checks
      (handler env) world (∀ target ∈ reference.2, IsEdgeType space world.kv target) := by
  obtain ⟨clause, target⟩ := reference
  unfold checkEdgeTarget
  cases target with
  | none => exact answers_pure (by simp)
  | some target =>
    dsimp only
    split
    · rename_i same
      exact answers_fail (by simpa [same] using fresh)
    · refine answers_bind (answers_get ?_)
      cases found : world.kv.get (edge space target) with
      | none => exact answers_fail (by simp [IsEdgeType, found])
      | some value => exact answers_pure (by simp [IsEdgeType, found])

theorem checks_checkChain : (checkChain space chain).Checks (handler env) world ((∀ links ∈ chain,
      links.length = 2) ∧ ∀ target ∈ chain.getD [], IsEdgeType space world.kv target) := by
  unfold checkChain
  cases chain with
  | none => exact answers_pure (by simp)
  | some links =>
    dsimp only
    split
    · rename_i long
      exact answers_fail (by simpa using fun short => absurd short long)
    · rename_i short
      refine Prog.checks_congr ?_ (checks_forM (IsEdgeType space world.kv) fun target _ => ?_)
      · simpa using fun _ => not_not.mp short
      · refine answers_bind (answers_get ?_)
        cases found : world.kv.get (edge space target) with
        | none => exact answers_fail (by simp [IsEdgeType, found])
        | some value => exact answers_pure (by simp [IsEdgeType, found])

theorem checks_checkClassTarget (reference : String × Option String) :
    (checkClassTarget space reference).Checks (handler env) world
      (∀ target ∈ reference.2, IsClass space world.kv target ∨ IsTag space world.kv target) := by
  obtain ⟨clause, target⟩ := reference
  cases target with
  | none => exact answers_pure (by simp)
  | some target =>
    refine answers_bind (answers_get (answers_bind (answers_get ?_)))
    dsimp only
    split
    · rename_i missing
      exact answers_fail (by simpa [IsClass, IsTag] using missing)
    · rename_i found
      refine answers_pure ?_
      simp only [Bool.and_eq_true, Bool.not_eq_true', not_and, Bool.not_eq_false] at found
      simp only [Option.mem_def, Option.some.injEq, forall_eq', IsClass, IsTag]
      cases class_ : (world.kv.get (SchemaKey.class_ space target)).isSome
      · exact .inr (found class_)
      · exact .inl rfl

theorem checks_checkSemantics (fresh : ¬ IsEdgeType space world.kv name) (semantics : SemanticFlags) :
    (checkSemantics space name semantics).Checks (handler env) world
      (Anchored space world.kv semantics ∧ ∀ chain ∈ semantics.propertyChain, chain.length = 2) := by
  refine Prog.checks_congr ?_ (Prog.checks_seq (checks_forM _ fun reference _ => checks_checkEdgeTarget fresh reference)
    (Prog.checks_seq checks_checkChain (checks_forM _ fun reference _ => checks_checkClassTarget reference)))
  simp only [Anchored, SemanticFlags.relatives, SemanticFlags.endpoints, mem_append, Option.mem_toList, mem_cons, not_mem_nil,
    or_false, forall_eq, or_imp, forall_and]
  tauto

theorem ends_createEdge (scope : ctx.requireSpace = pure space) (plan : CreateEdgePlan) :
    (createEdge ctx plan).Ends (handler env)
      (Leaves space ((SchemaStatement.createEdge plan).Edits space world.kv)) world := by
  rw [createEdge, scope, pure_bind_eq]
  refine ends_perform.mpr ?_
  rw [handler_get]
  cases found : world.kv.get (edge space plan.name) with
  | some value =>
    have exists_ : IsEdgeType space world.kv plan.name := by simp [IsEdgeType, found]
    dsimp only
    split <;> exact .idle (.inr ⟨fun accepted => accepted.1 exists_, rfl⟩) _
  | none =>
    have fresh : ¬ IsEdgeType space world.kv plan.name := by simp [IsEdgeType, found]
    refine ends_answers (checks_checkSemantics fresh plan.semantics) (fun _ holds => ?_) fun reason refused =>
      .idle (.inr ⟨fun accepted => refused accepted.2, rfl⟩) _
    refine ends_perform.mpr (ends_pure.mpr ⟨_, .inl ⟨⟨fresh, holds⟩, rfl⟩, fun key covered => ?_⟩)
    change ((world.kv.insert (edge space plan.name) _).insert (inferenceDirty space) .one).get key = _
    rw [get_insert, if_neg (schema_ne_marker covered)]

theorem checks_checkSuperclass (reads : ReadsClasses space world.kv) :
    (checkSuperclass space name parent).Checks (handler env) world
      (IsOther space world.kv name parent ∧ WithinDepth (ClassLink space world.kv) parent ∧
        ¬ IsAncestor (ClassLink space world.kv) parent name) := by
  unfold checkSuperclass
  split
  · rename_i same
    exact answers_fail fun accepted => accepted.1.1 same
  · rename_i other
    refine answers_bind (answers_get ?_)
    cases found : world.kv.get (class_ space parent) with
    | none => exact answers_fail (by simp [IsOther, IsClass, found])
    | some value =>
      have exists_ : IsClass space world.kv parent := by simp [IsClass, found]
      refine answers_bind (answers_mono (answers_classAncestorsOf reads) ?_ ?_)
      · exact fun _ deep accepted => deep.2 accepted.2.1
      · rintro ancestors ⟨within, listed⟩
        split
        · rename_i mem
          rw [contains_iff_mem, listed.mem] at mem
          exact answers_fail fun accepted => accepted.2.2 mem
        · rename_i absent
          rw [contains_iff_mem, listed.mem] at absent
          exact answers_pure ⟨⟨other, exists_⟩, within, absent⟩

theorem checks_checkRelatedClass : (checkRelatedClass space name clause target).Checks
      (handler env) world (IsOther space world.kv name target) := by
  unfold checkRelatedClass
  split
  · rename_i same
    exact answers_fail fun accepted => accepted.1 same
  · rename_i other
    refine answers_bind (answers_get ?_)
    cases found : world.kv.get (class_ space target) with
    | none => exact answers_fail (by simp [IsOther, IsClass, found])
    | some value => exact answers_pure ⟨other, by simp [IsClass, found]⟩

theorem answers_registerEquivalent (reads : ReadsClasses space world.kv) :
    (registerEquivalent space name target).Answers (handler env) world raise (· = registration space world.kv name target) := by
  rw [registerEquivalent, loadClass, bind_assoc_eq]
  refine answers_bind (answers_get ?_)
  cases found : world.kv.get (class_ space target) with
  | none => exact answers_bind (answers_pure (answers_pure (by simp [registration, found])))
  | some value =>
    obtain ⟨definition, rfl, -⟩ := reads target value found
    refine answers_bind (answers_pure ?_)
    rw [registration, found]
    dsimp only
    split <;> exact answers_pure rfl

theorem ends_handleCreateClass (scope : ctx.requireSpace = pure space)
    (reads : ReadsClasses space world.kv) (plan : CreateClassPlan) :
    (handleCreateClass ctx plan).Ends (handler env)
      (Leaves space ((SchemaStatement.createClass plan).Edits space world.kv)) world := by
  have refuse : ¬ Creatable space world.kv plan → ∀ result,
      Leaves space ((SchemaStatement.createClass plan).Edits space world.kv) result world :=
    fun refused => .idle (.inr ⟨refused, rfl⟩)
  rw [handleCreateClass, scope, pure_bind_eq]
  refine ends_perform.mpr ?_
  rw [handler_get]
  cases found : world.kv.get (class_ space plan.name) with
  | some value =>
    have refused := refuse fun creatable => creatable.fresh.1 (by simp [IsClass, found])
    dsimp only
    split <;> exact refused _
  | none =>
    refine ends_perform.mpr ?_
    rw [handler_get]
    cases tagged : world.kv.get (tag space plan.name) with
    | some value => exact refuse (fun creatable => creatable.fresh.2 (by simp [IsTag, tagged])) _
    | none =>
      refine ends_answers (checks_forM _ fun parent _ => checks_checkSuperclass reads) (fun _ superclasses => ?_)
        fun _ refused => refuse (fun creatable => refused fun parent mem =>
          creatable.superclasses parent (mem_eraseDups.mp mem)) _
      refine ends_answers (checks_forM _ fun target _ => checks_checkRelatedClass) (fun _ disjoint => ?_)
        fun _ refused => refuse (fun creatable => refused creatable.disjoint) _
      refine ends_answers (checks_forM _ fun target _ => checks_checkRelatedClass) (fun _ equivalent => ?_)
        fun _ refused => refuse (fun creatable => refused creatable.equivalent) _
      have creatable : Creatable space world.kv plan :=
        ⟨⟨by simp [IsClass, found], by simp [IsTag, tagged]⟩, fun parent mem => superclasses parent (mem_eraseDups.mpr mem),
          disjoint, equivalent⟩
      refine ends_answers (answers_mapM _ fun target _ => answers_registerEquivalent reads) (fun registered same => ?_)
        fun _ (impossible : False) => impossible.elim
      obtain rfl := eq_map_of_forall₂ same
      exact ⟨_, .inl ⟨creatable, rfl⟩, .refl space _⟩

theorem answers_listClasses : (listClasses space).Answers (handler env) world (fun _ => True) fun classes =>
    ∀ other definition, world.kv.get (class_ space other) = some (.classDef definition) → definition ∈ classes := by
  refine answers_bind (answers_scanPrefix (answers_ofExcept ?_))
  cases read : (env.arrange (world.kv.select (classPrefix space).covers)).mapM readClass with
  | error reason => trivial
  | ok classes =>
    intro other definition found
    have scanned : (class_ space other, Val.classDef definition) ∈
        env.arrange (world.kv.select (classPrefix space).covers) :=
      mem_scan.mpr ⟨found, covers_text.mpr ⟨[.word other], by simp, rfl⟩⟩
    exact ((mem_of_mapM_ok read).2 definition).mpr ⟨_, scanned, rfl⟩

theorem edgeReference_mem
    (read : (env.arrange (kv.select (edgePrefix space).covers)).mapM (edgeReference space name) = .ok references)
    (empty : references.flatten = []) (found : kv.get (edge space other) = some (.edgeSchema schema)) :
    name ∉ schema.semantics.endpoints := by
  have scanned : (edge space other, Val.edgeSchema schema) ∈ env.arrange (kv.select (edgePrefix space).covers) :=
    mem_scan.mpr ⟨found, covers_text.mpr ⟨[.word other], by simp, rfl⟩⟩
  obtain ⟨result, decoded⟩ := (mem_of_mapM_ok read).1 _ scanned
  have nothing : result = [] := flatten_eq_nil_iff.mp empty result (((mem_of_mapM_ok read).2 result).mpr ⟨_, scanned, decoded⟩)
  subst nothing
  unfold edgeReference at decoded
  dsimp only at decoded
  split at decoded
  · cases decoded
  · split at decoded
    · cases decoded
    · rename_i unnamed
      simpa [SemanticFlags.endpoints, not_or] using unnamed

theorem answers_looks {α : Type} {p : Exec α} (looks : p.Only Looks) :
    p.Answers (handler env) world (fun _ => True) fun _ => True := by
  refine Prog.answers_of_only looks fun op permitted => ?_
  cases op with
  | txNow => exact permitted.elim
  | kv op => exact KvOp.looks_kv permitted

theorem answers_referencesTo (reads : ReadsClasses space world.kv) :
    (referencesTo ctx space name).Answers (handler env) world (fun _ => True) fun references =>
      references = [] → (∀ other definition, other ≠ name →
      world.kv.get (class_ space other) = some (.classDef definition) →
        name ∉ definition.equivalentClasses) ∧ ∀ other schema, world.kv.get (edge space other) =
      some (.edgeSchema schema) → name ∉ schema.semantics.endpoints := by
  refine answers_seq answers_listClasses fun classes listed => ?_
  refine answers_bind (answers_scanPrefix ?_)
  cases edges : (env.arrange (world.kv.select (edgePrefix space).covers)).mapM (edgeReference space name) with
  | error reason => exact answers_bind (answers_fail trivial)
  | ok edgeReferences =>
    refine answers_bind (answers_pure (answers_bind (answers_scanPrefix ?_)))
    refine answers_bind (answers_imp (answers_looks (only_ofExcept _)) fun shapes _ => ?_)
    refine answers_bind (answers_imp (answers_looks (looks_mutationIndexes .tag)) fun indexes _ => ?_)
    refine answers_pure fun empty => ?_
    simp only [append_eq_nil_iff] at empty
    obtain ⟨⟨⟨none, edgeless⟩, -⟩, -⟩ := empty
    refine ⟨fun other definition apart found equivalent => ?_, fun other schema found => edgeReference_mem edges edgeless found⟩
    obtain ⟨_, same, named⟩ := reads other _ found
    cases same
    have reference : definition ∈ classes.filter fun other =>
        other.name ≠ name ∧ (other.disjoint.contains name ∨ other.equivalentClasses.contains name) := by
      rw [mem_filter]
      exact ⟨listed other definition found, by simp [named, apart, equivalent]⟩
    rw [map_eq_nil_iff.mp none] at reference
    cases reference

theorem ends_handleDropClass (scope : ctx.requireSpace = pure space)
    (reads : ReadsClasses space world.kv) : (handleDropClass ctx name ifExists).Ends (handler env)
      (Leaves space ((SchemaStatement.dropClass name ifExists).Edits space world.kv)) world := by
  have idle : ∀ result, Leaves space ((SchemaStatement.dropClass name ifExists).Edits
    space world.kv) result world := .idle (.inl rfl)
  rw [handleDropClass, scope, pure_bind_eq]
  refine ends_perform.mpr ?_
  rw [handler_get]
  cases found : world.kv.get (class_ space name) with
  | none =>
    dsimp only
    split <;> exact idle _
  | some value =>
    refine ends_answers answers_listClasses (fun classes listed => ?_) fun _ _ => idle _
    dsimp only
    split
    · exact idle _
    · rename_i childless
      refine ends_answers (answers_referencesTo reads) (fun references refers => ?_) fun _ _ => idle _
      split
      · exact idle _
      · rename_i unreferenced
        simp only [Bool.not_eq_true, Bool.not_eq_false', List.isEmpty_iff, map_eq_nil_iff] at childless unreferenced
        obtain ⟨inequivalent, edges⟩ := refers unreferenced
        refine ⟨_, .inr ⟨⟨?_, edges⟩, rfl⟩, .refl space _⟩
        rintro other apart ⟨definition, stored, named⟩
        rcases mem_append.mp named with parent | equivalent
        · have child : definition ∈ classes.filter fun other => other.superclasses.contains name :=
            mem_filter.mpr ⟨listed other definition stored, by simpa using parent⟩
          rw [childless] at child
          cases child
        · exact inequivalent other definition apart stored equivalent

end

/-- The effect of a statement on the schema; a marked space refuses it. -/
def SchemaStatement.Moves (space : String) (kv : KV) (statement : SchemaStatement) (kv' : KV) : Prop :=
  (Dirty space kv ∧ kv' = kv) ∨ (¬ Dirty space kv ∧ statement.Edits space kv kv')

/-- The world after a statement, whether it succeeds or fails. -/
def SchemaRequest.after (env : Env) (fuel : Nat) (world : World) (request : SchemaRequest) : World :=
  ((request.program env.toLayout fuel).run (handler env) world).2

theorem after_moves {request : SchemaRequest} (selected : request.ctx.space = some space)
    (reads : ReadsClasses space world.kv) : ∃ kv', request.statement.Moves space world.kv kv' ∧
      SameSchema space kv' (request.after env fuel world).kv := by
  obtain ⟨ctx, statement⟩ := request
  dsimp only at selected
  have required : ctx.requireSpace = pure space := by rw [Ctx.requireSpace, selected]
  have unnamed : (statement.plan ctx).access = (none, true) := by cases statement <;> rfl
  have scope : inferenceScope ctx (statement.plan ctx) = some (space, true) := by simp [inferenceScope, unnamed, selected]
  suffices moves : (execute env.toLayout fuel ctx (statement.plan ctx)).Ends (handler env)
      (Leaves space (statement.Moves space world.kv)) world from moves
  refine ends_execute scope (by cases statement <;> rfl) (fun marked => .inl ⟨marked, rfl⟩) fun unmarked => ?_
  have edits : (dispatch env.toLayout fuel ctx (statement.plan ctx)).Ends (handler env)
      (Leaves space (statement.Edits space world.kv)) world := by
    cases statement with
    | createTag name ifNotExists props => exact ends_handleCreateTag required name ifNotExists props
    | createClass plan => exact ends_handleCreateClass required reads plan
    | createEdge plan => exact ends_createEdge required plan
    | dropTag name ifExists => exact ends_dropTag required name ifExists
    | dropClass name ifExists => exact ends_handleDropClass required reads
    | dropEdge name ifExists => exact ends_dropEdge required name ifExists
  refine Prog.ends_mono edits ?_
  rintro _ _ ⟨kv', holds, same⟩
  exact ⟨kv', .inr ⟨unmarked, holds⟩, same⟩

/-- The condition holds whenever a statement of the run is about to be executed. -/
def Throughout (env : Env) (fuel : Nat) (holds : World → SchemaRequest → Prop) : World → List SchemaRequest → Prop
  | _, [] => True
  | world, request :: rest => holds world request ∧ Throughout env fuel holds (request.after env fuel world) rest

/-- Conditions that agree in every state with an invariant, which the first of them maintains. -/
theorem throughout_congr (inv : World → Prop)
    (step : ∀ request ∈ requests, ∀ world, inv world → (holds world request ↔ holds' world request) ∧
      (holds world request → inv (request.after env fuel world))) (initially : inv world) :
    Throughout env fuel holds world requests ↔ Throughout env fuel holds' world requests := by
  induction requests generalizing world with
  | nil => exact .rfl
  | cons request rest ih =>
    obtain ⟨same, keeps⟩ := step request (.head _) world initially
    rw [Throughout, Throughout, ← same]
    exact and_congr_right fun now => ih (fun other mem => step other (.tail _ mem)) (keeps now)

/-- A class record on which an equivalence with this class is registered. -/
def withEquivalent (name : String) : Val → Val
  | .classDef definition =>
    .classDef (if definition.equivalentClasses.contains name then definition
      else { definition with equivalentClasses := definition.equivalentClasses ++ [name] })
  | value => value

theorem lastPut_registration (other : n ≠ target) :
    lastPut (registration space kv name target) (class_ space n) = none := by
  refine lastPut_eq_none.mpr fun listed => ?_
  unfold registration at listed
  split at listed
  · split at listed
    · cases listed
    · simp only [map_cons, map_nil, mem_singleton, class_inj] at listed
      exact other listed
  · cases listed

theorem lastPut_registrations (targets : List String) (n : String) :
    lastPut (targets.map (registration space kv name)).flatten (class_ space n) =
      if n ∈ targets then lastPut (registration space kv name n) (class_ space n) else none := by
  induction targets with
  | nil => rfl
  | cons target rest ih =>
    rw [map_cons, flatten_cons, lastPut_append, ih]
    by_cases here : n = target
    · subst here
      by_cases later : n ∈ rest <;> simp [later]
    · rw [lastPut_registration here, Option.or_none]
      simp [here]

theorem get_created (creatable : Creatable space kv plan) (reads : ReadsClasses space kv) (n : String) :
    (kv.putAll (plan.puts space kv)).get (class_ space n) = if n = plan.name then some (.classDef plan.definition)
      else if n ∈ plan.equivalentClasses then (kv.get (class_ space n)).map (withEquivalent plan.name)
      else kv.get (class_ space n) := by
  have untagged : class_ space n ≠ tag space plan.name := by simp [class_, tag]
  rw [CreateClassPlan.puts, putAll_cons, putAll_cons, get_putAll, lastPut_registrations, get_insert, get_insert,
    if_neg untagged]
  simp only [class_inj, mem_eraseDups]
  by_cases self : n = plan.name
  · have other : n ∉ plan.equivalentClasses := fun mem => (creatable.equivalent n mem).1 self
    rw [if_pos self, if_neg other, if_pos self, Option.none_or]
  · by_cases named : n ∈ plan.equivalentClasses
    · rw [if_pos named, if_pos named]
      obtain ⟨value, found⟩ := Option.isSome_iff_exists.mp (creatable.equivalent n named).2
      obtain ⟨definition, rfl, -⟩ := reads n value found
      rw [registration, found]
      dsimp only [Option.map_some, withEquivalent]
      split <;> simp [lastPut]
    · rw [if_neg named, if_neg named, Option.none_or]

theorem ReadsClasses.congr (reads : ReadsClasses space kv)
    (same : ∀ n, kv'.get (class_ space n) = kv.get (class_ space n)) : ReadsClasses space kv' :=
  fun n value found => reads n value (same n ▸ found)

theorem SameSchema.class_ (same : SameSchema space kv kv') (n : String) :
    kv'.get (class_ space n) = kv.get (class_ space n) :=
  same _ covers_schema

theorem ReadsClasses.created (reads : ReadsClasses space kv) (creatable : Creatable space kv plan) :
    ReadsClasses space (kv.putAll (plan.puts space kv)) := by
  intro n value found
  rw [get_created creatable reads] at found
  split at found
  · rename_i same
    cases found
    exact ⟨_, rfl, same.symm⟩
  · split at found
    · obtain ⟨value, stored, rfl⟩ := Option.map_eq_some_iff.mp found
      obtain ⟨definition, rfl, named⟩ := reads n value stored
      refine ⟨_, rfl, ?_⟩
      split <;> exact named
    · exact reads n value found

theorem ReadsClasses.edits {statement : SchemaStatement} (reads : ReadsClasses space kv)
    (edits : statement.Edits space kv kv') : ReadsClasses space kv' := by
  cases statement with
  | createTag name _ props =>
    rcases edits with ⟨-, rfl⟩ | ⟨-, rfl⟩
    · exact reads.congr fun n => by rw [get_insert, if_neg (by simp [class_, tag])]
    · exact reads
  | createClass plan =>
    rcases edits with ⟨creatable, rfl⟩ | ⟨-, rfl⟩
    · exact reads.created creatable
    · exact reads
  | createEdge plan =>
    rcases edits with ⟨-, rfl⟩ | ⟨-, rfl⟩
    · exact reads.congr fun n => by rw [get_insert, if_neg (by simp [class_, edge])]
    · exact reads
  | dropTag name _ =>
    rcases edits with ⟨-, rfl⟩ | ⟨-, rfl⟩
    · exact reads.congr fun n => by rw [get_erase, if_neg (by simp [class_, tag])]
    · exact reads
  | dropClass name _ =>
    rcases edits with rfl | ⟨-, rfl⟩
    · exact reads
    · intro n value found
      rw [get_eraseAll] at found
      split at found
      · cases found
      · exact reads n value found
  | dropEdge name _ =>
    rcases edits with ⟨-, rfl⟩ | ⟨-, rfl⟩
    · exact reads.congr fun n => by rw [get_erase, if_neg (by simp [class_, edge])]
    · exact reads

end ByoriDB.Executor
