import ByoriDB.Executor.EdgeChanges
import ByoriDB.Executor.Statement
import ByoriDB.Executor.VertexChanges
import ByoriDB.Store.Commit

/-! A statement commits in one batch; derived facts are rebuilt after it, operation by operation. -/

namespace ByoriDB.Executor

open List hiding after
open Data Program Store ByoriDB.Graph
open SchemaKey (edge)

/-- How far a statement has come: `done` holds of the world in which its changes
are committed. -/
inductive Progress (space : String) (before : World) (done : World → Prop) (world : World) : Prop where
  | waiting (content : world.content = before.content)
  | committed (holds : done world)
  | rebuilding {middle : World} (holds : done middle) (marked : Dirty space middle.kv)
      (keeps : KeepsAssertions space middle.kv world.kv)
      (history : world.content.history = middle.content.history)
  | settled {middle : World} {rebuilt : KV} (holds : done middle) (marked : Dirty space middle.kv)
      (built : Materialized space middle.kv rebuilt)
      (cleared : world.kv = rebuilt.erase (inferenceDirty space))
      (history : world.content.history = middle.content.history)

inductive Finished (space : String) (done : World → Prop) (world : World) : Prop where
  | clean (holds : done world) (unmarked : ¬ Dirty space world.kv)
  | settled {middle : World} {rebuilt : KV} (holds : done middle) (marked : Dirty space middle.kv)
      (built : Materialized space middle.kv rebuilt)
      (cleared : world.kv = rebuilt.erase (inferenceDirty space))
      (history : world.content.history = middle.content.history)

theorem Finished.progress (finished : Finished space done world) (before : World) :
    Progress space before done world := by
  cases finished with
  | clean holds _ => exact .committed holds
  | settled holds marked built cleared history => exact .settled holds marked built cleared history

theorem Finished.unmarked (finished : Finished space done world) : ¬ Dirty space world.kv := by
  cases finished with
  | clean _ unmarked => exact unmarked
  | settled _ _ _ cleared _ =>
    rw [Dirty, cleared, get_erase, if_pos rfl]
    simp

/-- An operation that takes a statement further. -/
abbrev Advances (env : Env) (space : String) (before : World)
    (done : World → Prop) (world : World) (op : Op Key Val) : Prop :=
  Progress space before done (handler env op world).2

theorem dirty_of_keeps (keeps : KeepsAssertions space kv kv') : Dirty space kv' ↔ Dirty space kv := by
  rw [Dirty, Dirty, keeps.other _ (by simp) (by simp [derivedKinds])]

theorem wp_rebuild (holds : done world) (marked : Dirty space world.kv) :
    (do rematerializeSpace fuel ctx space; delete (inferenceDirty space) : Exec Unit).wp (handler env)
      (Advances env space before done) (fun _ world' => Finished space done world') world := by
  have keeps : ∀ (state : World) (op : Op Key Val), Rebuilds env space state op →
      (KeepsAssertions space world.kv state.kv ∧ state.content.history = world.content.history) →
      KeepsAssertions space world.kv (handler env op state).2.kv ∧
        (handler env op state).2.content.history = world.content.history :=
    fun _ _ rebuilds reached => ⟨reached.1.trans rebuilds.keeps, rebuilds.history.trans reached.2⟩
  rw [wp_bind]
  refine wp_mono (wp_with (wp_rematerializeSpace fuel ctx) keeps ⟨.refl space _, rfl⟩) ?_ ?_
  · rintro state op ⟨rebuilds, reached⟩
    exact .rebuilding holds marked (keeps state op rebuilds reached).1 (keeps state op rebuilds reached).2
  · rintro _ rebuilt ⟨⟨built, -⟩, -, history⟩
    exact ⟨.settled holds marked built rfl history, .settled holds marked built rfl history⟩

theorem wp_inferenceIsDirty (reads : allowed world (.kv (.get (inferenceDirty space))))
    (holds : post (world.kv.get (inferenceDirty space)).isSome world) :
    (inferenceIsDirty space).wp (handler env) allowed post world := by
  exact ⟨reads, holds⟩

theorem wp_settle (holds : done world) : (settle fuel ctx space).wp (handler env)
      (Advances env space before done) (fun _ world' => Finished space done world') world := by
  rw [settle, wp_bind]
  refine wp_inferenceIsDirty (.committed holds) ?_
  split
  · rename_i marked
    exact wp_rebuild holds marked
  · rename_i unmarked
    exact .clean holds unmarked

theorem wp_ensureInferenceClean (reads : allowed world (.kv (.get (inferenceDirty space)))) :
    (ensureInferenceClean space).wp (handler env) allowed
      (fun _ world' => world' = world ∧ ¬ Dirty space world.kv) world := by
  rw [ensureInferenceClean, wp_bind]
  refine wp_inferenceIsDirty reads ?_
  split
  · trivial
  · rename_i unmarked
    exact ⟨rfl, unmarked⟩

/-- A statement that mutates its space, once its changes are understood. -/
theorem wp_execute_of_dispatch (scope : inferenceScope ctx plan = some (space, true))
    (guarded : plan.isRecovery = false)
    (dispatched : ¬ Dirty space world.kv → (dispatch env.toLayout fuel ctx plan).wp (handler env)
      (Advances env space world done) (fun _ world' => done world') world) :
    (execute env.toLayout fuel ctx plan).wp (handler env) (Advances env space world done)
      (fun _ world' => Finished space done world') world := by
  rw [execute, scope]
  simp only [gate, guarded, if_true, Bool.false_eq_true, if_false]
  refine wp_seq (wp_ensureInferenceClean (.waiting rfl)) ?_
  rintro _ world ⟨rfl, unmarked⟩
  refine wp_seq (dispatched unmarked) ?_
  intro response committed holds
  refine wp_seq (wp_settle holds) ?_
  exact fun _ _ finished => finished

/-- The space's record and all index definitions can be read. -/
structure Readable (space : String) (kv : KV) : Prop where
  record : ∀ value, kv.get (SchemaKey.space space) = some value → ∃ record, value = .space record ∧ record.id < 4294967296
  indexes : ∀ spaceId key value, (indexDefPrefix spaceId).covers key = true → kv.get key = some value →
    ∃ index, readIndexDef spaceId key value = .ok index

theorem Readable.declared (readable : Readable space kv) (env : Env)
    (ctx : Ctx) (kind : IndexType) : ∃ indexes, indexesAt env ctx space kv kind = .ok indexes := by
  have id : ∃ id, spaceIdAt ctx space kv = .ok id := by
    unfold spaceIdAt
    cases ctx.spaceId with
    | some id => exact ⟨id, rfl⟩
    | none =>
      cases found : kv.get (.space space) with
      | none => exact ⟨1, rfl⟩
      | some value =>
        obtain ⟨record, rfl, small⟩ := readable.record value found
        exact ⟨record.id, by simp [small]⟩
  obtain ⟨id, same⟩ := id
  have each : ∀ entry ∈ env.arrange (kv.select (indexDefPrefix id).covers),
      ∃ index, readIndexDef id entry.1 entry.2 = .ok index := by
    intro entry mem
    obtain ⟨found, covered⟩ := mem_scan.mp mem
    exact readable.indexes id entry.1 entry.2 covered found
  obtain ⟨indexes, read⟩ := mapM_ok each
  exact ⟨indexes.filter fun index => index.indexType =
    kind, by simp [indexesAt, same, read, bind, Except.bind, pure, Except.pure]⟩

inductive Changes (env : Env) (space : String) (indexes tagIndexes : List IndexDef) : Mutation → KV → KV → Prop where
  | insertVertices {name : String} {rows : List VertexInsert} {kv kv' : KV}
      (effect : InsertsVertices space tagIndexes rows kv kv') :
        Changes env space indexes tagIndexes (.insert (.vertex name rows)) kv kv'
  | insertEdges {name : String} {rows : List EdgeInsert} {kv kv' : KV}
      (effect : InsertsEdges env space indexes tagIndexes rows kv kv') :
        Changes env space indexes tagIndexes (.insert (.edge name rows)) kv kv'
  | updateEdge {plan : UpdatePlan} {target : EdgeUpdateTarget} {kv kv' : KV} (edge : plan.edge = some target)
      (effect : UpdatesEdge env space indexes kv kv') : Changes env space indexes tagIndexes (.update plan) kv kv'
  | updateVertex {plan : UpdatePlan} {kv kv' : KV} (vertex : plan.edge = none)
      (effect : UpdatesVertex space tagIndexes plan kv kv') : Changes env space indexes tagIndexes (.update plan) kv kv'
  | delete {plan : DeletePlan} {kv kv' : KV}
      (effect : DeletesVertices space tagIndexes kv kv') : Changes env space indexes tagIndexes (.delete plan) kv kv'
  | deleteEdge {plan : DeleteEdgePlan} {kv kv' : KV}
      (effect : DeletesEdges env space indexes kv kv') : Changes env space indexes tagIndexes (.deleteEdge plan) kv kv'

/-- What a mutation may rely on is what holds where it starts. -/
def termsAt (env : Env) (space : String) (start : World) : Terms where
  timely := Ahead env start
  closed := Guarded space start.kv
  rooted := Sound space start.kv ∧ AliasesOwned space start.kv
  tended _ := True

theorem ready_termsAt (env : Env) (space : String) (start : World) : Ready env space (termsAt env space start) start :=
  ⟨fun holds => holds, fun holds => holds⟩

theorem wp_perform (mutation : Mutation) (scope : effectiveSpace ctx mutation.space = pure space)
    (declared : indexesAt env ctx space world.kv .edge = .ok indexes)
    (declaredTags : indexesAt env ctx space world.kv .tag = .ok tagIndexes) :
    (mutation.perform ctx).wp (handler env) (Mutates env space (termsAt env space world))
      (fun _ world' => Changes env space indexes tagIndexes mutation world.kv world'.kv) world := by
  have ready := ready_termsAt env space world
  cases mutation with
  | insert plan =>
    cases plan with
    | vertex name rows =>
      exact wp_imp (wp_insertVertices rows scope ready declaredTags trivial trivial)
        fun _ _ => .insertVertices
    | edge name rows =>
      exact wp_imp (wp_insertEdges rows scope ready
        declared declaredTags trivial trivial trivial And.left) fun _ _ => .insertEdges
  | update plan =>
    rw [Mutation.perform, executeUpdate]
    cases edge : plan.edge with
    | some target =>
      exact wp_imp (wp_executeUpdateEdge target scope ready declared trivial)
        fun _ _ => .updateEdge edge
    | none =>
      exact wp_imp (wp_executeUpdateVertex scope ready
        declaredTags trivial trivial trivial And.right) fun _ _ => .updateVertex edge
  | delete plan =>
    refine wp_imp (wp_executeDelete scope ready trivial trivial) ?_
    rintro _ _ ⟨found, deletion, puts, same, -, -, deletes, fenced, marked⟩
    cases declaredTags.symm.trans same
    exact .delete (.intro deletes fenced marked)
  | deleteEdge plan =>
    refine wp_imp (wp_executeDeleteEdge scope ready trivial) ?_
    rintro _ _ ⟨found, deletion, puts, same, -, removing, fenced, result⟩
    cases declared.symm.trans same
    rw [result]
    exact .deleteEdge (.intro removing fenced)

def MutationStep (env : Env) (space : String) (terms : Terms) (world world' : World) : Prop :=
  ∃ op, Mutates env space terms world op ∧ world' = (handler env op world).2

/-- A mutation is committed: its operations lead from the one world to the other. -/
structure Committed (env : Env) (space : String) (ctx : Ctx) (mutation : Mutation) (before after : World) : Prop where
  unmarked : ¬ Dirty space before.kv
  steps : Relation.ReflTransGen (MutationStep env space (termsAt env space before)) before after
  changes : ∃ indexes tagIndexes, indexesAt env (ctx.derive space) space before.kv .edge = .ok indexes ∧
    indexesAt env (ctx.derive space) space before.kv .tag = .ok tagIndexes ∧
    Changes env space indexes tagIndexes mutation before.kv after.kv

theorem effectiveSpace_derive (scope : inferenceScope ctx (.mutate mutation) = some (space, true)) :
    effectiveSpace (ctx.derive space) mutation.space = pure space := by
  unfold effectiveSpace
  split
  · rfl
  · rename_i named
    simp only [inferenceScope, Plan.access, Option.filter_some, named, ne_eq, not_false_eq_true, decide_true, if_true,
      Option.some_or, Option.map_some, Option.some.injEq, Prod.mk.injEq, and_true] at scope
    rw [scope]

theorem Committed.staging (staging : MutationStore.staging (fun _ => True) after op)
    (reached : after.content = before.content ∨ Committed env space ctx mutation before after) :
    (handler env op after).2.content = before.content ∨ Committed env space ctx mutation before (handler env op after).2 := by
  have leaves : op.leavesContent = true := by
    cases op with
    | txNow => rfl
    | kv op => exact staging.1
  rcases reached with content | committed
  · exact .inl ((World.handler_leavesContent leaves).trans content)
  · right
    cases op with
    | txNow => exact ⟨committed.unmarked, committed.steps.tail ⟨.txNow, .tick, rfl⟩, committed.changes⟩
    | kv op =>
      have same : (handler env (.kv op) after).2 = after := by
        cases op <;> first | rfl | cases leaves
      rw [same]
      exact committed

section

variable {world : World} (scope : inferenceScope ctx (.mutate mutation) = some (space, true)) (readable : Readable space world.kv)

include scope readable

theorem wp_executeDmlAtomically (unmarked : ¬ Dirty space world.kv) :
    (executeDmlAtomically env.toLayout ctx mutation).wp (handler env)
      (Advances env space world (Committed env space ctx mutation world))
      (fun _ world' => Committed env space ctx mutation world world') world := by
  obtain ⟨indexes, declared⟩ := readable.declared env (ctx.derive space) .edge
  obtain ⟨tagIndexes, declaredTags⟩ := readable.declared env (ctx.derive space) .tag
  have keeps : ∀ (state : World) (op : Op Key Val), Mutates env space (termsAt env space world) state op →
      Relation.ReflTransGen (MutationStep env space (termsAt env space world)) world state →
      Relation.ReflTransGen (MutationStep env space (termsAt env space world)) world (handler env op state).2 :=
    fun _ op mutates steps => steps.tail ⟨op, mutates, rfl⟩
  have direct : (mutation.perform (ctx.derive space)).wp (handler env)
      (fun state op => Mutates env space (termsAt env space world) state op ∧
        Relation.ReflTransGen (MutationStep env space (termsAt env space world)) world state)
      (fun _ state => Committed env space ctx mutation world state) world :=
    wp_imp (wp_with (wp_perform mutation (effectiveSpace_derive scope) declared declaredTags) keeps .refl)
      fun _ _ reached => ⟨unmarked, reached.2, indexes, tagIndexes, declared, declaredTags, reached.1⟩
  have admits : ∀ (state : World) (op : KvOp Key Val), (Mutates env space (termsAt env space world) state (.kv op) ∧
        Relation.ReflTransGen (MutationStep env space (termsAt env space world)) world state) →
      True ∧ op.readsVersions = false := by
    rintro state op ⟨mutates, -⟩
    have present := mutates.present
    exact ⟨trivial, by cases op <;> first | rfl | cases present⟩
  have advances : ∀ (state : World) (op : Op Key Val), (MutationStore.staging (fun _ => True) state op ∨
        ∃ _ : Response, Committed env space ctx mutation world (handler env op state).2) →
      (state.content = world.content ∨ Committed env space ctx mutation world state) →
      (handler env op state).2.content = world.content ∨
        Committed env space ctx mutation world (handler env op state).2 := by
    rintro state op (staging | ⟨-, committed⟩) reached
    · exact Committed.staging staging reached
    · exact .inr committed
  rw [executeDmlAtomically, scope]
  refine wp_mono (wp_with (MutationStore.wp_atomically MutationStore.closed_any direct admits) advances (.inl rfl)) ?_ ?_
  · rintro state op ⟨permitted, reached⟩
    exact (advances state op permitted reached).elim .waiting .committed
  · rintro _ _ ⟨committed, -⟩
    exact committed

theorem wp_execute_mutate : (execute env.toLayout fuel ctx (.mutate mutation)).wp (handler env)
      (Advances env space world (Committed env space ctx mutation world))
      (fun _ world' => Finished space (Committed env space ctx mutation world) world') world :=
  wp_execute_of_dispatch scope rfl fun unmarked => wp_executeDmlAtomically scope readable unmarked

end

/-- Edge types are redefined.  Unless what they entail stays the same, the space is
marked. -/
structure Redefines (space : String) (kv kv' : KV) : Prop where
  frame : ∀ key, key ≠ inferenceDirty space → (∀ name, key ≠ edge space name) → kv'.get key = kv.get key
  kept : Dirty space kv → Dirty space kv'
  marked : Dirty space kv' ∨ edgeFlags kv' space = edgeFlags kv space

structure Redefined (space : String) (before after : World) : Prop where
  redefines : Redefines space before.kv after.kv
  history : after.content.history = before.content.history

theorem Redefines.refl (space : String) (kv : KV) : Redefines space kv kv := ⟨fun _ _ _ => rfl, id, .inr rfl⟩

theorem Redefined.refl (space : String) (world : World) : Redefined space world world := ⟨.refl space _, rfl⟩

theorem wp_waits {α : Type} {p : Exec α} {done : World → Prop} (looks : p.Only Looks) :
    p.wp (handler env) (Advances env space world done) (fun _ world' => world' = world) world := by
  have same : ∀ (state : World) (op : Op Key Val), Looks op → state = world → (handler env op state).2 = world := by
    rintro _ op permitted rfl
    cases op with
    | txNow => exact permitted.elim
    | kv op => exact KvOp.looks_kv permitted
  refine wp_of_only_with looks ?_ same rfl
  intro state op permitted here
  exact .waiting (by rw [same state op permitted here])

theorem wp_redefine (redefines : Redefines space world.kv ((world.kv.putAll puts).eraseAll deletes)) :
    (batchApply puts deletes [] : Exec Unit).wp (handler env) (Advances env space world (Redefined space world))
      (fun _ world' => Redefined space world world') world :=
  wp_batchApply.mpr ⟨.committed ⟨redefines, rfl⟩, ⟨redefines, rfl⟩⟩

theorem requireSpace_of_scope (unnamed : plan.access.1 = none)
    (scope : inferenceScope ctx plan = some (space, mutates)) : ctx.requireSpace = pure space := by
  simp only [inferenceScope, unnamed, Option.filter_none, Option.none_or, Option.map_eq_some_iff, Prod.mk.injEq] at scope
  obtain ⟨selected, found, rfl, -⟩ := scope
  rw [Ctx.requireSpace, found]

theorem looks_checkSemantics (semantics : SemanticFlags) : (checkSemantics space name semantics).Only Looks := by
  refine only_bind (only_forM _ fun reference _ => ?_) fun _ => only_bind ?_ fun _ => only_forM _ fun reference _ => ?_
  · unfold checkEdgeTarget
    split
    · trivial
    · split
      · trivial
      · refine only_bind (looks_get _) fun found => ?_
        cases found <;> trivial
  · unfold checkChain
    split
    · trivial
    · split
      · trivial
      · refine only_forM _ fun target _ => only_bind (looks_get _) fun found => ?_
        cases found <;> trivial
  · unfold checkClassTarget
    split
    · trivial
    · refine only_bind (looks_get _) fun _ => only_bind (looks_get _) fun _ => ?_
      dsimp only
      split <;> trivial

theorem dirty_marked (kv : KV) (puts : List (Key × Val)) (kept : inferenceDirty space ∉ deletes) :
    Dirty space ((kv.putAll (puts ++ [(inferenceDirty space, .one)])).eraseAll deletes) := by
  rw [Dirty, get_eraseAll, if_neg kept, get_putAll, lastPut_append]
  simp [lastPut]

theorem Redefines.marked_batch (kv : KV) (puts : List (Key × Val))
    (schemas : ∀ key ∈ puts.map Prod.fst ++ deletes, ∃ name, key = edge space name) :
    Redefines space kv ((kv.putAll (puts ++ [(inferenceDirty space, .one)])).eraseAll deletes) := by
  have marker : inferenceDirty space ∉ deletes := by
    intro mem
    obtain ⟨name, same⟩ := schemas _ (mem_append_right _ mem)
    simp [inferenceDirty, edge] at same
  refine ⟨?_, fun _ => dirty_marked kv puts marker, .inl (dirty_marked kv puts marker)⟩
  intro key other schema
  refine Content.get_batch ?_ fun mem => ?_
  · rw [map_append, mem_append, map_singleton, mem_singleton, not_or]
    refine ⟨fun mem => ?_, other⟩
    obtain ⟨name, same⟩ := schemas key (mem_append_left _ mem)
    exact schema name same
  · obtain ⟨name, same⟩ := schemas key (mem_append_right _ mem)
    exact schema name same

theorem wp_createEdge (scope : ctx.requireSpace = pure space) :
    (createEdge ctx plan).wp (handler env) (Advances env space world (Redefined space world))
      (fun _ world' => Redefined space world world') world := by
  rw [createEdge, scope, pure_bind_eq, wp_bind, wp_get]
  refine ⟨.waiting rfl, ?_⟩
  cases world.kv.get (edge space plan.name) with
  | some value =>
    dsimp only
    split
    · exact .refl space world
    · trivial
  | none =>
    refine wp_seq (wp_waits (looks_checkSemantics plan.semantics)) ?_
    rintro _ world rfl
    refine wp_seq (wp_redefine (.marked_batch _ [_] (by simp))) ?_
    exact fun _ _ redefined => redefined

theorem wp_dropEdge (scope : ctx.requireSpace = pure space) :
    (dropEdge ctx name ifExists).wp (handler env) (Advances env space world (Redefined space world))
      (fun _ world' => Redefined space world world') world := by
  unfold dropEdge
  split
  · trivial
  · rw [scope, pure_bind_eq, wp_bind, wp_get]
    refine ⟨.waiting rfl, ?_⟩
    cases world.kv.get (edge space name) with
    | none =>
      dsimp only
      split
      · exact .refl space world
      · trivial
    | some value =>
      refine wp_seq (wp_redefine (.marked_batch _ [] (by simp))) ?_
      exact fun _ _ redefined => redefined

theorem Redefines.columns (found : kv.get (edge space name) = some (.edgeSchema schema))
    (same : altered.semantics = schema.semantics) :
    Redefines space kv (kv.putAll [(edge space name, .edgeSchema altered)]) := by
  have marker : inferenceDirty space ≠ edge space name := by simp [inferenceDirty, edge]
  refine ⟨?_, ?_, .inr ?_⟩
  · intro key _ schemas
    exact get_putAll_of_not_mem (by simpa using schemas name)
  · intro marked
    rw [Dirty, get_putAll_of_not_mem (by simpa using marker)]
    exact marked
  · funext other
    simp only [edgeFlags, Table.putAll, foldl_cons, foldl_nil, get_insert]
    by_cases here : other = name
    · subst here
      simp [found, same]
    · rw [if_neg (by simpa [edge] using here)]

theorem wp_alterEdge (scope : ctx.requireSpace = pure space) :
    (alterEdge ctx name operations).wp (handler env) (Advances env space world (Redefined space world))
      (fun _ world' => Redefined space world world') world := by
  rw [alterEdge, scope, pure_bind_eq, wp_bind, wp_get]
  refine ⟨.waiting rfl, ?_⟩
  cases found : world.kv.get (edge space name) with
  | none => trivial
  | some value =>
    cases value with
    | edgeSchema schema =>
      dsimp only
      rw [wp_bind, wp_ofExcept]
      intro columns _
      rw [fenceSemanticBatch, bind_assoc_eq]
      refine wp_seq (wp_waits looks_loadRelMeta) ?_
      rintro rel world rfl
      refine wp_seq (wp_redefine ?_) fun _ _ redefined => redefined
      split
      · exact .columns found rfl
      · exact .marked_batch _ [_] (by simp)
    | _ => trivial

/-- The space is marked before its derived facts are rebuilt. -/
def Repairing (space : String) (before after : World) : Prop :=
  after.kv = before.kv.insert (inferenceDirty space) .one ∧ after.content.history = before.content.history

theorem wp_checkInference (scope : ctx.requireSpace = pure space)
    (finished : Finished space done world) : (checkInference ctx).wp (handler env)
      (Advances env space before done) (fun _ world' => Finished space done world') world := by
  rw [checkInference, scope, pure_bind_eq, wp_bind]
  exact wp_inferenceIsDirty (finished.progress before) finished

theorem wp_repairInference (scope : ctx.requireSpace = pure space) :
    (repairInference fuel ctx).wp (handler env) (Advances env space world (Repairing space world))
      (fun _ world' => Finished space (Repairing space world) world') world := by
  unfold repairInference
  split
  · trivial
  · rw [scope, pure_bind_eq]
    have repairing : Repairing space world { world with
        content := { world.content with kv := world.kv.insert (inferenceDirty space) .one } } := ⟨rfl, rfl⟩
    have marked : Dirty space (world.kv.insert (inferenceDirty space) .one) := by simp [Dirty]
    have grouped : (do rematerializeSpace fuel ctx space; delete (inferenceDirty space); checkInference ctx : Exec Response) =
        (do rematerializeSpace fuel ctx space; delete (inferenceDirty space)) >>= fun _ => checkInference ctx :=
      (bind_assoc_eq _ _ _).symm
    rw [grouped, wp_bind]
    refine ⟨.committed repairing, ?_⟩
    exact wp_seq (wp_rebuild repairing marked) fun _ final finished => wp_checkInference scope finished

theorem wp_execute_repair (scope : inferenceScope ctx .repairInference = some (space, true)) :
    (execute env.toLayout fuel ctx .repairInference).wp (handler env) (Advances env space world (Repairing space world))
      (fun _ world' => Finished space (Repairing space world) world') world := by
  rw [execute, scope]
  simp only [gate, Plan.isRecovery, if_true, pure_bind_eq, dispatch]
  refine wp_seq (wp_repairInference (requireSpace_of_scope rfl scope)) ?_
  intro response final finished
  rw [settle, bind_assoc_eq, wp_bind]
  refine wp_inferenceIsDirty (finished.progress world) ?_
  have unmarked : ¬ (final.kv.get (inferenceDirty space)).isSome = true := finished.unmarked
  rw [if_neg unmarked]
  exact finished

/-- The effect of a statement that changes a space, once it is committed. -/
def Effect (env : Env) (space : String) (ctx : Ctx) : Plan → World → World → Prop
  | .mutate mutation => Committed env space ctx mutation
  | .createEdge _ | .alterEdge _ _ | .dropEdge _ _ => fun before after => ¬ Dirty space before.kv ∧ Redefined space before after
  | .repairInference => Repairing space
  | _ => fun _ _ => False

/-- The statements on a space that change its graph. -/
def Plan.changesGraph : Plan → Bool
  | .mutate _ | .createEdge _ | .alterEdge _ _ | .dropEdge _ _ | .repairInference => true
  | _ => false

theorem wp_execute_redefine (scope : inferenceScope ctx plan = some (space, true)) (guarded : plan.isRecovery = false)
    (dispatched : (dispatch env.toLayout fuel ctx plan).wp (handler env) (Advances env space world (Redefined space world))
      (fun _ world' => Redefined space world world') world) :
    (execute env.toLayout fuel ctx plan).wp (handler env)
      (Advances env space world fun after => ¬ Dirty space world.kv ∧ Redefined space world after)
      (fun _ world' => Finished space (fun after => ¬ Dirty space world.kv ∧ Redefined space world after) world') world := by
  refine wp_execute_of_dispatch scope guarded fun unmarked => wp_mono dispatched ?_ fun _ _ redefined => ⟨unmarked, redefined⟩
  rintro state op (content | holds | ⟨holds, marked, keeps, history⟩ | ⟨holds, marked, built, cleared, history⟩)
  · exact .waiting content
  · exact .committed ⟨unmarked, holds⟩
  · exact .rebuilding ⟨unmarked, holds⟩ marked keeps history
  · exact .settled ⟨unmarked, holds⟩ marked built cleared history

section

variable {world : World} (changes : plan.changesGraph = true) (scope : inferenceScope ctx plan = some (space, true))
  (readable : Readable space world.kv)

include changes scope readable

theorem wp_execute : (execute env.toLayout fuel ctx plan).wp
      (handler env) (Advances env space world (Effect env space ctx plan world))
      (fun _ world' => Finished space (Effect env space ctx plan world) world') world := by
  cases plan with
  | mutate mutation => exact wp_execute_mutate scope readable
  | createEdge plan => exact wp_execute_redefine scope rfl (wp_createEdge (requireSpace_of_scope rfl scope))
  | alterEdge name operations => exact wp_execute_redefine scope rfl (wp_alterEdge (requireSpace_of_scope rfl scope))
  | dropEdge name ifExists => exact wp_execute_redefine scope rfl (wp_dropEdge (requireSpace_of_scope rfl scope))
  | repairInference => exact wp_execute_repair scope
  | _ => cases changes

theorem visited_execute (visited : reached ∈ (execute env.toLayout fuel ctx plan).visited (handler env) world) :
    Progress space world (Effect env space ctx plan world) reached :=
  Prog.wp_visited (wp_execute changes scope readable) (fun _ _ advances _ => advances) (.waiting rfl) visited

theorem finished_execute (ran : (execute env.toLayout fuel ctx plan).run (handler env) world = (.ok response, reached)) :
    Finished space (Effect env space ctx plan world) reached := by
  have finished := wp_run (wp_execute changes scope readable) ran
  exact finished

end

end ByoriDB.Executor
