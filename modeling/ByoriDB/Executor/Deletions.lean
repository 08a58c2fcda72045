import ByoriDB.Executor.MergeImage
import ByoriDB.Executor.Vectors

namespace ByoriDB.Executor

open List Data Program Store ByoriDB.Graph

/-- How many records of a sort are none any more. -/
def removed (records : Key → Val → Bool) (before after : KV) : Nat :=
  before.count fun key value => records key value && !(after.get key).any (records key)

def vertexRecord (space : String) (key : Key) (_ : Val) : Bool := key.kind space = some "vertex"

def assertedRecord (space : String) (key : Key) (value : Val) : Bool :=
  key.kind space = some "edge" && value.isAsserted

/-- The stored vertices that the references of a DELETE VERTEX name, those that pass its condition. -/
def DeletePlan.reached (env : Env) (ctx : Ctx) (space : String) (world : World) (plan : DeletePlan) : List Int :=
  (plan.vids.filterMap (denoted env ctx space world)).filter (deletable plan.conditions space world.kv)

theorem removed_eq_dedup {records : Key → Val → Bool} {keys : List Key} {kv kv' : KV}
    (held : ∀ key ∈ keys, ∃ value, kv.get key = some value ∧ records key value = true)
    (left : ∀ key value, records key value = true → kv'.get key = if key ∈ keys then none else kv.get key) :
    removed records kv kv' = keys.dedup.length := by
  refine Table.count_eq_dedup fun key => ⟨fun mem => ?_, ?_⟩
  · obtain ⟨value, found, counts⟩ := held key mem
    exact ⟨value, found, by simp [counts, left key value counts, mem]⟩
  · rintro ⟨value, found, gone⟩
    rw [Bool.and_eq_true] at gone
    by_contra other
    rw [left key value gone.1, if_neg other, found, Option.any_some, gone.1] at gone
    cases gone.2

/-- Records that are rebuilt alike are removed alike. -/
theorem removed_congr {records : Key → Val → Bool} {kv middle final : KV}
    (same : ∀ key value, records key value = true → (final.get key).any (records key) = (middle.get key).any (records key)) :
    removed records kv final = removed records kv middle := by
  unfold removed
  congr 1
  funext key value
  cases record : records key value with
  | false => rfl
  | true => rw [same key value record]

theorem removed_vertices (deletes : Deletes space kv deletion) (fenced : FencedPuts
      space (kv.eraseAll (droppedEntries space indexes kv deletion.vids)) [] puts) (marked : Marked
      space (((kv.eraseAll (droppedEntries space indexes kv deletion.vids)).putAll puts).eraseAll
      (deletion.vids.map (Key.vertex space) ++ deletion.viewDeletes)) kv') :
    removed (vertexRecord space) kv kv' = (deletion.vids.map (Key.vertex space)).dedup.length := by
  refine removed_eq_dedup ?_ fun key _ record => ?_
  · intro key mem
    obtain ⟨vid, listed, rfl⟩ := mem_map.mp mem
    obtain ⟨vertex, found, -⟩ := deletes.stored vid listed
    exact ⟨_, found, by simp [vertexRecord]⟩
  · have kind : key.kind space = some "vertex" := by simpa [vertexRecord] using record
    have plain : region space key = none := region_of_kind kind
    have view : key ∉ deletion.viewDeletes := fun mem => by
      obtain ⟨vid, -, vertex, -, tag | ⟨prop, -, rfl⟩⟩ := (deletes.views key).mp mem
      · obtain ⟨tag, -, rfl⟩ := mem_map.mp tag
        simp at kind
      · simp at kind
    rw [get_deleted fenced marked (not_tagEntry space (by simp [plain])) (by simp [kind]) ?_]
    · simp [view]
    · rintro rfl
      simp at kind

theorem removed_edges (removing : Removing space indexes kv deletion) (fenced : FencedPuts space kv [] puts) :
    removed (assertedRecord space) kv (removedStore env space deletion kv puts) = deletion.edges.length := by
  have gone : removed (assertedRecord space) kv (removedStore env space deletion kv puts) =
      (deletion.edges.map (EdgeData.key space)).dedup.length := by
    refine removed_eq_dedup ?_ fun key _ record => ?_
    · intro key mem
      obtain ⟨edge, listed, rfl⟩ := mem_map.mp mem
      obtain ⟨found, asserted⟩ := removing.asserts edge listed
      exact ⟨_, found, by simp [assertedRecord, Val.isAsserted, asserted]⟩
    · have kind : key.kind space = some "edge" := by
        simp only [assertedRecord, Bool.and_eq_true, decide_eq_true_eq] at record
        exact record.1
      have reverse : key ∉ deletion.edges.map (EdgeData.inKey space) := by
        intro mem
        obtain ⟨edge, -, rfl⟩ := mem_map.mp mem
        simp at kind
      have plain : region space key = none := region_of_kind kind
      have entry : key ∉ deletion.indexKeys := fun mem =>
        not_edgeEntry space (by simp [plain]) (edgeEntry_indexKeys removing key mem)
      rw [removedStore, get_addCounters_of_region removing.deltas.inside (by simp [plain]), get_eraseAll, fenced.get ?_]
      · simp [edgeKeys, reverse, entry]
      · rintro rfl
        simp at kind
  rw [gone, removing.distinct.dedup, length_map]

theorem Refreshes.any_asserted (refreshes : Refreshes space kv kv') (record : assertedRecord space key value = true) :
    (kv'.get key).any (assertedRecord space key) = (kv.get key).any (assertedRecord space key) := by
  simp only [assertedRecord, Bool.and_eq_true, decide_eq_true_eq] at record
  have through : ∀ found : Option Val, found.any (assertedRecord space key) = (found.filter Val.isAsserted).isSome := by
    intro found
    cases found <;> simp [assertedRecord, record.1, Option.isSome_filter]
  rw [through, through, refreshes.asserted key record.1]

/-- What a mutation answers is known of the store that it leaves before derived facts are rebuilt. -/
theorem finished_response {terms : Terms} {mutation : Mutation} {post : Response → World → Prop}
    (scope : inferenceScope ctx (.mutate mutation) = some (space, true))
    (performs : (mutation.perform (ctx.derive space)).wp (handler env) (Mutates env space terms) post world)
    (ran : (execute env.toLayout fuel ctx (.mutate mutation)).run (handler env) world = (.ok response, final)) :
    Finished space (post response) final := by
  have admits : ∀ (state : World) (op : KvOp Key Val), Mutates env space terms state (.kv op) →
      True ∧ op.readsVersions = false := by
    intro state op mutates
    have present := mutates.present
    exact ⟨trivial, by cases op <;> first | rfl | cases present⟩
  have executes : (execute env.toLayout fuel ctx (.mutate mutation)).wp (handler env) (fun _ _ => True)
      (fun response final => Finished space (post response) final) world := by
    rw [execute, scope]
    simp only [gate, Plan.isRecovery, Bool.false_eq_true, if_true, if_false]
    apply wp_seq (wp_ensureInferenceClean trivial)
    rintro _ world ⟨rfl, -⟩
    rw [dispatch, executeDmlAtomically, scope]
    apply wp_seq (wp_mono (MutationStore.wp_atomically MutationStore.closed_any performs admits)
      (fun _ _ _ => trivial) fun _ _ => id)
    intro response committed holds
    have settles : (settle fuel ctx space).wp (handler env) (Advances env space committed (post response))
        (fun _ final => Finished space (post response) final) committed := wp_settle holds
    apply wp_seq (wp_mono settles (fun _ _ _ => trivial) fun _ _ => id)
    exact fun _ _ finished => finished
  have finished := wp_run executes ran
  exact finished

section

variable (env : Env) (ctx : Ctx) (space : String) (fuel : Nat) (world final : World) (response : Response)

/-- A DELETE VERTEX reports how many vertices it removes if and only if no two of its
references name one stored vertex; a DELETE EDGE always reports how many asserted edges it removes. -/
theorem deletions_reported :
    (∀ plan : DeletePlan, inferenceScope ctx (.mutate (.delete plan)) = some (space, true) →
      (execute env.toLayout fuel ctx (.mutate (.delete plan))).run (handler env) world = (.ok response, final) →
      (response = counted "Deleted" (removed (vertexRecord space) world.kv final.kv) ↔
        (plan.reached env (ctx.derive space) space world).Nodup)) ∧
    ∀ plan : DeleteEdgePlan, inferenceScope ctx (.mutate (.deleteEdge plan)) = some (space, true) →
      (execute env.toLayout fuel ctx (.mutate (.deleteEdge plan))).run (handler env) world = (.ok response, final) →
      response = counted "Deleted" (removed (assertedRecord space) world.kv final.kv) := by
  have ready := ready_termsAt env space world
  constructor
  · intro plan scope ran
    have finished := finished_response scope (wp_executeDelete (effectiveSpace_derive scope) ready trivial trivial) ran
    obtain ⟨middle, ⟨indexes, deletion, puts, -, reached, rfl, deletes, fenced, marked⟩, refreshes⟩ := finished.refreshes
    have injective : Function.Injective (Key.vertex space) := fun a b same => by simpa [Key.vertex] using same
    have same : removed (vertexRecord space) world.kv final.kv = removed (vertexRecord space) world.kv middle.kv :=
      removed_congr fun key _ record => by rw [refreshes.vertices key (of_decide_eq_true record)]
    rw [same, DeletePlan.reached, ← reached, removed_vertices deletes fenced marked, dedup_map_of_injective injective, length_map]
    simp only [counted, Response.mk.injEq, List.cons.injEq, Value.int.injEq, and_true, true_and, Int.natCast_inj]
    constructor
    · intro same
      rw [← (dedup_sublist deletion.vids).eq_of_length same.symm]
      exact nodup_dedup _
    · intro distinct
      rw [distinct.dedup]
  · intro plan scope ran
    have finished := finished_response scope (wp_executeDeleteEdge (effectiveSpace_derive scope) ready trivial) ran
    obtain ⟨middle, ⟨indexes, deletion, puts, -, rfl, removing, fenced, result⟩, refreshes⟩ := finished.refreshes
    rw [removed_congr fun key _ record => refreshes.any_asserted record, result, removed_edges removing fenced]

end

def deleteVertices (vids : List Int) : Plan := .mutate (.delete ⟨"g", vids.map .int, none⟩)

def near (src dst : Int) : EdgeInsert := ⟨.int src, .int dst, "near", 0, .empty⟩

def nearby : World :=
  [.createEdge ⟨"near", false, [], { symmetric := true }⟩, insertEdge [near 1 2, near 2 1]].foldl after freshSpace

def deleteNear : Plan := .mutate (.deleteEdge ⟨"g", "near", [(.int 1, .int 2, 0), (.int 1, .int 2, 0)]⟩)

/-- A vertex is named once; an edge, which is then derived from its converse, is named twice. -/
theorem deletions_reported_named : (∃ response,
      (execute recordLayout 10 graphCtx (deleteVertices [1, 2])).run (handler graphEnv) vectored =
        (.ok response, after vectored (deleteVertices [1, 2])) ∧ response = counted "Deleted"
        (removed (vertexRecord "g") vectored.kv (after vectored (deleteVertices [1, 2])).kv)) ∧
    ∃ response, (execute recordLayout 10 graphCtx deleteNear).run (handler graphEnv) nearby =
      (.ok response, after nearby deleteNear) ∧ response =
      counted "Deleted" (removed (assertedRecord "g") nearby.kv (after nearby deleteNear).kv) := by
  obtain ⟨response, ran⟩ := @ran_after vectored (deleteVertices [1, 2]) (by decide +kernel)
  obtain ⟨response', ran'⟩ := @ran_after nearby deleteNear (by decide +kernel)
  exact ⟨⟨response, ran, ((deletions_reported graphEnv graphCtx "g" 10 _ _ _).1 _ rfl ran).mpr (by decide +kernel)⟩,
    response', ran', (deletions_reported graphEnv graphCtx "g" 10 _ _ _).2 _ rfl ran'⟩

def reportedNumber : Except ExecutionError Response → Option Int
  | .ok ⟨_, [[.int number]]⟩ => some number
  | _ => none

/-- `DELETE VERTEX 1, 1` removes one vertex and reports two. -/
theorem deletions_overcounted : Runs graphEnv "g" vectorTags vectored ∧
    reportedNumber ((execute recordLayout 10 graphCtx (deleteVertices [1, 1])).run (handler graphEnv) vectored).1 = some 2 ∧
      removed (vertexRecord "g") vectored.kv (after vectored (deleteVertices [1, 1])).kv = 1 :=
  ⟨runs_vectored, by decide +kernel, by decide +kernel⟩

end ByoriDB.Executor
