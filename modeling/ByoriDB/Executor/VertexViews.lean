import ByoriDB.Executor.Ownership

namespace ByoriDB.Executor

open Data Program Store ByoriDB.Graph

variable {tagIndexes : List IndexDef} {kv kv' : KV}

inductive VertexView (space : String) : Key → Prop where
  | vertex {vid : Int} : VertexView space (SchemaKey.vertex space vid)
  | tag {tag : String} {vid : Int} : VertexView space (tagvid space tag vid)
  | vector {prop : String} {vid : Int} : VertexView space (vecData space prop vid)

section

variable (view : VertexView space key)

include view

theorem VertexView.bystands : Bystands space key := by
  cases view with
  | vertex => exact bystands_vertex
  | tag => exact bystands_region (region_tagvid space _ _) (by simp) (by simp)
  | vector => exact bystands_region (region_vecData space _ _) (by simp) (by simp)

theorem VertexView.aside : Aside space key := by
  cases view with
  | vertex => exact aside_vertex space _
  | tag => exact aside_of_region (region_tagvid space _ _) (by simp)
  | vector => exact aside_of_region (region_vecData space _ _) (by simp)

theorem VertexView.kind : ∃ kind ∈ ["vertex", "tagvid", "vec"], key.kind space = some kind := by
  cases view <;> simp

end

/-- What depends on these keys alone and is kept by the merge of two vertices and by
the statements on vertices; updates may have to meet a condition. -/
structure OfVertices (space : String) (meets : KV → UpdatePlan → Prop) (inv : KV → Prop) : Prop where
  congr : ∀ {kv kv'}, inv kv → (∀ key, VertexView space key → kv'.get key = kv.get key) → inv kv'
  merges : ∀ {tagIndexes winner loser kv merged}, MergesVertex space tagIndexes winner loser kv merged → winner ≠ loser →
    inv kv → inv merged
  inserts : ∀ {tagIndexes rows kv kv'}, InsertsVertices space tagIndexes rows kv kv' → inv kv → inv kv'
  updates : ∀ {tagIndexes plan kv kv'}, UpdatesVertex space tagIndexes plan kv kv' → VerticesOwned space kv → meets kv plan →
    inv kv → inv kv'
  deletes : ∀ {tagIndexes kv kv'}, DeletesVertices space tagIndexes kv kv' → inv kv → inv kv'

section

variable (own : OfVertices space meets inv)
include own

theorem OfVertices.collapses (collapses : Collapses space indexes tagIndexes winner loser kv kv')
    (apart : winner ≠ loser) (holds : inv kv) : inv kv' := by
  obtain ⟨-, types, vertex, links⟩ := collapses
  have typed := own.congr holds fun key view =>
    (types.rest key (by cases view <;> simp)).trans (get_movedEdges_aside view.aside _)
  refine own.congr (own.merges vertex apart typed) fun key view => links.rest key ?_ ?_
  · cases view <;> simp [Key.vertex, tagvid, vecData, sameas]
  · cases view <;> simp [Key.vertex, tagvid, vecData, sameasMember]

theorem OfVertices.mergesAll (merges : MergesAll space indexes tagIndexes triples kv count kv')
    (holds : inv kv) : inv kv' := by
  induction merges with
  | nil => exact holds
  | skip _ _ ih => exact ih holds
  | merge _ _ _ apart collapses _ ih => exact ih (own.collapses collapses (Int.ne_of_lt (min_lt_max_of_ne apart)) holds)

theorem OfVertices.mergesAny (merges : Merges space indexes tagIndexes triples kv kv') (holds : inv kv) : inv kv' := by
  cases merges with
  | none merges => exact own.mergesAll merges holds
  | some merges _ rest => exact own.congr (own.mergesAll merges holds) fun key view => rest key (by cases view <;> simp)

theorem OfVertices.insertEdges (inserted : InsertsEdges env space indexes tagIndexes rows kv kv')
    (holds : inv kv) : inv kv' := by
  obtain ⟨-, mapping, -, collected, -, ⟨fenced, merges⟩⟩ := inserted
  have mapped := own.congr holds fun key view => mapping key (by cases view <;> simp)
  exact own.mergesAny merges (own.congr mapped fun _ view => collected.get_bystands view.bystands fenced)

theorem OfVertices.redefines (redefines : Redefines space kv kv') (holds : inv kv) : inv kv' := by
  refine own.congr holds fun key view => ?_
  obtain ⟨kind, among, has⟩ := view.kind
  refine redefines.get_eq has ?_ ?_ <;> rintro rfl <;> simp at among

theorem OfVertices.rebuilds (keeps : KeepsAssertions space kv kv') (holds : inv kv) : inv kv' := by
  refine own.congr holds fun key view => ?_
  cases view <;> exact keeps.other _ (by simp) (by simp [derivedKinds])

theorem OfVertices.unmark (holds : inv kv) : inv (kv.erase (inferenceDirty space)) := by
  refine own.congr holds fun key view => ?_
  cases view <;> simp [Key.vertex, tagvid, vecData, inferenceDirty]

theorem OfVertices.committed {before after : World}
    (committed : Committed env space ctx mutation before after) (healthy : Healthy space before.kv)
    (met : ∀ plan, mutation = .update plan → plan.edge = none → meets before.kv plan)
    (holds : inv before.kv) : inv after.kv := by
  obtain ⟨indexes, tagIndexes, -, -, changes⟩ := committed.changes
  cases changes with
  | insertVertices effect => exact own.inserts effect holds
  | insertEdges effect => exact own.insertEdges effect holds
  | updateEdge _ effect => exact own.congr holds fun _ view => effect.get_bystands view.bystands
  | updateVertex vertex effect => exact own.updates effect healthy.uses.vertices (met _ rfl vertex) holds
  | delete effect => exact own.deletes effect holds
  | deleteEdge effect => exact own.congr holds fun _ view => effect.get_bystands view.bystands

theorem OfVertices.effect {before after : World} (effect : Effect env space ctx plan before after)
    (healthy : Healthy space before.kv)
    (met : ∀ update, plan = .mutate (.update update) → update.edge = none → meets before.kv update)
    (holds : inv before.kv) : inv after.kv := by
  cases plan with
  | mutate mutation =>
    refine own.committed effect healthy (fun update same => met update ?_) holds
    rw [same]
  | createEdge | alterEdge | dropEdge => exact own.redefines effect.2.redefines holds
  | repairInference =>
    rw [effect.1]
    exact own.redefines (.mark space _) holds
  | _ => exact effect.elim

/-- What is kept holds in every state of a run whose updates meet the condition. -/
theorem OfVertices.run {step : World → Plan → Prop} {start reached : World}
    (met : ∀ world update, step world (.mutate (.update update)) → update.edge = none → meets world.kv update)
    (readable : Readable space start.kv) (healthy : Healthy space start.kv) (holds : inv start.kv)
    (run : MeetingRuns env space step start reached) : inv reached.kv := by
  induction run with
  | refl => exact holds
  | @tail middle _ earlier next ih =>
    have runs := MeetingRuns.runs earlier
    cases next with
    | statement fuel ctx plan changes scope meeting visited =>
      have effect := fun {after : World} (effect : Effect env space ctx plan middle after) =>
        own.effect effect (runs.healthy readable healthy) (fun update same => met middle update (same ▸ meeting)) ih
      cases visited_execute changes scope (runs.readable readable) visited with
      | waiting content => exact kv_congr content ▸ ih
      | committed done => exact effect done
      | rebuilding done _ kept _ => exact own.rebuilds kept (effect done)
      | settled done _ built cleared _ =>
        rw [cleared]
        exact own.unmark (own.rebuilds built.keeps (effect done))
    | restart => exact ih
    | elsewhere same _ =>
      refine own.congr ih fun key view => same key ?_
      obtain ⟨kind, -, has⟩ := view.kind
      exact concerns_kind has

end

end ByoriDB.Executor
