import ByoriDB.Executor.InsertEdges

namespace ByoriDB.Executor

open List Data Program Store ByoriDB.Graph

@[simp] theorem isInferred_updatedEdge (updates : Props) : (updatedEdge old updates).isInferred = false := by
  simp [EdgeData.isInferred, updatedEdge]

@[simp] theorem key_updatedEdge (updates : Props) : (updatedEdge old updates).key space = old.key space := rfl

def updatePuts (space : String) (indexes : List IndexDef) (old new : EdgeData) : List (Key × Val) :=
  [new].flatMap (edgePair space) ++ (indexMoves indexes old new).map fun move => (move.2, .empty)

/-- The changes of the counters at one end: an edge that was inferred counts now. -/
def promotion (old : EdgeData) (counter : Key) : Table Key Int :=
  if old.isInferred then addDelta .empty counter 1 else .empty

def updatedStore (env : Env) (space : String) (indexes : List IndexDef)
    (old new : EdgeData) (kv : KV) (puts : List (Key × Val)) : KV :=
  ((promotion old (indegCounter space old.edgeType old.dstVid)).toList ++
    (promotion old (outdegCounter space old.edgeType old.srcVid)).toList).foldl env.addCounter
      ((kv.putAll puts).eraseAll ((indexMoves indexes old new).map Prod.fst))

inductive UpdatesEdge (env : Env) (space : String) (indexes : List IndexDef) (kv : KV) : KV → Prop where
  | idle : UpdatesEdge env space indexes kv kv
  | rewritten {old : EdgeData} {updates : Props} {puts : List (Key × Val)} (stored : kv.get (old.key space) = some (.edge old))
      (roots : Root space kv old.srcVid ∧ Root space kv old.dstVid)
      (fenced : FencedPuts space kv (updatePuts space indexes old (updatedEdge old updates)) puts) :
      UpdatesEdge env space indexes kv (updatedStore env space indexes old (updatedEdge old updates) kv puts)

theorem edgeEntry_indexMoves (mem : move ∈ indexMoves indexes old new) : EdgeEntry move.1 ∧ EdgeEntry move.2 := by
  obtain ⟨index, -, made⟩ := mem_filterMap.mp mem
  dsimp only at made
  split at made
  · cases made
  · cases made
    exact ⟨edgeEntry_edgeIndexKey .., edgeEntry_edgeIndexKey ..⟩

theorem edgeEntry_movedTo :
    ∀ put ∈ (indexMoves indexes old new).map (fun move => (move.2, Val.empty)), EdgeEntry put.1 := by
  intro put mem
  obtain ⟨move, listed, rfl⟩ := mem_map.mp mem
  exact (edgeEntry_indexMoves listed).2

theorem edgeEntry_movedFrom : ∀ key ∈ (indexMoves indexes old new).map Prod.fst, EdgeEntry key := by
  intro key mem
  obtain ⟨move, listed, rfl⟩ := mem_map.mp mem
  exact (edgeEntry_indexMoves listed).1

theorem toList_addDelta_empty : (addDelta .empty key delta).toList = [(key, delta)] := by
  have single : addDelta .empty key delta = Table.ofList [(key, delta)] := by
    simp [addDelta, Table.ofList]
  rw [single, toList_ofList (pairwise_singleton ..)]

theorem toList_empty : (Table.empty : Table Key Int).toList = [] :=
  toList_ofList .nil

theorem wp_countPromoted (old : EdgeData) (within : terms.tended .counter) :
    (countPromoted space old).wp (handler env) (Mutates env space terms) (fun _ world' =>
      world'.kv = ((promotion old (indegCounter space old.edgeType old.dstVid)).toList ++
          (promotion old (outdegCounter space old.edgeType old.srcVid)).toList).foldl
          env.addCounter world.kv) world := by
  have only : (countPromoted space old).Only (TendsTo space .counter []) := tends_countPromoted
  unfold countPromoted at only ⊢
  by_cases inferred : old.isInferred = true
  · rw [if_pos inferred] at only ⊢
    simp only [promotion, if_pos inferred, toList_addDelta_empty]
    rcases only.1 with reads | tends
    · cases reads
    · exact ⟨.tend within tends (by simp), rfl⟩
  · simp only [promotion, if_neg inferred, toList_empty]
    exact rfl

theorem wp_rewriteEdge (updates : Props) (ready : Ready env space terms world)
    (declared : indexesAt env ctx space world.kv .edge = .ok indexes)
    (stored : world.kv.get (old.key space) = some (.edge old))
    (roots : Root space world.kv old.srcVid ∧ Root space world.kv old.dstVid)
    (counts : terms.tended .counter) :
    (rewriteEdge ctx space old updates).wp (handler env) (Mutates env space terms)
      (fun _ world' => UpdatesEdge env space indexes world.kv world'.kv) world := by
  refine wp_seq (wp_mutationIndexes ctx .edge) ?_
  rintro found world ⟨rfl, same⟩
  rw [declared, Except.ok.injEq] at same
  subst same
  refine wp_seq (wp_fenceSemanticBatch (updatePuts space indexes old (updatedEdge old updates))) ?_
  rintro puts world ⟨fenced, rfl⟩
  refine wp_seq (wp_buildVersions _) ?_
  rintro versions stampedWorld ⟨stamped, changes⟩
  have records : Records env space terms stampedWorld puts
      ((indexMoves indexes old (updatedEdge old updates)).map Prod.fst) versions := by
    refine records_edges ready fenced edgeEntry_movedTo edgeEntry_movedFrom (by simp) (.nothing space _)
      (fun _ => by simpa [updatedEdge] using roots) stamped ?_
    rw [changes]
    simp [edgeFacts]
  rw [wp_bind, wp_batchApply]
  refine ⟨.record records, ?_⟩
  refine wp_seq (wp_countPromoted old counts) ?_
  intro _ final counted
  have result : final.kv = updatedStore env space indexes old (updatedEdge old updates) world.kv puts := by
    rw [counted, updatedStore, ← stamped.kv]
    rfl
  rw [wp_pure, result]
  exact .rewritten stored roots fenced

theorem wp_updateStoredEdge (ready : Ready env space terms world)
    (declared : indexesAt env ctx space world.kv .edge = .ok indexes)
    (source : Root space world.kv src) (target : Root space world.kv dst)
    (counts : terms.tended .counter) :
    (updateStoredEdge ctx space plan (edgeData space src edgeType dst rank)).wp (handler env)
      (Mutates env space terms) (fun _ world' => UpdatesEdge env space indexes world.kv world'.kv) world := by
  rw [updateStoredEdge, wp_bind, wp_get]
  refine ⟨.look rfl, ?_⟩
  cases found : world.kv.get (edgeData space src edgeType dst rank) with
  | none => exact .idle
  | some value =>
    rw [wp_bind, wp_ofExcept]
    intro old decoded
    obtain ⟨rfl, same⟩ := decodeQueryEdge_key decoded
    rw [wp_bind, wp_ofExcept]
    intro pass _
    split
    · have ends : old.srcVid = src ∧ old.dstVid = dst := by
        simp only [EdgeData.key, edgeData, Key.text.injEq, List.cons.injEq, Seg.num.injEq] at same
        exact ⟨same.2.2.1, same.2.2.2.2.1⟩
      exact wp_rewriteEdge plan.updates ready declared (same ▸ found) (ends.1 ▸ ends.2 ▸ ⟨source, target⟩) counts
    · exact .idle

theorem looks_validateEdgeProps (props : Props) : (validateEdgeProps space edgeType props).Only Looks := by
  unfold validateEdgeProps
  split
  · trivial
  · refine only_bind (looks_get _) fun stored => ?_
    split
    · trivial
    · exact only_ofExcept _
    · trivial

theorem wp_executeUpdateEdge (target : EdgeUpdateTarget)
    (scope : effectiveSpace ctx plan.space = pure space) (ready : Ready env space terms world)
    (declared : indexesAt env ctx space world.kv .edge = .ok indexes)
    (counts : terms.tended .counter) :
    (executeUpdateEdge ctx plan target).wp (handler env) (Mutates env space terms)
      (fun _ world' => UpdatesEdge env space indexes world.kv world'.kv) world := by
  rw [executeUpdateEdge, scope, pure_bind_eq]
  refine wp_seq (wp_looks looks_spaceVidType) ?_
  rintro vidType world rfl
  rw [wp_bind, wp_ofExcept]
  intro _ _
  rw [wp_bind, wp_ofExcept]
  intro _ _
  refine wp_seq (wp_looks (looks_validateEdgeProps plan.updates)) ?_
  rintro _ world rfl
  refine wp_seq (wp_looks (looks_resolveVid plan.vid)) ?_
  rintro src world rfl
  refine wp_seq (wp_looks (looks_resolveVid target.dst)) ?_
  rintro dst world rfl
  split
  · refine wp_seq (wp_representativeOf _) ?_
    rintro srcRep world ⟨rfl, source⟩
    refine wp_seq (wp_representativeOf _) ?_
    rintro dstRep world ⟨rfl, reached⟩
    exact wp_updateStoredEdge ready declared source.2 reached.2 counts
  · exact .idle

section

variable (env : Env) (space : String) (indexes : List IndexDef) (kv : KV)

structure Removing (deletion : EdgeDeletion) : Prop where
  asserts : Retires space kv deletion.edges
  distinct : (deletion.edges.map (EdgeData.key space)).Nodup
  seen : ∀ edge ∈ deletion.edges, edge.key space ∈ deletion.seenRefs
  entries : ∀ key, key ∈ deletion.indexKeys ↔ ∃ edge ∈ deletion.edges, key ∈ edgeEntries indexes edge
  deltas : Deltas space kv (kv.eraseAll (deletion.edges.map (EdgeData.key space))) deletion.degIn deletion.degOut

theorem Removing.nothing : Removing space indexes kv ⟨[], [], [], .empty, .empty⟩ :=
  ⟨by simp [Retires], by simp, by simp, by simp, .none space kv⟩

def removedStore (deletion : EdgeDeletion) (kv : KV) (puts : List (Key × Val)) : KV :=
  (deletion.degIn.toList ++ deletion.degOut.toList).foldl env.addCounter
    ((kv.putAll puts).eraseAll (edgeKeys space deletion.edges ++ deletion.indexKeys))

end

inductive DeletesEdges (env : Env) (space : String) (indexes : List IndexDef) (kv : KV) : KV → Prop where
  | intro {deletion : EdgeDeletion} {puts : List (Key × Val)} (removing : Removing space indexes kv deletion)
      (fenced : FencedPuts space kv [] puts) : DeletesEdges env space indexes kv (removedStore env space deletion kv puts)

section

theorem Removing.add (removing : Removing space indexes kv deletion)
    (asserts : Asserts space kv edge) (fresh : edge.key space ∉ deletion.seenRefs) :
    Removing space indexes kv {
      edges := deletion.edges ++ [edge]
      indexKeys := deletion.indexKeys ++ edgeEntries indexes edge
      seenRefs := edge.key space :: deletion.seenRefs
      degIn := addDelta deletion.degIn (indegCounter space edge.edgeType edge.dstVid) (-1)
      degOut := addDelta deletion.degOut (outdegCounter space edge.edgeType edge.srcVid) (-1) } := by
  have unlisted : edge.key space ∉ deletion.edges.map (EdgeData.key space) := by
    intro mem
    obtain ⟨other, listed, same⟩ := mem_map.mp mem
    exact fresh (same ▸ removing.seen other listed)
  refine ⟨?_, ?_, ?_, ?_, ?_⟩
  · exact forall_mem_append.mpr ⟨removing.asserts, by simpa using asserts⟩
  · simp only [map_append, map_cons, map_nil, nodup_append, nodup_cons, not_mem_nil,
      not_false_eq_true, nodup_nil, and_self, mem_singleton, true_and]
    refine ⟨removing.distinct, ?_⟩
    rintro key mem _ rfl rfl
    exact unlisted mem
  · intro other mem
    rcases mem_append.mp mem with listed | single
    · exact mem_cons_of_mem _ (removing.seen other listed)
    · simp [mem_singleton.mp single]
  · intro key
    rw [mem_append, removing.entries]
    simp [mem_append, or_and_right, exists_or]
  · refine removing.deltas.add edge (-1) fun side edgeType vid => ?_
    have apart : kv.eraseAll ((deletion.edges ++ [edge]).map (EdgeData.key space)) =
        (kv.eraseAll (deletion.edges.map (EdgeData.key space))).erase (edge.key space) := by
      ext1 key
      simp only [get_eraseAll, get_erase, map_append, map_cons, map_nil, mem_append, mem_singleton]
      by_cases here : key = edge.key space <;> simp [here]
    have held : (kv.eraseAll (deletion.edges.map (EdgeData.key space))).get (edge.key space) = some (.edge edge) := by
      rw [get_eraseAll, if_neg unlisted, asserts.1]
    have whole := degree_erase (kv.eraseAll (deletion.edges.map (EdgeData.key space)))
      (kind_edgeKey space edge) (side.at edgeType vid)
    rw [held] at whole
    rw [apart]
    by_cases here : side.at edgeType vid edge = true
    · simp only [Option.any_some, assertsEdge, asserts.2, here, Bool.not_false, Bool.and_self, if_true] at whole ⊢
      omega
    · simp only [Option.any_some, assertsEdge, asserts.2,
        here, Bool.not_false, Bool.and_false, Bool.false_eq_true, if_false] at whole ⊢
      omega

theorem Removing.see (removing : Removing space indexes kv deletion) (key : Key) :
    Removing space indexes kv { deletion with seenRefs := key :: deletion.seenRefs } where
  asserts := removing.asserts
  distinct := removing.distinct
  seen edge mem := mem_cons_of_mem _ (removing.seen edge mem)
  entries := removing.entries
  deltas := removing.deltas

theorem wp_deleteStoredEdge (removing : Removing space indexes world.kv deletion) :
    (deleteStoredEdge space (indexes.filter fun index => index.schemaName = edgeName) deletion
      (edgeData space src edgeName dst rank)).wp (handler env) (Mutates env space terms)
      (fun deletion' world' => world' = world ∧ Removing space indexes world.kv deletion') world := by
  unfold deleteStoredEdge
  split
  · exact ⟨rfl, removing⟩
  · rename_i unseen
    rw [contains_iff_mem] at unseen
    rw [wp_bind, wp_get]
    refine ⟨.look rfl, ?_⟩
    cases found : world.kv.get (edgeData space src edgeName dst rank) with
    | none => exact ⟨rfl, removing.see _⟩
    | some value =>
      rw [wp_bind, wp_ofExcept]
      intro edge decoded
      obtain ⟨rfl, same⟩ := decodeQueryEdge_key decoded
      have type : edge.edgeType = edgeName := by
        simp only [EdgeData.key, edgeData, Key.text.injEq, List.cons.injEq, Seg.num.injEq, Seg.word.injEq] at same
        exact same.2.2.2.1
      split
      · trivial
      · rename_i asserted
        rw [← same] at found unseen ⊢
        rw [← type]
        exact ⟨rfl, removing.add ⟨found, by simpa using asserted⟩ unseen⟩

theorem wp_deleteEdgeRef (removing : Removing space indexes world.kv deletion) :
    (deleteEdgeRef ctx space vidType edgeName (indexes.filter fun index => index.schemaName =
      edgeName) deletion ref).wp (handler env) (Mutates env space terms) (fun deletion' world' =>
      world' = world ∧ Removing space indexes world.kv deletion') world := by
  refine wp_seq (wp_looks (looks_resolveVid ref.1)) ?_
  rintro src world rfl
  split
  · exact ⟨rfl, removing⟩
  · refine wp_seq (wp_looks (looks_resolveVid ref.2.1)) ?_
    rintro dst world rfl
    split
    · exact ⟨rfl, removing⟩
    · refine wp_seq (wp_representativeOf _) ?_
      rintro srcRep world ⟨rfl, -⟩
      refine wp_seq (wp_representativeOf _) ?_
      rintro dstRep world ⟨rfl, -⟩
      exact wp_deleteStoredEdge removing

theorem edgeEntry_indexKeys (removing : Removing space indexes kv deletion) : ∀ key ∈ deletion.indexKeys, EdgeEntry key := by
  intro key mem
  obtain ⟨edge, -, entry⟩ := (removing.entries key).mp mem
  exact edgeEntry_edgeEntries entry

theorem wp_commitEdgeDeletion (ready : Ready env space terms world)
    (removing : Removing space indexes world.kv deletion) (counts : terms.tended .counter) :
    (commitEdgeDeletion space deletion).wp (handler env) (Mutates env space terms)
      (fun response world' => response = counted "Deleted" deletion.edges.length ∧ ∃ puts,
        FencedPuts space world.kv [] puts ∧
        world'.kv = removedStore env space deletion world.kv puts) world := by
  refine wp_seq (wp_fenceSemanticBatch []) ?_
  rintro puts world ⟨fenced, rfl⟩
  refine wp_seq wp_buildTombstones ?_
  rintro versions stampedWorld ⟨stamped, changes⟩
  have none : FencedPuts space world.kv (([] : List EdgeData).flatMap (edgePair space) ++ []) puts := fenced
  have records : Records env space terms stampedWorld puts (edgeKeys space deletion.edges ++ deletion.indexKeys) versions := by
    refine records_edges ready none (by simp) (edgeEntry_indexKeys removing) (by simp) removing.asserts (by simp) stamped ?_
    rw [changes]
    simp [edgeFacts]
  rw [wp_bind, wp_batchApply]
  refine ⟨.record records, ?_⟩
  refine wp_seq (wp_applyDegrees counts removing.deltas.inside) ?_
  intro _ final counted
  refine ⟨rfl, puts, fenced, ?_⟩
  rw [counted, removedStore, ← stamped.kv]
  rfl

end

theorem wp_executeDeleteEdge (scope : effectiveSpace ctx plan.space = pure space)
    (ready : Ready env space terms world) (counts : terms.tended .counter) :
    (executeDeleteEdge ctx plan).wp (handler env) (Mutates env space terms)
      (fun response world' => ∃ indexes deletion puts, indexesAt env ctx space world.kv .edge =
      .ok indexes ∧ response = counted "Deleted" deletion.edges.length ∧
        Removing space indexes world.kv deletion ∧ FencedPuts space world.kv [] puts ∧
        world'.kv = removedStore env space deletion world.kv puts) world := by
  rw [executeDeleteEdge, scope, pure_bind_eq]
  refine wp_seq (wp_looks looks_spaceVidType) ?_
  rintro vidType world rfl
  split
  · trivial
  · refine wp_seq (wp_mutationIndexes ctx .edge) ?_
    rintro indexes world ⟨rfl, declared⟩
    refine wp_seq (wp_foldlM (fun _ deletion world' => world' = world ∧ Removing space indexes world.kv deletion)
      ?_ ⟨rfl, .nothing space indexes _⟩) ?_
    · rintro ref _ deletion world ⟨rfl, removing⟩
      exact wp_deleteEdgeRef removing
    · rintro deletion world ⟨rfl, removing⟩
      refine wp_imp (wp_commitEdgeDeletion ready removing counts) ?_
      rintro response final ⟨reported, puts, fenced, result⟩
      exact ⟨indexes, deletion, puts, declared, reported, removing, fenced, result⟩

end ByoriDB.Executor
