import ByoriDB.Executor.EdgeBatch
import ByoriDB.Executor.Merge
import ByoriDB.Executor.Naming

namespace ByoriDB.Executor

variable {insert : EdgeInsert}

open List hiding after
open Data Program Store ByoriDB.Graph

def Inserts (space : String) (kv : KV) (vidType : SpaceVidType) (insert : EdgeInsert) (edge : EdgeData) : Prop :=
  ∃ src dst, Named space kv vidType insert.src src ∧ Named space kv vidType insert.dst dst ∧
    Represents space kv src edge.srcVid ∧ Represents space kv dst edge.dstVid ∧
    edge.edgeType = insert.edgeType ∧ edge.ranking = insert.ranking ∧ edge.properties = insert.props

/-- What the rows add up to over a store. -/
structure Collected (space : String) (indexes : List IndexDef) (kv : KV) (rows : EdgeRows) : Prop where
  asserted : ∀ edge ∈ rows.edges, edge.isInferred = false
  roots : ∀ edge ∈ rows.edges, Root space kv edge.srcVid ∧ Root space kv edge.dstVid
  lands : ∀ edge ∈ rows.edges, Lands space kv edge
  stale : ∀ key, key ∈ rows.viewDeletes ↔
    ∃ edge ∈ rows.edges, ∃ old, kv.get (edge.key space) = some (.edge old) ∧ key ∈ edgeEntries indexes old
  seen : ∀ key, key ∈ rows.seenEdges ↔ key ∈ rows.edges.map (EdgeData.key space)
  deltas : Deltas space kv (kv.putAll (rows.edges.flatMap (edgePair space))) rows.degIn rows.degOut

theorem Collected.nothing (space : String) (indexes : List IndexDef) (kv : KV) :
    Collected space indexes kv ⟨[], [], [], .empty, .empty⟩ :=
  ⟨by simp, by simp, by simp, by simp, by simp, .none space kv⟩

theorem Represents.congr (same : ∀ vid, kv'.get (sameas space vid) = kv.get (sameas space vid))
    (represents : Represents space kv vid rep) : Represents space kv' vid rep := by
  have points : Points space kv' = Points space kv := by
    funext left right
    rw [Points, Points, same]
  rw [Represents, points, root_congr same]
  exact represents

theorem Inserts.later (inserts : Inserts space before.kv vidType insert edge)
    (tended : Tended space .mapping before after) (lasting : Lasting space before.kv after.kv) :
    Inserts space after.kv vidType insert edge := by
  obtain ⟨src, dst, first, second, source, target, rest⟩ := inserts
  have same : ∀ vid, after.kv.get (sameas space vid) = before.kv.get (sameas space vid) :=
    fun vid => tended _ (by simp)
  exact ⟨src, dst, first.lasting lasting, second.lasting lasting, source.congr same, target.congr same, rest⟩

section

theorem Collected.congr (collected : Collected space indexes kv rows)
    (same : ∀ key, region space key ≠ some .mapping → kv'.get key = kv.get key) : Collected space indexes kv' rows where
  asserted := collected.asserted
  roots edge mem := by
    rw [root_congr fun vid => same _ (by simp), root_congr fun vid => same _ (by simp)]
    exact collected.roots edge mem
  lands edge mem value found := by
    rw [same _ (by simp [EdgeData.key])] at found
    exact collected.lands edge mem value found
  stale key := by
    simp only [same (EdgeData.key space _) (by simp [EdgeData.key])]
    exact collected.stale key
  seen := collected.seen
  deltas := by
    have alike : ∀ key, key.kind space = some "edge" → kv'.get key = kv.get key := fun key kind =>
      same key (by rw [region_of_kind kind]; simp [regionOf])
    refine ⟨collected.deltas.counters, fun side edgeType vid => ?_⟩
    rw [collected.deltas.values, degree_congr alike]
    congr 2
    refine (degree_congr (fun key kind => ?_) _).symm
    rw [get_putAll, get_putAll, alike key kind]

theorem Collected.any_asserted (collected : Collected space indexes kv rows)
    (key : Key) (kind : key.kind space = some "edge") :
    ((kv.putAll (rows.edges.flatMap (edgePair space))).get key).any Val.isAsserted =
      (decide (key ∈ rows.edges.map (EdgeData.key space)) || (kv.get key).any Val.isAsserted) := by
  rw [get_putAll]
  cases last : lastPut (rows.edges.flatMap (edgePair space)) key with
  | none =>
    have unlisted := lastPut_eq_none.mp last
    have unseen : key ∉ rows.edges.map (EdgeData.key space) := by
      intro mem
      obtain ⟨edge, listed, rfl⟩ := mem_map.mp mem
      exact unlisted (mem_map.mpr ⟨(edge.key space, .edge edge), mem_flatMap.mpr ⟨edge, listed, by simp [edgePair]⟩, rfl⟩)
    simp [unseen]
  | some value =>
    obtain ⟨edge, listed, pair⟩ := mem_flatMap.mp (mem_of_lastPut last)
    obtain ⟨rfl, same | same⟩ := mem_edgePair pair
    · have mem : key ∈ rows.edges.map (EdgeData.key space) := mem_map.mpr ⟨edge, listed, same.symm⟩
      simp [mem, Val.isAsserted, collected.asserted edge listed]
    · simp [show key = edge.inKey space from same] at kind

theorem Lands.after (lands : Lands space kv edge) (edges : List EdgeData) :
    Lands space (kv.putAll (edges.flatMap (edgePair space))) edge := by
  intro value found
  rw [get_putAll] at found
  cases last : lastPut (edges.flatMap (edgePair space)) (edge.key space) with
  | none =>
    rw [last, Option.none_or] at found
    exact lands value found
  | some stored =>
    rw [last, Option.some_or, Option.some.injEq] at found
    obtain ⟨other, -, pair⟩ := mem_flatMap.mp (mem_of_lastPut last)
    obtain ⟨shape, same | same⟩ := mem_edgePair pair
    · exact ⟨other, found.symm.trans shape, same.symm⟩
    · exact absurd same (by simp [edge_key_eq, edge_inKey_eq])

def EdgeRows.add (space : String) (rows : EdgeRows) (edge : EdgeData) (stale : List Key) (isNew : Bool) : EdgeRows where
  edges := rows.edges ++ [edge]
  viewDeletes := rows.viewDeletes ++ stale
  seenEdges := edge.key space :: rows.seenEdges
  degIn := if isNew then addDelta rows.degIn (indegCounter space edge.edgeType edge.dstVid) 1 else rows.degIn
  degOut := if isNew then addDelta rows.degOut (outdegCounter space edge.edgeType edge.srcVid) 1 else rows.degOut

/-- What an edge replaces, seen after the rows before it. -/
structure Replaces (space : String) (indexes : List IndexDef)
    (kv : KV) (rows : EdgeRows) (edge : EdgeData) (stale : List Key) (isNew : Bool) : Prop where
  lands : Lands space kv edge
  stale : ∀ key, key ∈ rows.viewDeletes ∨ key ∈ stale ↔ key ∈ rows.viewDeletes ∨
    ∃ old, kv.get (edge.key space) = some (.edge old) ∧ key ∈ edgeEntries indexes old
  isNew : isNew = !((kv.putAll (rows.edges.flatMap (edgePair space))).get (edge.key space)).any Val.isAsserted

theorem Collected.add (collected : Collected space indexes kv rows)
    {edge : EdgeData} {stale : List Key} {isNew : Bool} (asserted : edge.isInferred = false)
    (roots : Root space kv edge.srcVid ∧ Root space kv edge.dstVid)
    (replaces : Replaces space indexes kv rows edge stale isNew) :
    Collected space indexes kv (rows.add space edge stale isNew) where
  asserted := forall_mem_append.mpr ⟨collected.asserted, by simpa using asserted⟩
  roots := forall_mem_append.mpr ⟨collected.roots, by simpa using roots⟩
  lands := forall_mem_append.mpr ⟨collected.lands, by simpa using replaces.lands⟩
  stale key := by
    rw [EdgeRows.add, mem_append, replaces.stale, collected.stale]
    simp [mem_append, or_and_right, exists_or]
  seen key := by simp [EdgeRows.add, collected.seen, or_comm, eq_comm]
  deltas := by
    have grows := degree_edgePair asserted (replaces.lands.after rows.edges)
    have after : kv.putAll ((rows.edges ++ [edge]).flatMap (edgePair space)) =
        (kv.putAll (rows.edges.flatMap (edgePair space))).putAll (edgePair space edge) := by
      rw [flatMap_append, putAll_append]
      simp
    simp only [EdgeRows.add, after]
    cases new : isNew with
    | true =>
      refine collected.deltas.add edge 1 fun side edgeType vid => ?_
      have fresh : ((kv.putAll (rows.edges.flatMap (edgePair space))).get (edge.key space)).any Val.isAsserted = false := by
        simpa [new] using replaces.isNew
      rw [grows, fresh]
      simp
    | false =>
      have held : ((kv.putAll (rows.edges.flatMap (edgePair space))).get (edge.key space)).any Val.isAsserted = true := by
        simpa [new] using replaces.isNew
      refine ⟨collected.deltas.counters, fun side edgeType vid => ?_⟩
      have unchanged := grows side edgeType vid
      rw [held] at unchanged
      simp only [Bool.false_eq_true, if_false, if_true, ite_self, Int.add_zero] at unchanged ⊢
      rw [collected.deltas.values, unchanged]

end

theorem wp_validateEdge (vidType : SpaceVidType) (edge : EdgeInsert) :
    (validateEdge space vidType edge).wp (handler env) (Mutates env space terms)
      (fun _ world' => world' = world ∧ edge.props.get inferredMarker = none) world := by
  unfold validateEdge validateEdgeProps
  split
  · trivial
  · rename_i unmarked
    have missing : edge.props.get inferredMarker = none := by simpa using unmarked
    refine wp_imp (wp_looks (only_bind (only_bind (looks_get _) fun stored => ?_) fun _ => only_bind (only_ofExcept _) fun _ =>
      only_ofExcept _)) ?_
    · split
      · trivial
      · exact only_ofExcept _
      · trivial
    · rintro _ _ rfl
      exact ⟨rfl, missing⟩

theorem wp_replacedEdge (declared : indexesAt env ctx space world.kv .edge = .ok indexes)
    (collected : Collected space indexes world.kv rows) :
    (replacedEdge ctx space rows.seenEdges (edge.key space)).wp (handler env) (Mutates env space terms)
      (fun out world' => world' = world ∧ Replaces space indexes world.kv rows edge out.1 out.2) world := by
  have asserted := collected.any_asserted (edge.key space) (kind_edgeKey space edge)
  unfold replacedEdge
  split
  · rename_i seen
    rw [contains_iff_mem, collected.seen] at seen
    refine ⟨rfl, ?_, ?_, ?_⟩
    · obtain ⟨earlier, listed, same⟩ := mem_map.mp seen
      rw [Lands, ← same]
      exact collected.lands earlier listed
    · intro key
      obtain ⟨earlier, listed, same⟩ := mem_map.mp seen
      constructor
      · exact fun mem => .inl (mem.resolve_right not_mem_nil)
      · rintro (old | ⟨old, found, entry⟩)
        · exact .inl old
        · exact .inl ((collected.stale key).mpr ⟨earlier, listed, old, same ▸ found, entry⟩)
    · simp [asserted, seen]
  · rename_i unseen
    rw [contains_iff_mem, collected.seen] at unseen
    rw [wp_bind, wp_get]
    refine ⟨.look rfl, ?_⟩
    cases found : world.kv.get (edge.key space) with
    | none =>
      refine ⟨rfl, ?_, ?_, ?_⟩
      · intro value stored
        rw [found] at stored
        cases stored
      · simp [found]
      · simp [asserted, unseen, found]
    | some value =>
      rw [wp_bind, wp_ofExcept]
      intro old decoded
      obtain ⟨rfl, same⟩ := decodeQueryEdge_key decoded
      refine wp_seq (wp_edgeIndexKeys declared) ?_
      rintro _ world ⟨rfl, rfl⟩
      refine ⟨rfl, ?_, ?_, ?_⟩
      · intro value stored
        rw [found] at stored
        cases stored
        exact ⟨old, rfl, same⟩
      · simp [found]
      · simp [asserted, unseen, found, Val.isAsserted]

theorem wp_insertEdgeRow {rows : EdgeRows} (within : terms.tended .mapping)
    (unmarked : insert.props.get inferredMarker = none)
    (declared : indexesAt env ctx space world.kv .edge = .ok indexes)
    (collected : Collected space indexes world.kv rows) :
    (insertEdgeRow ctx space vidType rows insert).wp (handler env) (Mutates env space terms)
      (fun rows' world' => Tended space .mapping world world' ∧ Collected space indexes world'.kv rows' ∧
        ∃ edge, rows'.edges = rows.edges ++ [edge] ∧ Inserts space world'.kv vidType insert edge) world := by
  refine wp_seq_with (fun w op mutates => Mutates.indexes ctx .edge w op mutates) declared
    (wp_resolveForWrite insert.src within) ?_
  rintro src world₁ ⟨tended₁, named₁⟩ declared₁
  refine wp_seq_with (fun w op mutates => Mutates.indexes ctx .edge w op mutates) declared₁
    (wp_lasting (wp_resolveForWrite insert.dst within)) ?_
  rintro dst world₂ ⟨⟨tended₂, named₂⟩, lasting⟩ declared₂
  have tended := tended₁.trans tended₂
  refine wp_seq (wp_representativeOf src) ?_
  rintro srcRep world₂ ⟨rfl, source⟩
  refine wp_seq (wp_representativeOf dst) ?_
  rintro dstRep world₂ ⟨rfl, target⟩
  have collected₂ := collected.congr tended
  refine wp_seq (wp_replacedEdge declared₂ collected₂) ?_
  rintro ⟨stale, isNew⟩ world₂ ⟨rfl, replaces⟩
  have asserted : (⟨srcRep, dstRep, insert.edgeType, insert.ranking, insert.props⟩ : EdgeData).isInferred = false := by
    simp [EdgeData.isInferred, unmarked]
  exact ⟨tended, collected₂.add asserted ⟨source.2, target.2⟩ replaces, _, rfl, src, dst, named₁.lasting lasting, named₂,
    source, target, rfl, rfl, rfl⟩

theorem wp_insertEdgeRows (inserts : List EdgeInsert) (within : terms.tended .mapping)
    (unmarked : ∀ insert ∈ inserts, insert.props.get inferredMarker = none)
    (declared : indexesAt env ctx space world.kv .edge = .ok indexes)
    (collected : Collected space indexes world.kv rows) :
    (inserts.foldlM (insertEdgeRow ctx space vidType) rows).wp (handler env)
      (Mutates env space terms) (fun rows' world' => Tended space .mapping world world' ∧
      Collected space indexes world'.kv rows' ∧ ∃ edges, rows'.edges = rows.edges ++ edges ∧
        Forall₂ (Inserts space world'.kv vidType) inserts edges) world := by
  induction inserts generalizing world rows with
  | nil => exact ⟨.refl space .mapping world, collected, [], by simp, .nil⟩
  | cons insert rest ih =>
    rw [forall_mem_cons] at unmarked
    refine wp_seq_with (fun w op mutates => Mutates.indexes ctx .edge w op mutates) declared
      (wp_insertEdgeRow within unmarked.1 declared collected) ?_
    rintro rows₁ world₁ ⟨tended₁, collected₁, edge, added, inserts₁⟩ declared₁
    refine wp_imp (wp_lasting (ih unmarked.2 declared₁ collected₁)) ?_
    rintro rows₂ world₂ ⟨⟨tended₂, collected₂, edges, more, inserts₂⟩, lasting⟩
    refine ⟨tended₁.trans tended₂, collected₂, edge :: edges, by rw [more, added, append_assoc]; rfl, .cons ?_ inserts₂⟩
    exact inserts₁.later tended₂ lasting

section

variable (space : String) (indexes : List IndexDef) (rows : EdgeRows)

def insertPuts (edges : List EdgeData) : List (Key × Val) :=
  edges.flatMap (edgePair space) ++ edgeViewPuts space indexes edges

/-- The index entries of replaced edges that are not written again. -/
def insertDeletes : List Key :=
  rows.viewDeletes.filter fun key => !((insertPuts space indexes rows.edges).map Prod.fst).contains key

def insertedStore (kv : KV) (puts : List (Key × Val)) : KV :=
  (kv.putAll puts).eraseAll (insertDeletes space indexes rows)

end

def countedStore (env : Env) (rows : EdgeRows) (kv : KV) : KV :=
  (rows.degIn.toList ++ rows.degOut.toList).foldl env.addCounter kv

inductive CommitsEdges (env : Env) (space : String) (indexes tagIndexes : List IndexDef)
    (rows : EdgeRows) (kv kv' : KV) : Prop where
  | intro {puts : List (Key × Val)} (fenced : FencedPuts space kv (insertPuts space indexes rows.edges) puts)
      (merges : Merges space indexes tagIndexes (rows.edges.map tripleOf)
        (countedStore env rows (insertedStore space indexes rows kv puts)) kv')

theorem edgeEntry_edgeViewPuts : ∀ put ∈ edgeViewPuts space indexes edges, EdgeEntry put.1 := by
  intro put mem
  obtain ⟨entry, -, listed⟩ := mem_flatMap.mp mem
  obtain ⟨index, -, rfl⟩ := mem_map.mp listed
  exact edgeEntry_edgeIndexKey ..

section

section

variable (collected : Collected space indexes kv rows)
include collected

theorem edgeEntry_insertDeletes : ∀ key ∈ insertDeletes space indexes rows, EdgeEntry key := by
  intro key mem
  obtain ⟨edge, -, old, -, entry⟩ := (collected.stale key).mp (mem_filter.mp mem).1
  exact edgeEntry_edgeEntries entry

theorem get_countedStore (other : region space key ≠ some .counter) :
    (countedStore env rows kv').get key = kv'.get key := by
  refine Content.get_addCounters fun mem => ?_
  obtain ⟨delta, listed, rfl⟩ := mem_map.mp mem
  exact other (collected.deltas.inside delta listed)

section

variable (fenced : FencedPuts space kv (insertPuts space indexes rows.edges) puts) (sound : Sound space kv)

include fenced sound

theorem Collected.sound_inserted : Sound space (insertedStore space indexes rows kv puts) :=
  sound.fencedEdges [] fenced edgeEntry_edgeViewPuts (edgeEntry_insertDeletes collected) collected.roots

theorem Collected.sound_counted : Sound space (countedStore env rows (insertedStore space indexes rows kv puts)) :=
  (collected.sound_inserted fenced sound).congr fun _ matters =>
    get_countedStore collected fun inside => not_matters_of_region inside (by simp) (by simp) matters

end

end

theorem wp_commitEdges (ready : Ready env space terms world)
    (declared : indexesAt env ctx space world.kv .edge = .ok indexes)
    (declaredTags : indexesAt env ctx space world.kv .tag = .ok tagIndexes)
    (collected : Collected space indexes world.kv rows) (links : terms.tended .alias)
    (counts : terms.tended .counter) (sound : terms.rooted → Sound space world.kv) :
    (commitEdges ctx space indexes rows).wp (handler env) (Mutates env space terms) (fun _ world' =>
      CommitsEdges env space indexes tagIndexes rows world.kv world'.kv) world := by
  refine wp_seq (wp_fenceSemanticBatch (insertPuts space indexes rows.edges)) ?_
  rintro puts world ⟨fenced, rfl⟩
  refine wp_seq (wp_buildVersions _) ?_
  rintro versions stampedWorld ⟨stamped, changes⟩
  have content := stamped.kv
  have records : Records env space terms stampedWorld puts (insertDeletes space indexes rows) versions := by
    refine records_edges ready fenced edgeEntry_edgeViewPuts (edgeEntry_insertDeletes collected) collected.asserted
      (.nothing space _) (fun _ => collected.roots) stamped ?_
    rw [changes]
    simp [edgeFacts]
  have mutates : Mutates env space terms stampedWorld (.kv (.batchApply puts (insertDeletes space indexes rows) versions)) :=
    .record records
  have ahead : terms.timely → Ahead env stampedWorld := fun assumed =>
    ahead_of_content (ready.ahead assumed) (congrArg Content.history stamped.content) stamped.next
  have merging : Merging env space terms ctx indexes tagIndexes
      (handler env (.kv (.batchApply puts (insertDeletes space indexes rows) versions)) stampedWorld).2 := by
    refine ⟨⟨fun assumed => mutates.ahead (ahead assumed), fun assumed => ?_⟩, ?_, ?_⟩
    · change Fenced space ((stampedWorld.kv.putAll puts).eraseAll (insertDeletes space indexes rows))
      rw [content]
      exact (ready.guarded assumed).fencedEdges [] fenced edgeEntry_edgeViewPuts
        (edgeEntry_insertDeletes collected) collected.asserted
    · exact mutates.indexes ctx .edge _ _ (content ▸ declared)
    · exact mutates.indexes ctx .tag _ _ (content ▸ declaredTags)
  rw [wp_bind, wp_batchApply]
  refine ⟨mutates, ?_⟩
  have inserted : (handler env (.kv (.batchApply puts (insertDeletes space indexes rows) versions)) stampedWorld).2.kv =
      insertedStore space indexes rows world.kv puts := by
    change (stampedWorld.kv.putAll puts).eraseAll _ = _
    rw [content]
    rfl
  refine wp_seq_with Mutates.merging merging (wp_applyDegrees counts collected.deltas.inside) ?_
  intro _ counted tallied merging'
  have tallied : counted.kv = countedStore env rows (insertedStore space indexes rows world.kv puts) := by
    rw [tallied, ← inserted]
    rfl
  refine wp_seq (wp_mergeSameasTriples links counts merging' ?_) ?_
  · intro assumed
    rw [tallied]
    exact collected.sound_counted fenced (sound assumed)
  · intro _ final merges
    rw [tallied] at merges
    exact .intro fenced merges

end

/-- What `INSERT EDGE` does: new mappings, then the batch and what follows it. -/
inductive InsertsEdges (env : Env) (space : String) (indexes tagIndexes : List IndexDef)
    (inserts : List EdgeInsert) (kv kv' : KV) : Prop where
  | intro {vidType : SpaceVidType} {mapped : KV} {rows : EdgeRows} (type : vidTypeAt space kv = some vidType)
      (mapping : ∀ key, region space key ≠ some .mapping → mapped.get key = kv.get key) (lasting : Lasting space kv mapped)
      (collected : Collected space indexes mapped rows)
      (inserted : Forall₂ (Inserts space mapped vidType) inserts rows.edges)
      (commits : CommitsEdges env space indexes tagIndexes rows mapped kv')

theorem wp_insertEdges (inserts : List EdgeInsert)
    (scope : effectiveSpace ctx planSpace = pure space) (ready : Ready env space terms world)
    (declared : indexesAt env ctx space world.kv .edge = .ok indexes)
    (declaredTags : indexesAt env ctx space world.kv .tag = .ok tagIndexes)
    (mappings : terms.tended .mapping) (links : terms.tended .alias)
    (counts : terms.tended .counter) (sound : terms.rooted → Sound space world.kv) :
    (insertEdges ctx planSpace inserts).wp (handler env) (Mutates env space terms) (fun _ world' =>
      InsertsEdges env space indexes tagIndexes inserts world.kv world'.kv) world := by
  rw [insertEdges, scope, pure_bind_eq]
  refine wp_seq wp_spaceVidType ?_
  rintro vidType world ⟨rfl, type⟩
  refine wp_seq (wp_mutationIndexes ctx .edge) ?_
  rintro found world ⟨rfl, same⟩
  rw [declared, Except.ok.injEq] at same
  subst same
  refine wp_seq (Prog.wp_forM_each _ fun edge => wp_validateEdge vidType edge) ?_
  rintro _ world ⟨rfl, unmarked⟩
  have keeps : ∀ (state : World) (op : Op Key Val), Mutates env space terms state op →
      (Ready env space terms state ∧ Lasting space world.kv state.kv ∧
        indexesAt env ctx space state.kv .edge = .ok indexes ∧
        indexesAt env ctx space state.kv .tag = .ok tagIndexes) →
      Ready env space terms (handler env op state).2 ∧ Lasting space world.kv (handler env op state).2.kv ∧
        indexesAt env ctx space (handler env op state).2.kv .edge = .ok indexes ∧
        indexesAt env ctx space (handler env op state).2.kv .tag = .ok tagIndexes := by
    rintro state op mutates ⟨ready, lasting, edges, tags⟩
    exact ⟨mutates.ready _ _ ready, lasting.trans mutates.lasting, mutates.indexes ctx .edge _ _ edges,
      mutates.indexes ctx .tag _ _ tags⟩
  refine wp_seq_with keeps ⟨ready, .refl space _, declared, declaredTags⟩
    (wp_insertEdgeRows inserts mappings unmarked declared (.nothing space indexes _)) ?_
  rintro rows mapped ⟨tended, collected, edges, shape, made⟩ ⟨ready', lasting, declared', declaredTags'⟩
  have sound' : terms.rooted → Sound space mapped.kv := fun assumed => (sound assumed).congr fun key matters =>
    tended key fun inside => not_matters_of_region inside (by simp) (by simp) matters
  refine wp_imp (wp_commitEdges ready' declared' declaredTags' collected links counts sound') ?_
  intro _ final commits
  have all : rows.edges = edges := by simpa using shape
  exact .intro type tended lasting collected (all ▸ made) commits

end ByoriDB.Executor
