import ByoriDB.Executor.MergeEdges

namespace ByoriDB.Executor

open List Data Program Store ByoriDB.Graph

variable {space : String}

/-- Nothing but inferred types was moved, and none is left at the old vertex. -/
structure MovesTypes (space : String) (winner loser : Int) (kv kv' : KV) : Prop where
  rest : ∀ key, key.kind space ≠ some "vtype" → kv'.get key = kv.get key
  others : ∀ vid className, vid ≠ winner → vid ≠ loser →
    kv'.get (vtype space vid className) = kv.get (vtype space vid className)
  gone : ∀ className, kv'.get (vtype space loser className) = none

theorem root_of_rest (rest : ∀ key, key.kind space ≠ some "vtype" → kv'.get key = kv.get key) :
    Root space kv' vid ↔ Root space kv vid := by
  have same := rest (sameas space vid) (by simp [sameas, Key.kind])
  rw [Root, Root, same]

/-- Move a list of types; those that are still at the old vertex are to come. -/
theorem wp_moveTypeEntries (apart : winner ≠ loser) (entries : List (Key × Val))
    (listed : ∀ className, (world.kv.get (vtype space loser className)).isSome = true →
      vtype space loser className ∈ entries.map Prod.fst) (marked : terms.closed →
      Dirty space world.kv ∨ ∀ className, vtype space loser className ∉ entries.map Prod.fst)
    (root : terms.rooted → Root space world.kv winner) :
    (entries.forM (moveType space winner loser)).wp (handler env) (Mutates env space terms)
      (fun _ world' => MovesTypes space winner loser world.kv world'.kv) world := by
  induction entries generalizing world with
  | nil =>
    refine ⟨fun _ _ => rfl, fun _ _ _ _ => rfl, fun className => ?_⟩
    rw [← Option.not_isSome_iff_eq_none]
    intro present
    simpa using listed className present
  | cons entry rest ih =>
    rw [forM_eq_forM, forM_cons]
    unfold moveType
    split
    · trivial
    rename_i className found
    have same : vtype space loser className = entry.1 := by
      simpa using (Option.filter_eq_some_iff.mp found).2
    have isMarked : terms.closed → Dirty space world.kv :=
      fun assumed => (marked assumed).resolve_right fun absent => absent className (by simp [same])
    rw [← same]
    -- The type is put at the new vertex, and then taken from the old one.
    have putType : Mutates env space terms world (.kv (.put (vtype space winner className) .empty)) :=
      .retype isMarked root
    have stillMarked := fun assumed => putType.dirty (isMarked assumed)
    refine ⟨putType, .untype stillMarked, ?_⟩
    set after : KV := (world.kv.insert (vtype space winner className) .empty).erase
      (vtype space loser className) with after_eq
    have kept : ∀ key, key.kind space ≠ some "vtype" → after.get key = world.kv.get key := by
      intro key other
      have types : ∀ vid, key ≠ vtype space vid className := by
        rintro vid rfl
        simp at other
      rw [after_eq, get_erase, if_neg (types loser), get_insert, if_neg (types winner)]
    have elsewhere : ∀ vid name, vid ≠ winner → vid ≠ loser →
        after.get (vtype space vid name) = world.kv.get (vtype space vid name) := by
      intro vid name notWinner notLoser
      rw [after_eq, get_erase, if_neg (by simp [vtype, notLoser]), get_insert, if_neg (by simp [vtype, notWinner])]
    have left : ∀ name, (after.get (vtype space loser name)).isSome = true →
        vtype space loser name ∈ rest.map Prod.fst := by
      intro name present
      rw [after_eq, get_erase] at present
      split at present
      · cases present
      · rename_i other
        have elsewhere : vtype space loser name ≠ vtype space winner className := by
          simpa [vtype] using fun same => absurd same.symm apart
        rw [get_insert, if_neg elsewhere] at present
        have mem := listed name present
        rw [map_cons, ← same, mem_cons] at mem
        exact mem.resolve_left other
    refine wp_imp (ih left (fun assumed => .inl ?_) fun assumed => (root_of_rest kept).mpr (root assumed)) ?_
    · exact dirty_retype (.inr rfl) (stillMarked assumed)
    · rintro _ final ⟨others, apartFrom, gone⟩
      exact ⟨fun key other => (others key other).trans (kept key other),
        fun vid name notWinner notLoser => (apartFrom vid name notWinner notLoser).trans (elsewhere vid name notWinner notLoser),
        gone⟩

theorem wp_moveTypes (apart : winner ≠ loser) (settled : Settled env space terms world)
    (root : terms.rooted → Root space world.kv winner) :
    (moveTypes space winner loser).wp (handler env) (Mutates env space terms)
      (fun _ world' => MovesTypes space winner loser world.kv world'.kv) world := by
  refine ⟨.look rfl, wp_moveTypeEntries apart _ ?_ ?_ root⟩
  · intro className present
    obtain ⟨value, found⟩ := Option.isSome_iff_exists.mp present
    refine mem_map.mpr ⟨(vtype space loser className, value), mem_scan.mpr ⟨found, ?_⟩, rfl⟩
    exact covers_text.mpr ⟨[.word className], by simp, rfl⟩
  · intro assumed
    refine (settled.fenced assumed).imp_right fun underived className mem => ?_
    obtain ⟨⟨_, value⟩, listed, rfl⟩ := mem_map.mp mem
    have found := (mem_scan.mp listed).1
    rw [underived.types] at found
    cases found

section

variable (space : String) (indexes : List IndexDef)

/-- A vertex with the tags and properties of another one that it lacks. -/
def mergedVertex (winner loser : VertexData) : VertexData :=
  { winner with tags := loser.tags.foldl (fun tags tag => absorbTag tag tags) winner.tags }

def tagKeys (vertex : VertexData) : List Key := vertex.tags.map fun tag => tagvid space tag.name vertex.vid

def vectorNames (vertex : VertexData) : List String := (embeddingProps vertex.tags).map Prod.fst

def mergedPuts (winner loser : VertexData) : List (Key × Val) :=
  let merged := mergedVertex winner loser
  [(SchemaKey.vertex space winner.vid, .vertex merged)] ++
    ((vertexEntries indexes merged).map fun key => (key, .empty)) ++
    (merged.tags.map fun tag => (tagvid space tag.name winner.vid, .empty)) ++
    ((embeddingProps merged.tags).map fun vector => (vecData space vector.1 winner.vid, .embedding vector.2)) ++
    (vectorNames loser ++ vectorNames merged).map fun prop => (vecIndexDirty space prop, .empty)

def mergedDeletes (winner loser : VertexData) : List Key :=
  (vertexEntries indexes loser ++ vertexEntries indexes winner ++ [SchemaKey.vertex space loser.vid] ++ tagKeys space loser ++
    (vectorNames loser).map fun prop => vecData space prop loser.vid).filter fun key =>
      !((mergedPuts space indexes winner loser).map Prod.fst).contains key

def mergedStore (kv : KV) (winner loser : VertexData) : KV :=
  (kv.putAll (mergedPuts space indexes winner loser)).eraseAll (mergedDeletes space indexes winner loser)

/-- What becomes of the record of a merged vertex. -/
inductive MergesVertex (winner loser : Int) (kv : KV) : KV → Prop where
  | absent (missing : kv.get (SchemaKey.vertex space loser) = none) : MergesVertex winner loser kv kv
  | merged {into other : VertexData} (stored : kv.get (SchemaKey.vertex space loser) = some (.vertex other))
      (vid : other.vid = loser) (own : into.vid = winner)
      (read : readVertex winner (kv.get (SchemaKey.vertex space winner)) = .ok into) :
      MergesVertex winner loser kv (mergedStore space indexes kv into other)

end

section

variable {indexes : List IndexDef}

theorem mem_mergedPuts {put : Key × Val} (mem : put ∈ mergedPuts space indexes winner loser) :
    put = (.vertex space winner.vid, .vertex (mergedVertex winner loser)) ∨ TagEntry put.1 ∨
      (region space put.1 = some .view ∧ ∀ vid, Mentions space vid put.1 → vid = winner.vid) := by
  simp only [mergedPuts, mem_append, mem_singleton, mem_map] at mem
  rcases mem with (((rfl | ⟨key, entry, rfl⟩) | ⟨tag, -, rfl⟩) | ⟨vector, -, rfl⟩) | ⟨prop, -, rfl⟩
  · exact .inl rfl
  · exact .inr (.inl (tagEntry_vertexEntries entry))
  · exact .inr (.inr ⟨by simp, by simp⟩)
  · exact .inr (.inr ⟨by simp, by simp⟩)
  · exact .inr (.inr ⟨by simp, by simp⟩)

theorem mem_mergedDeletes (mem : key ∈ mergedDeletes space indexes winner loser) :
    key = Key.vertex space loser.vid ∨ TagEntry key ∨ region space key = some .view := by
  simp only [mergedDeletes, mem_filter, mem_append, mem_singleton, tagKeys, mem_map] at mem
  rcases mem.1 with (((entry | entry) | rfl) | ⟨tag, -, rfl⟩) | ⟨prop, -, rfl⟩
  · exact .inr (.inl (tagEntry_vertexEntries entry))
  · exact .inr (.inl (tagEntry_vertexEntries entry))
  · exact .inl rfl
  · exact .inr (.inr (by simp))
  · exact .inr (.inr (by simp))

theorem filter_isEntity_nil (space : String) {keys : List Key}
    (inside : ∀ key ∈ keys, (region space key).isSome = true) : keys.filter Key.isEntity = [] := by
  rw [filter_eq_nil_iff]
  intro key mem
  obtain ⟨part, has⟩ := Option.isSome_iff_exists.mp (inside key mem)
  simp [isEntity_of_region has]

theorem filter_mergedPuts : ((mergedPuts space indexes winner loser).filter fun put => put.1.isEntity) =
    [(.vertex space winner.vid, .vertex (mergedVertex winner loser))] := by
  have rest : ∀ puts : List (Key × Val), (∀ put ∈ puts, (region space put.1).isSome = true) →
      (puts.filter fun put => put.1.isEntity) = [] := by
    intro puts inside
    have none : (puts.map Prod.fst).filter Key.isEntity = [] :=
      filter_isEntity_nil space fun key mem => by
        obtain ⟨put, listed, rfl⟩ := mem_map.mp mem
        exact inside put listed
    rw [filter_map, map_eq_nil_iff] at none
    exact none
  simp only [mergedPuts, append_assoc]
  rw [filter_append, rest (_ ++ _) ?_]
  · simp
  · intro put mem
    simp only [mem_append, mem_map] at mem
    rcases mem with ⟨key, entry, rfl⟩ | ⟨tag, -, rfl⟩ | ⟨vector, -, rfl⟩ | ⟨prop, -, rfl⟩
    · rw [region_vertexEntries space entry]
      rfl
    all_goals simp

theorem filter_mergedDeletes (apart : winner.vid ≠ loser.vid) :
    (mergedDeletes space indexes winner loser).filter Key.isEntity = [Key.vertex space loser.vid] := by
  have kept : Key.vertex space loser.vid ∉ (mergedPuts space indexes winner loser).map Prod.fst := by
    intro mem
    obtain ⟨put, listed, same⟩ := mem_map.mp mem
    rcases mem_mergedPuts listed with rfl | entry | ⟨inside, -⟩
    · exact apart (by simpa [Key.vertex] using same)
    · simpa [same] using entry.region space
    · simp [same] at inside
  have entries : ∀ vertex : VertexData, (vertexEntries indexes vertex).filter Key.isEntity = [] :=
    fun vertex => filter_isEntity_nil space fun key mem => by rw [region_vertexEntries space mem]; rfl
  have tags : (tagKeys space loser).filter Key.isEntity = [] := filter_isEntity_nil space (by simp [tagKeys])
  have vectors : ((vectorNames loser).map fun prop => vecData space prop loser.vid).filter Key.isEntity = [] :=
    filter_isEntity_nil space (by simp)
  rw [mergedDeletes, filter_filter, filter_congr fun key _ => Bool.and_comm _ _, ← filter_filter]
  simp only [filter_append, entries, tags, vectors, nil_append, append_nil]
  simpa using kept

theorem records_mergedStore (apart : winner.vid ≠ loser.vid)
    (stored : world.kv.get (.vertex space loser.vid) = some (.vertex loser))
    (settled : Settled env space terms world) (root : terms.rooted → Root space world.kv winner.vid)
    (stamped : Stamped env world world' versions)
    (changes : versions.map VersionRow.change = [(.vertex space loser.vid, .empty),
      (.vertex space winner.vid, .vertex (mergedVertex winner loser))]) :
    Records env space terms world' (mergedPuts space indexes winner loser)
      (mergedDeletes space indexes winner loser) versions := by
  have quiet : ∀ key ∈ (mergedPuts space indexes winner loser).map Prod.fst ++ mergedDeletes space indexes winner loser,
      (∃ vid, key = Key.vertex space vid) ∨ region space key = some .index ∨ region space key = some .view := by
    intro key mem
    rcases mem_append.mp mem with listed | listed
    · obtain ⟨put, putListed, rfl⟩ := mem_map.mp listed
      rcases mem_mergedPuts putListed with rfl | inside | ⟨inside, -⟩
      · exact .inl ⟨_, rfl⟩
      · exact .inr (.inl (inside.region space))
      · exact .inr (.inr inside)
    · exact (mem_mergedDeletes listed).imp (fun same => ⟨_, same⟩) (.imp_left fun entry => entry.region space)
  have edgeless : ∀ key ∈ (mergedPuts space indexes winner loser).map Prod.fst ++ mergedDeletes space indexes winner loser,
      ¬ EdgeKey space key := by
    intro key mem
    rcases quiet key mem with ⟨vid, rfl⟩ | inside | inside
    · simp [EdgeKey]
    · exact not_edgeKey_of_region inside
    · exact not_edgeKey_of_region inside
  refine .of_facts ?_ ?_ ?_ ⟨_, stamped,
    settled.ahead⟩ filter_mergedPuts (by simp [Val.isFact]) (filter_mergedDeletes apart) ?_ ?_
    (Mirrored.batch_other edgeless) ?_
  · intro key mem
    rcases quiet key mem with ⟨vid, rfl⟩ | inside | inside
    · simp
    · exact touches_index inside
    · exact touches_view inside
  · intro mem
    rcases mem_mergedDeletes mem with same | entry | inside
    · simpa using congrArg (Key.kind space) same
    · simpa using entry.region space
    · simp at inside
  · intro _
    refine .inr fun t rank => ?_
    have absent : t.key space rank ∉ (mergedPuts space indexes winner loser).map Prod.fst ++
        mergedDeletes space indexes winner loser := fun mem => edgeless _ mem (.inl (t.kind_key space rank))
    rw [mem_append, not_or] at absent
    exact Content.get_batch absent.1 absent.2
  · simp [stamped.kv, stored, Val.isInferred]
  · intro key
    rw [changes]
    by_cases atWinner : Key.vertex space winner.vid = key
    · have notLoser : Key.vertex space loser.vid ≠ key := by
        rw [← atWinner]
        simpa [Key.vertex] using fun same => apart same.symm
      simp [atWinner, notLoser]
    · by_cases atLoser : Key.vertex space loser.vid = key <;> simp [atWinner, atLoser]
  · intro assumed put mem vid mentions
    rw [stamped.kv]
    rcases mem_mergedPuts mem with rfl | entry | ⟨-, names⟩
    · rw [mentions_vertex.mp mentions]
      exact root assumed
    · exact absurd mentions (not_mentions_of_region (entry.region space) (by simp))
    · rw [names vid mentions]
      exact root assumed

end

theorem decodeVertex_ok (decoded : decodeVertex vid value = .ok vertex) :
    value = .vertex vertex ∧ vertex.vid = vid := by
  unfold decodeVertex at decoded
  split at decoded
  · split at decoded
    · rename_i same
      cases decoded
      exact ⟨rfl, same⟩
    · cases decoded
  · cases decoded

theorem readVertex_ok (read : readVertex vid held = .ok vertex) : vertex.vid = vid := by
  cases held with
  | none =>
    cases read
    rfl
  | some value => exact (decodeVertex_ok read).2

theorem wp_mergeVertexBlob (apart : winner ≠ loser)
    (declared : indexesAt env ctx space world.kv .tag = .ok indexes)
    (settled : Settled env space terms world) (root : terms.rooted → Root space world.kv winner) :
    (mergeVertexBlob ctx space winner loser).wp (handler env) (Mutates env space terms)
      (fun _ world' => MergesVertex space indexes winner loser world.kv world'.kv) world := by
  rw [mergeVertexBlob, wp_bind, wp_get]
  refine ⟨.look rfl, ?_⟩
  cases stored : world.kv.get (.vertex space loser) with
  | none => exact .absent stored
  | some value =>
    rw [wp_bind, wp_ofExcept]
    intro other decoded
    obtain ⟨rfl, rfl⟩ := decodeVertex_ok decoded
    rw [wp_bind, wp_get]
    refine ⟨.look rfl, ?_⟩
    rw [wp_bind, wp_ofExcept]
    intro into read
    have own := readVertex_ok read
    subst own
    refine wp_seq (wp_vertexIndexKeys declared) ?_
    rintro _ world ⟨rfl, rfl⟩
    refine wp_seq (wp_vertexIndexKeys declared) ?_
    rintro _ world ⟨rfl, rfl⟩
    refine wp_seq (wp_vertexIndexKeys declared) ?_
    rintro _ world ⟨rfl, rfl⟩
    refine wp_seq wp_buildTombstones ?_
    rintro tombstones middle ⟨early, deleted⟩
    refine wp_seq (wp_buildVersions _) ?_
    rintro versions world' ⟨late, written⟩
    have stamped := early.append late
    have changes : (tombstones ++ versions).map VersionRow.change = [(.vertex space other.vid, .empty),
        (.vertex space into.vid, .vertex (mergedVertex into other))] := by
      rw [map_append, deleted, written]
      rfl
    change Mutates env space terms world' (.kv (.batchApply (mergedPuts space indexes into other)
      (mergedDeletes space indexes into other) (tombstones ++ versions))) ∧ _
    refine ⟨.record (records_mergedStore apart stored settled root stamped changes), ?_⟩
    change MergesVertex space indexes into.vid other.vid world.kv
      ((world'.kv.putAll (mergedPuts space indexes into other)).eraseAll (mergedDeletes space indexes into other))
    rw [stamped.kv]
    exact .merged stored rfl rfl read

end ByoriDB.Executor
