import ByoriDB.Executor.InsertEdges
import ByoriDB.Executor.VertexBatch

namespace ByoriDB.Executor

variable {insert : VertexInsert} {put : Key × Val}

open List hiding after
open Data Program Store ByoriDB.Graph

section

variable (space : String) (indexes : List IndexDef) (kv : KV)

def InsertsVertex (vidType : SpaceVidType) (insert : VertexInsert) (vertex : VertexData) : Prop :=
  ∃ internal, Named space kv vidType insert.vid internal ∧ Represents space kv internal vertex.vid ∧ vertex.tags = insert.tags

/-- What is stored for a vertex is a vertex of that id. -/
def VertexStored (vid : Int) : Prop :=
  ∀ value, kv.get (SchemaKey.vertex space vid) = some value → ∃ old, value = .vertex old ∧ old.vid = vid

def lastVertex (vertices : List VertexData) (vid : Int) : Option VertexData :=
  lastPut (vertices.map fun vertex => (vertex.vid, vertex)) vid

def viewOf : Option VertexData → OldView
  | none => ⟨[], [], []⟩
  | some old => ⟨old.tags.map TagData.name,
      vertexEntries indexes old ++ (vectorNames old).map fun prop => vecData space prop old.vid, vectorNames old⟩

/-- What the rows add up to over a store. -/
structure VertexCollected (vertices : List VertexData)
    (rows : VertexRows) : Prop where
  batch : rows.batch = vertexFacts space vertices
  final : ∀ vid, rows.finalVertices.get vid = lastVertex vertices vid
  roots : ∀ vertex ∈ vertices, Root space kv vertex.vid
  stored : ∀ vertex ∈ vertices, VertexStored space kv vertex.vid
  original : ∀ vid, rows.originalTags.get vid =
    if vid ∈ vertices.map VertexData.vid then some (viewOf space indexes (vertexAt space kv vid)).tags else none
  stale : ∀ key, key ∈ rows.viewDeletes ↔ ∃ vertex ∈ vertices, key ∈ (viewOf space indexes (vertexAt space kv vertex.vid)).deletes

theorem VertexCollected.nothing : VertexCollected space indexes kv [] ⟨[], [], [], .empty, .empty, 0⟩ :=
  ⟨rfl, fun _ => get_empty _, by simp, by simp, by simp, by simp⟩

end

theorem VertexStored.vertexAt (stored : VertexStored space kv vid) :
    kv.get (.vertex space vid) = (vertexAt space kv vid).map Val.vertex ∧
      ∀ old, Executor.vertexAt space kv vid = some old → old.vid = vid := by
  unfold Executor.vertexAt
  cases found : kv.get (.vertex space vid) with
  | none => simp
  | some value =>
    obtain ⟨old, rfl, own⟩ := stored value found
    simpa using own

theorem vertexAt_congr (same : kv'.get (.vertex space vid) = kv.get (.vertex space vid)) :
    vertexAt space kv' vid = vertexAt space kv vid := by
  rw [vertexAt, vertexAt, same]

section

theorem VertexCollected.congr (collected : VertexCollected space indexes kv vertices rows)
    (same : ∀ key, region space key ≠ some .mapping → kv'.get key = kv.get key) :
    VertexCollected space indexes kv' vertices rows where
  batch := collected.batch
  final := collected.final
  roots vertex mem := (root_congr (fun vid => same _ (by simp)) _).mpr (collected.roots vertex mem)
  stored vertex mem value found := collected.stored vertex mem value (same (.vertex space vertex.vid) (by simp) ▸ found)
  original vid := by
    rw [collected.original, vertexAt_congr (same _ (by simp))]
  stale key := by
    rw [collected.stale]
    simp [vertexAt_congr (same (.vertex space _) (by simp))]

/-- The rows after a look at the stored vertex. -/
def VertexRows.note (rows : VertexRows) (vid : Int) (old : OldView) : VertexRows :=
  if (rows.originalTags.get vid).isSome then rows
  else { rows with
    viewDeletes := rows.viewDeletes ++ old.deletes
    dirtyProps := rows.dirtyProps ++ old.dirtyProps
    originalTags := rows.originalTags.insert vid old.tags }

def VertexRows.add (space : String) (rows : VertexRows) (vertex : VertexData) : VertexRows :=
  { rows with
    batch := rows.batch ++ [(SchemaKey.vertex space vertex.vid, .vertex vertex)]
    finalVertices := rows.finalVertices.insert vertex.vid vertex
    inserted := rows.inserted + 1 }

theorem VertexCollected.add (collected : VertexCollected space indexes kv vertices rows)
    (root : Root space kv vertex.vid) (stored : VertexStored space kv vertex.vid) :
    VertexCollected space indexes kv (vertices ++ [vertex]) ((rows.note
      vertex.vid (viewOf space indexes (vertexAt space kv vertex.vid))).add space vertex) := by
  have seen : (rows.originalTags.get vertex.vid).isSome = true ↔ vertex.vid ∈ vertices.map VertexData.vid := by
    rw [collected.original]
    split <;> simp_all
  refine ⟨?_, ?_, ?_, ?_, ?_, ?_⟩
  · have kept : (rows.note vertex.vid (viewOf space indexes (vertexAt space kv vertex.vid))).batch = rows.batch := by
      unfold VertexRows.note
      split <;> rfl
    simp [VertexRows.add, kept, collected.batch, vertexFacts]
  · intro vid
    have kept : (rows.note vertex.vid (viewOf space indexes
      (vertexAt space kv vertex.vid))).finalVertices = rows.finalVertices := by
      unfold VertexRows.note
      split <;> rfl
    simp only [VertexRows.add, kept, get_insert, collected.final, lastVertex, map_append, map_cons, map_nil,
      lastPut_append, lastPut, Option.none_or]
    split <;> simp
  · exact forall_mem_append.mpr ⟨collected.roots, by simpa using root⟩
  · exact forall_mem_append.mpr ⟨collected.stored, by simpa using stored⟩
  · intro vid
    simp only [VertexRows.add, VertexRows.note, seen]
    split
    · rename_i listed
      simp only [collected.original, map_append, mem_append, map_cons, map_nil, mem_singleton]
      by_cases here : vid = vertex.vid
      · simp [here, listed]
      · simp [here]
    · simp only [get_insert, collected.original, map_append, mem_append, map_cons, map_nil, mem_singleton]
      by_cases here : vid = vertex.vid
      · simp [here, or_true]
      · simp [here, or_false]
  · intro key
    simp only [VertexRows.add, VertexRows.note, seen]
    split
    · rename_i listed
      obtain ⟨earlier, mem, same⟩ := mem_map.mp listed
      rw [collected.stale]
      simp only [mem_append, mem_singleton, or_and_right, exists_or, exists_eq_left]
      constructor
      · exact .inl
      · rintro (old | new)
        · exact old
        · exact ⟨earlier, mem, same ▸ new⟩
    · rw [mem_append, collected.stale]
      simp [or_and_right, exists_or]

end

theorem wp_oldView (declared : indexesAt env ctx space world.kv .tag = .ok indexes) :
    (oldView ctx space vid).wp (handler env) (Mutates env space terms)
      (fun old world' => world' = world ∧ VertexStored space world.kv vid ∧
        old = viewOf space indexes (vertexAt space world.kv vid)) world := by
  rw [oldView, wp_bind, wp_get]
  refine ⟨.look rfl, ?_⟩
  unfold vertexAt VertexStored
  cases found : world.kv.get (.vertex space vid) with
  | none => exact ⟨rfl, by simp, rfl⟩
  | some value =>
    rw [wp_bind, wp_ofExcept]
    intro old decoded
    obtain ⟨rfl, rfl⟩ := decodeVertex_ok decoded
    refine wp_seq (wp_vertexIndexKeys declared) ?_
    rintro _ world ⟨rfl, rfl⟩
    refine ⟨rfl, ?_, rfl⟩
    rintro _ ⟨⟩
    exact ⟨old, rfl, rfl⟩

theorem wp_noteOldView (declared : indexesAt env ctx space world.kv .tag = .ok indexes)
    (collected : VertexCollected space indexes world.kv vertices rows) :
    (noteOldView ctx space rows vid).wp (handler env) (Mutates env space terms)
      (fun rows' world' => world' = world ∧ VertexStored space world.kv vid ∧
        rows' = rows.note vid (viewOf space indexes (vertexAt space world.kv vid))) world := by
  unfold noteOldView VertexRows.note
  cases noted : rows.originalTags.get vid with
  | some tags =>
    have listed : vid ∈ vertices.map VertexData.vid := by
      rw [collected.original] at noted
      split at noted
      · assumption
      · cases noted
    obtain ⟨earlier, mem, rfl⟩ := mem_map.mp listed
    exact ⟨rfl, collected.stored earlier mem, rfl⟩
  | none =>
    refine wp_seq (wp_oldView declared) ?_
    rintro _ world ⟨rfl, stored, rfl⟩
    exact ⟨rfl, stored, rfl⟩

theorem InsertsVertex.later
    (inserts : InsertsVertex space before.kv vidType insert vertex)
    (tended : Tended space .mapping before after) (lasting : Lasting space before.kv after.kv) :
    InsertsVertex space after.kv vidType insert vertex := by
  obtain ⟨internal, named, represents, tags⟩ := inserts
  exact ⟨internal, named.lasting lasting, represents.congr fun vid => tended _ (by simp), tags⟩

theorem wp_insertVertexRow (within : terms.tended .mapping)
    (declared : indexesAt env ctx space world.kv .tag = .ok indexes)
    (collected : VertexCollected space indexes world.kv vertices rows) :
    (insertVertexRow ctx space vidType rows insert).wp (handler env) (Mutates env space terms)
      (fun rows' world' => Tended space .mapping world world' ∧ ∃ vertex,
        VertexCollected space indexes world'.kv (vertices ++ [vertex]) rows' ∧
        InsertsVertex space world'.kv vidType insert vertex) world := by
  refine wp_seq_with (fun w op mutates => Mutates.indexes ctx .tag w op mutates) declared
    (wp_resolveForWrite insert.vid within) ?_
  rintro internal world₁ ⟨tended, named⟩ declared₁
  refine wp_seq (wp_representativeOf internal) ?_
  rintro vid world₁ ⟨rfl, represents⟩
  have collected₁ := collected.congr tended
  refine wp_seq (wp_noteOldView declared₁ collected₁) ?_
  rintro _ world₁ ⟨rfl, stored, rfl⟩
  have added : VertexCollected space indexes world₁.kv (vertices ++ [⟨vid, insert.tags⟩]) _ := collected₁.add represents.2 stored
  exact ⟨tended, ⟨vid, insert.tags⟩, added, internal, named, represents, rfl⟩

theorem wp_insertVertexRows (inserts : List VertexInsert) (within : terms.tended .mapping)
    (declared : indexesAt env ctx space world.kv .tag = .ok indexes)
    (collected : VertexCollected space indexes world.kv vertices rows) :
    (inserts.foldlM (insertVertexRow ctx space vidType) rows).wp (handler env)
      (Mutates env space terms) (fun rows' world' => Tended space .mapping world world' ∧ ∃ more,
        VertexCollected space indexes world'.kv (vertices ++ more) rows' ∧
        Forall₂ (InsertsVertex space world'.kv vidType) inserts more) world := by
  induction inserts generalizing world vertices rows with
  | nil => exact ⟨.refl space .mapping world, [], by simpa using collected, .nil⟩
  | cons insert rest ih =>
    refine wp_seq_with (fun w op mutates => Mutates.indexes ctx .tag w op mutates) declared
      (wp_insertVertexRow within declared collected) ?_
    rintro rows₁ world₁ ⟨tended₁, vertex, collected₁, inserts₁⟩ declared₁
    refine wp_imp (wp_lasting (ih declared₁ collected₁)) ?_
    rintro rows₂ world₂ ⟨⟨tended₂, more, collected₂, inserts₂⟩, lasting⟩
    refine ⟨tended₁.trans tended₂, vertex :: more, by simpa using collected₂, .cons ?_ inserts₂⟩
    exact inserts₁.later tended₂ lasting

section

variable (space : String) (indexes : List IndexDef) (rows : VertexRows)

def finals : List VertexData := rows.finalVertices.toList.map Prod.snd

def vertexPuts : List (Key × Val) :=
  rows.batch ++ vertexViewPuts space indexes (finals rows)

/-- What the replaced vertices leave behind and is not written again. -/
def vertexDeletes : List Key :=
  (removedTags space rows.originalTags (finals rows) ++ rows.viewDeletes).filter fun key =>
    !((vertexPuts space indexes rows).map Prod.fst).contains key

end

inductive InsertsVertices (space : String) (indexes : List IndexDef) (inserts : List VertexInsert) (kv kv' : KV) : Prop where
  | intro {vidType : SpaceVidType} {mapped : KV} {vertices : List VertexData} {rows : VertexRows} {puts : List (Key × Val)}
      (type : vidTypeAt space kv = some vidType)
      (mapping : ∀ key, region space key ≠ some .mapping → mapped.get key = kv.get key) (lasting : Lasting space kv mapped)
      (collected : VertexCollected space indexes mapped vertices rows)
      (inserted : Forall₂ (InsertsVertex space mapped vidType) inserts vertices)
      (fenced : FencedPuts space mapped (vertexPuts space indexes rows) puts)
      (marked : Marked space ((mapped.putAll puts).eraseAll (vertexDeletes space indexes rows)) kv')

section

theorem mem_finals (collected : VertexCollected space indexes kv vertices rows) :
    vertex ∈ finals rows ↔ lastVertex vertices vertex.vid = some vertex := by
  have own : ∀ {vid : Int} {vertex : VertexData}, lastVertex vertices vid = some vertex → vertex.vid = vid := by
    intro vid vertex last
    obtain ⟨source, -, made⟩ := mem_map.mp (mem_of_lastPut last)
    rw [Prod.mk.injEq] at made
    rw [← made.2, made.1]
  rw [finals, mem_map]
  constructor
  · rintro ⟨⟨vid, vertex⟩, mem, rfl⟩
    rw [mem_toList, collected.final] at mem
    rwa [own mem]
  · intro last
    exact ⟨(vertex.vid, vertex), mem_toList.mpr ((collected.final _).trans last), rfl⟩

theorem lastVertex_mem (last : lastVertex vertices vid = some vertex) : vertex ∈ vertices ∧ vertex.vid = vid := by
  obtain ⟨source, mem, made⟩ := mem_map.mp (mem_of_lastPut last)
  obtain ⟨rfl, rfl⟩ := made
  exact ⟨mem, rfl⟩

theorem lastPut_vertexFacts :
    lastPut (vertexFacts space vertices) (Key.vertex space vid) = (lastVertex vertices vid).map Val.vertex := by
  induction vertices with
  | nil => rfl
  | cons vertex rest ih =>
    have same : Key.vertex space vid = Key.vertex space vertex.vid ↔ vid = vertex.vid := by simp [Key.vertex]
    have tail : lastPut (rest.map fun vertex => (Key.vertex space vertex.vid, Val.vertex vertex))
        (Key.vertex space vid) = (lastPut (rest.map fun vertex => (vertex.vid, vertex)) vid).map Val.vertex := ih
    simp only [vertexFacts, lastVertex, map_cons, lastPut, tail, same]
    cases lastPut (rest.map fun vertex => (vertex.vid, vertex)) vid <;> by_cases here : vid = vertex.vid <;> simp [here]

theorem mem_vertexViewPuts {finals : List VertexData} : put ∈ vertexViewPuts space indexes finals ↔
      ∃ vertex ∈ finals, (∃ vector ∈ embeddingProps vertex.tags, put =
      (vecData space vector.1 vertex.vid, .embedding vector.2)) ∨
      (∃ index ∈ indexes, ∃ tag ∈ vertex.tags, tag.name = index.schemaName ∧
        put = (tagIndexKey index.id (indexValues index tag.properties) vertex.vid, .empty)) ∨
      ∃ tag ∈ vertex.tags, put = (tagvid space tag.name vertex.vid, .empty) := by
  simp only [vertexViewPuts, mem_append, mem_flatMap, mem_map, mem_filter, decide_eq_true_eq]
  constructor
  · rintro (⟨vertex, mem, ⟨vector, listed, rfl⟩ | ⟨index, declared, tag, ⟨listed, name⟩, rfl⟩⟩ | ⟨vertex, mem, tag, listed, rfl⟩)
    · exact ⟨vertex, mem, .inl ⟨vector, listed, rfl⟩⟩
    · exact ⟨vertex, mem, .inr (.inl ⟨index, declared, tag, listed, name, rfl⟩)⟩
    · exact ⟨vertex, mem, .inr (.inr ⟨tag, listed, rfl⟩)⟩
  · rintro ⟨vertex, mem, ⟨vector, listed, rfl⟩ | ⟨index, declared, tag, listed, name, rfl⟩ | ⟨tag, listed, rfl⟩⟩
    · exact .inl ⟨vertex, mem, .inl ⟨vector, listed, rfl⟩⟩
    · exact .inl ⟨vertex, mem, .inr ⟨index, declared, tag, ⟨listed, name⟩, rfl⟩⟩
    · exact .inr ⟨vertex, mem, tag, listed, rfl⟩

theorem secondary_vertexViewPuts {finals : List VertexData} :
    ∀ put ∈ vertexViewPuts space indexes finals, Secondary space put.1 := by
  intro put mem
  obtain ⟨vertex, -, ⟨vector, -, rfl⟩ | ⟨index, -, tag, -, -, rfl⟩ | ⟨tag, -, rfl⟩⟩ := mem_vertexViewPuts.mp mem
  · exact .inr (by simp)
  · exact .inl (tagEntry_tagIndexKey ..)
  · exact .inr (by simp)

theorem mentions_vertexViewPuts {finals : List VertexData}
    (mem : put ∈ vertexViewPuts space indexes finals) (mentions : Mentions space vid put.1) :
    ∃ vertex ∈ finals, vid = vertex.vid := by
  obtain ⟨vertex, listed, ⟨vector, -, rfl⟩ | ⟨index, -, tag, -, -, rfl⟩ | ⟨tag, -, rfl⟩⟩ := mem_vertexViewPuts.mp mem
  · exact ⟨vertex, listed, by simpa using mentions⟩
  · exact absurd mentions (not_mentions_of_region (region_tagIndexKey ..) (by simp))
  · exact ⟨vertex, listed, by simpa using mentions⟩

theorem mem_viewOf_deletes (mem : key ∈ (viewOf space indexes old).deletes) :
    ∃ vertex, old = some vertex ∧ (key ∈ vertexEntries indexes vertex ∨
      ∃ prop ∈ vectorNames vertex, key = vecData space prop vertex.vid) := by
  cases old with
  | none => cases mem
  | some vertex =>
    rcases mem_append.mp mem with entry | vector
    · exact ⟨vertex, rfl, .inl entry⟩
    · obtain ⟨prop, listed, rfl⟩ := mem_map.mp vector
      exact ⟨vertex, rfl, .inr ⟨prop, listed, rfl⟩⟩

theorem secondary_vertexDeletes (collected : VertexCollected space indexes kv vertices rows) :
    ∀ key ∈ vertexDeletes space indexes rows, Secondary space key := by
  intro key mem
  rcases mem_append.mp (mem_filter.mp mem).1 with tag | stale
  · simp only [removedTags, mem_flatMap, mem_map] at tag
    obtain ⟨vertex, -, name, -, rfl⟩ := tag
    exact .inr (by simp)
  · obtain ⟨vertex, -, deleted⟩ := (collected.stale key).mp stale
    obtain ⟨old, -, entry | ⟨prop, -, rfl⟩⟩ := mem_viewOf_deletes deleted
    · exact .inl (tagEntry_vertexEntries entry)
    · exact .inr (by simp)

theorem VertexCollected.names (collected : VertexCollected space indexes kv vertices rows)
    (fenced : FencedPuts space kv (vertexPuts space indexes rows) puts) :
    ∀ put ∈ puts, ∀ vid, Mentions space vid put.1 → Root space kv vid := by
  intro put mem vid mentions
  rw [vertexPuts, collected.batch] at fenced
  have listed : put ∈ vertexFacts space vertices ++ vertexViewPuts space indexes (finals rows) ++
      [(inferenceDirty space, .one)] := by
    rcases fenced with ⟨rfl, -⟩ | rfl
    · exact mem_append_left _ mem
    · exact mem
  simp only [mem_append, mem_singleton] at listed
  rcases listed with (fact | view) | rfl
  · obtain ⟨vertex, made, rfl⟩ := mem_map.mp fact
    obtain rfl : vid = vertex.vid := by simpa using mentions
    exact collected.roots vertex made
  · obtain ⟨vertex, final, rfl⟩ := mentions_vertexViewPuts view mentions
    exact collected.roots vertex (lastVertex_mem ((mem_finals collected).mp final)).1
  · simp at mentions

theorem wp_commitVertices (ready : Ready env space terms world)
    (collected : VertexCollected space indexes world.kv vertices rows) (views : terms.tended .view) :
    (commitVertices space indexes rows).wp (handler env) (Mutates env space terms)
      (fun _ world' => ∃ puts, FencedPuts space world.kv (vertexPuts space indexes rows) puts ∧
        Marked space ((world.kv.putAll puts).eraseAll (vertexDeletes space indexes rows)) world'.kv) world := by
  refine wp_seq (wp_fenceSemanticBatch (vertexPuts space indexes rows)) ?_
  rintro puts world ⟨fenced, rfl⟩
  refine wp_seq (wp_buildVersions _) ?_
  rintro versions stampedWorld ⟨stamped, changes⟩
  have fenced' := fenced
  rw [vertexPuts, collected.batch] at fenced'
  obtain ⟨rest, shape, aside, -⟩ := fenced'.accompany secondary_vertexViewPuts
  have records : Records env space terms stampedWorld puts (vertexDeletes space indexes rows) versions := by
    have changed : versions.map VersionRow.change = vertexFacts space vertices ++
        ([] : List Int).map fun vid => (.vertex space vid, .empty) := by
      rw [changes, collected.batch]
      simp
    exact records_vertices ready shape aside (secondary_vertexDeletes collected)
      (by simp) (fun _ => collected.names fenced) stamped changed
  rw [wp_bind, wp_batchApply]
  refine ⟨.record records, ?_⟩
  refine wp_seq (wp_markVectorIndexes _ views) ?_
  intro _ final marked
  refine ⟨puts, fenced, ?_⟩
  rw [← stamped.kv]
  exact marked

end

theorem wp_insertVertices (inserts : List VertexInsert)
    (scope : effectiveSpace ctx planSpace = pure space) (ready : Ready env space terms world)
    (declared : indexesAt env ctx space world.kv .tag = .ok indexes)
    (mappings : terms.tended .mapping) (views : terms.tended .view) :
    (insertVertices ctx planSpace inserts).wp (handler env) (Mutates env space terms)
      (fun _ world' => InsertsVertices space indexes inserts world.kv world'.kv) world := by
  rw [insertVertices, scope, pure_bind_eq]
  refine wp_seq wp_spaceVidType ?_
  rintro vidType world ⟨rfl, type⟩
  refine wp_seq (wp_mutationIndexes ctx .tag) ?_
  rintro found world ⟨rfl, same⟩
  rw [declared, Except.ok.injEq] at same
  subst same
  refine wp_seq (wp_looks (only_forM _ fun vertex _ => looks_validateVertex space vidType vertex)) ?_
  rintro _ world rfl
  refine wp_seq_with Mutates.ready ready
    (wp_lasting (wp_insertVertexRows inserts mappings declared (.nothing space indexes _))) ?_
  rintro rows mapped ⟨⟨tended, vertices, collected, made⟩, lasting⟩ ready'
  refine wp_imp (wp_commitVertices ready' collected views) ?_
  rintro _ final ⟨puts, fenced, marked⟩
  exact .intro type tended lasting collected made fenced marked

end ByoriDB.Executor
