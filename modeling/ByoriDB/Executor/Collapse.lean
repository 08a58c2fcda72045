import ByoriDB.Executor.MovedEdges

namespace ByoriDB.Executor

open List Data Program Store ByoriDB.Graph

inductive Collapses (space : String) (indexes tagIndexes : List IndexDef) (winner loser : Int) (kv kv' : KV) : Prop where
  | intro {edges : List EdgeData} {typed merged : KV} (moves : Moves space kv loser edges)
      (types : MovesTypes space winner loser (movedEdges space indexes winner loser kv edges) typed)
      (vertex : MergesVertex space tagIndexes winner loser typed merged) (links : Links space winner loser merged kv')

variable {space : String} {tagIndexes : List IndexDef} {winner loser : Int} {kv kv' : KV}

def mapEnds (rep : Int → Int) (edge : EdgeData) : EdgeData :=
  { edge with srcVid := rep edge.srcVid, dstVid := rep edge.dstVid }

/-- The asserted edges of one store are those of another under a map of their ends;
edges with one image have their properties united. -/
structure Image (space : String) (rep : Int → Int) (kv kv' : KV) : Prop where
  covers : ∀ edge, Asserts space kv edge →
    ∃ image, Asserts space kv' image ∧ image.key space = (mapEnds rep edge).key space
  unites : ∀ image, Asserts space kv' image →
    Unites (fun edge => Asserts space kv edge ∧ (mapEnds rep edge).key space = image.key space) image

theorem key_mapEnds (same : left.key space = right.key space) :
    (mapEnds rep left).key space = (mapEnds rep right).key space := by
  obtain ⟨src, type, dst, rank⟩ := edgeKey_inj.mp same
  rw [edgeKey_inj]
  simp [mapEnds, src, type, dst, rank]

theorem Image.trans {first second : Int → Int} {middle : KV} (early : Image space first kv middle)
    (late : Image space second middle kv') : Image space (second ∘ first) kv kv' where
  covers edge asserts := by
    obtain ⟨between, held, reached⟩ := early.covers edge asserts
    obtain ⟨image, found, same⟩ := late.covers between held
    exact ⟨image, found, same.trans (key_mapEnds reached)⟩
  unites image asserts := by
    refine ((late.unites image asserts).trans fun between held => early.unites between held.1).congr ?_
    intro edge
    constructor
    · rintro ⟨between, ⟨-, same⟩, held, reached⟩
      exact ⟨held, (key_mapEnds reached).trans same⟩
    · rintro ⟨held, same⟩
      obtain ⟨between, found, reached⟩ := early.covers edge held
      exact ⟨between, ⟨found, (key_mapEnds reached).trans same⟩, held, reached.symm⟩

theorem Image.congr {rep other : Int → Int} (image : Image space rep kv kv')
    (same : ∀ edge, Asserts space kv edge → mapEnds other edge = mapEnds rep edge) : Image space other kv kv' where
  covers edge asserts := same edge asserts ▸ image.covers edge asserts
  unites edge asserts := (image.unites edge asserts).congr fun source =>
    and_congr_right fun held => by rw [same source held]

theorem Image.of_same (same : ∀ edge, Asserts space kv' edge ↔ Asserts space kv edge) : Image space id kv kv' where
  covers edge asserts := ⟨edge, (same edge).mpr asserts, rfl⟩
  unites image asserts := (Unites.self image).congr fun source => by
    constructor
    · rintro rfl
      exact ⟨(same source).mp asserts, rfl⟩
    · rintro ⟨held, key⟩
      exact Asserts.unique held ((same image).mp asserts) key

section

variable {edges : List EdgeData}

theorem Moves.mem_iff (moves : Moves space kv loser edges) (mirrored : Mirrored space kv) (edge : EdgeData) :
    edge ∈ edges ↔ kv.get (edge.key space) = some (.edge edge) ∧ (edge.srcVid = loser ∨ edge.dstVid = loser) := by
  obtain ⟨found, incident, rfl⟩ := moves
  have listed : edge ∈ (inTextOrder found).map Prod.snd ↔ ∃ key, found.get key = some edge := by
    simp [mem_map, mem_inTextOrder]
  rw [listed]
  constructor
  · rintro ⟨key, held⟩
    have stored := incident.stored key edge held
    exact ⟨stored.own ▸ stored.exact mirrored, incident.ends key edge held⟩
  · rintro ⟨stored, ends⟩
    -- Either copy of the edge was looked at, and both decode to the edge itself.
    have looked : ∃ key, AtVertex space kv loser (key, .edge edge) ∧
        ∀ other, decodeQueryEdge key (.edge edge) = .ok other → other = edge := by
      rcases ends with rfl | rfl
      · refine ⟨edge.key space, ⟨stored, .inl ?_⟩, fun other decoded => ?_⟩
        · exact covers_text.mpr ⟨[.word edge.edgeType, .num edge.dstVid, .num edge.ranking], by simp, rfl⟩
        · exact (Val.edge.inj (decodeQueryEdge_ok decoded).1).symm
      · refine ⟨edge.inKey space, ⟨?_, .inr ?_⟩, fun other decoded => ?_⟩
        · rw [edge_inKey_eq, mirrored]
          exact stored
        · exact covers_text.mpr ⟨[.word edge.edgeType, .num edge.srcVid, .num edge.ranking], by simp, rfl⟩
        · exact (Val.edge.inj (decodeQueryEdge_ok decoded).1).symm
    obtain ⟨key, at_, own⟩ := looked
    obtain ⟨other, decoded, present⟩ := incident.complete _ at_
    rw [own other decoded] at present
    obtain ⟨held, get⟩ := Option.isSome_iff_exists.mp present
    refine ⟨edge.key space, ?_⟩
    have same := (incident.stored _ held get).exact mirrored
    rw [stored, Option.some.injEq, Val.edge.injEq] at same
    rw [get, same]

theorem moveEnds_eq_self (apart : edge.srcVid ≠ loser ∧ edge.dstVid ≠ loser) : moveEnds loser winner edge = edge := by
  simp [moveEnds, apart.1, apart.2]

theorem moveEnds_ends (edge : EdgeData) (apart : winner ≠ loser) :
    (moveEnds loser winner edge).srcVid ≠ loser ∧ (moveEnds loser winner edge).dstVid ≠ loser := by
  simp only [moveEnds]
  constructor
  · split
    · exact apart
    · assumption
  · split
    · exact apart
    · assumption

/-- What is at an identity after the move comes from the edges that have it as
their image. -/
theorem edgeAt_movedEdges (moves : Moves space kv loser edges) (keyed : Keyed space kv)
    (mirrored : Mirrored space kv) (t : Triple) (rank : Int) : ∃ sources, edgeAt
      (movedEdges space indexes winner loser kv edges) (t.key space rank) = combined sources ∧
      ∀ edge, edge ∈ sources ↔ ∃ source, kv.get (source.key space) = some (.edge source) ∧
        edge = moveEnds loser winner source ∧ edge.key space = t.key space rank := by
  have mem := moves.mem_iff mirrored
  have left : edgeAt (edges.foldl (retired space indexes) kv) (t.key space rank) =
      if t.key space rank ∈ edges.map (EdgeData.key space) then none else edgeAt kv (t.key space rank) := by
    by_cases listed : t.key space rank ∈ edges.map (EdgeData.key space)
    · rw [if_pos listed, edgeAt, get_retiredAll_edge, if_pos listed]
    · rw [if_neg listed, edgeAt, get_retiredAll_edge, if_neg listed, edgeAt]
  refine ⟨_, edgeAt_landedAll _ (Keyed.foldl (fun _ edge keyed => keyed.retired edge) edges keyed) t rank, fun edge => ?_⟩
  rw [left, mem_append, Option.mem_toList, mem_filter]
  constructor
  · rintro (stays | ⟨listed, here⟩)
    · split at stays
      · cases stays
      · rename_i unmoved
        have stored : kv.get (t.key space rank) = some (.edge edge) := by
          rw [keyed.get_eq_edgeAt, stays, Option.map_some]
        obtain ⟨own, same, key⟩ := keyed.edges t rank _ stored
        cases same
        rw [← key] at stored
        have outside : ¬ (edge.srcVid = loser ∨ edge.dstVid = loser) := fun ends =>
          unmoved (key ▸ mem_map_of_mem ((mem edge).mpr ⟨stored, ends⟩))
        rw [not_or] at outside
        exact ⟨edge, stored, (moveEnds_eq_self outside).symm, key⟩
    · obtain ⟨source, moved, rfl⟩ := mem_map.mp listed
      exact ⟨source, ((mem source).mp moved).1, rfl, by simpa using here⟩
  · rintro ⟨source, stored, rfl, here⟩
    by_cases ends : source.srcVid = loser ∨ source.dstVid = loser
    · exact .inr ⟨mem_map_of_mem ((mem source).mpr ⟨stored, ends⟩), by simpa using here⟩
    · left
      rw [not_or] at ends
      rw [moveEnds_eq_self ends] at here ⊢
      have unmoved : t.key space rank ∉ edges.map (EdgeData.key space) := by
        intro listed
        obtain ⟨other, moved, same⟩ := mem_map.mp listed
        obtain ⟨-, otherEnds⟩ := (mem other).mp moved
        obtain ⟨src, -, dst, -⟩ := edgeKey_inj.mp (same.trans here.symm)
        rw [src, dst] at otherEnds
        exact otherEnds.elim ends.1 ends.2
      rw [if_neg unmoved, edgeAt, ← here, stored]

end

theorem mem_names_absorbTag :
    name ∈ (absorbTag tag tags).map TagData.name ↔ name = tag.name ∨ name ∈ tags.map TagData.name := by
  induction tags with
  | nil => simp [absorbTag]
  | cons own rest ih =>
    rw [absorbTag]
    split
    · rename_i same
      simp [same]
    · rw [map_cons, mem_cons, ih, map_cons, mem_cons]
      tauto

theorem mem_embeddingProps : (prop, components) ∈ embeddingProps tags ↔ ∃ tag ∈ tags,
      ∃ value, tag.properties.get prop = some value ∧ packEmbedding value = some components := by
  simp only [embeddingProps, mem_flatMap, mem_filterMap, Option.map_eq_some_iff, Prod.mk.injEq, Prod.exists, mem_toList]
  constructor
  · rintro ⟨tag, mem, name, value, found, _, packed, rfl, rfl⟩
    exact ⟨tag, mem, value, found, packed⟩
  · rintro ⟨tag, mem, value, found, packed⟩
    exact ⟨tag, mem, prop, value, found, components, packed, rfl, rfl⟩

theorem mem_vectorNames : prop ∈ vectorNames vertex ↔
    ∃ components, (prop, components) ∈ embeddingProps vertex.tags := by
  simp [vectorNames]

theorem mem_names_mergedVertex : name ∈ (mergedVertex into other).tags.map TagData.name ↔
      name ∈ into.tags.map TagData.name ∨ name ∈ other.tags.map TagData.name := by
  simp only [mergedVertex]
  generalize into.tags = tags
  induction other.tags generalizing tags with
  | nil => simp
  | cons tag rest ih =>
    rw [foldl_cons, ih, mem_names_absorbTag, map_cons, mem_cons]
    tauto

theorem embeddings_absorbTag (mem : entry ∈ embeddingProps tags) : entry ∈ embeddingProps (absorbTag tag tags) := by
  obtain ⟨prop, components⟩ := entry
  rw [mem_embeddingProps] at mem ⊢
  obtain ⟨own, listed, value, found, packed⟩ := mem
  induction tags with
  | nil => cases listed
  | cons head rest ih =>
    rw [absorbTag]
    rcases mem_cons.mp listed with rfl | later
    · split
      · refine ⟨_, mem_cons_self, value, ?_, packed⟩
        rw [get_fillProps, found, Option.some_or]
      · exact ⟨own, mem_cons_self, value, found, packed⟩
    · split
      · exact ⟨own, mem_cons_of_mem _ later, value, found, packed⟩
      · obtain ⟨kept, listed', rest'⟩ := ih later
        exact ⟨kept, mem_cons_of_mem _ listed', rest'⟩

theorem embeddings_mergedVertex (mem : entry ∈ embeddingProps into.tags) :
    entry ∈ embeddingProps (mergedVertex into other).tags := by
  simp only [mergedVertex]
  generalize into.tags = tags at mem
  induction other.tags generalizing tags with
  | nil => exact mem
  | cons tag rest ih => exact ih _ (embeddings_absorbTag mem)

theorem vectorNames_mergedVertex (mem : prop ∈ vectorNames into) : prop ∈ vectorNames (mergedVertex into other) := by
  obtain ⟨entry, listed, rfl⟩ := mem_map.mp mem
  exact mem_map.mpr ⟨entry, embeddings_mergedVertex listed, rfl⟩

section

variable {into other : VertexData} {merged : KV}

theorem get_mergedStore_rest (vertexless : ∀ vid, key ≠ Key.vertex space vid)
    (index : ¬ TagEntry key) (view : region space key ≠ some .view) :
    (mergedStore space tagIndexes kv into other).get key = kv.get key := by
  refine Content.get_batch ?_ ?_
  · intro mem
    obtain ⟨put, listed, rfl⟩ := mem_map.mp mem
    rcases mem_mergedPuts listed with rfl | inside | ⟨inside, -⟩
    · exact vertexless _ rfl
    · exact index inside
    · exact view inside
  · intro mem
    rcases mem_mergedDeletes mem with same | inside | inside
    · exact vertexless _ same
    · exact index inside
    · exact view inside

theorem MergesVertex.rest (merges : MergesVertex space tagIndexes winner loser kv merged)
    (vertexless : ∀ vid, key ≠ Key.vertex space vid) (index : ¬ TagEntry key)
    (view : region space key ≠ some .view) : merged.get key = kv.get key := by
  cases merges with
  | absent => rfl
  | merged => exact get_mergedStore_rest vertexless index view

theorem get_mergedStore_vertex (apart : into.vid ≠ other.vid) :
    (mergedStore space tagIndexes kv into other).get (.vertex space vid) = if vid = other.vid then none
      else if vid = into.vid then some (.vertex (mergedVertex into other)) else kv.get (.vertex space vid) := by
  have puts : ((mergedPuts space tagIndexes into other).filter fun put => put.1.isEntity) = _ := filter_mergedPuts
  have deletes : (mergedDeletes space tagIndexes into other).filter Key.isEntity = _ := filter_mergedDeletes apart
  have deleted : Key.vertex space vid ∈ mergedDeletes space tagIndexes into other ↔ vid = other.vid := by
    have filtered : Key.vertex space vid ∈ (mergedDeletes space tagIndexes into other).filter Key.isEntity ↔
        Key.vertex space vid ∈ mergedDeletes space tagIndexes into other := by simp [mem_filter]
    rw [← filtered, deletes, mem_singleton]
    simp [Key.vertex]
  have put : lastPut (mergedPuts space tagIndexes into other) (.vertex space vid) =
      if vid = into.vid then some (.vertex (mergedVertex into other)) else none := by
    rw [lastPut_eq_getLast?, filter_eq_of_selects puts]
    · by_cases here : vid = into.vid
      · simp [here]
      · have elsewhere : Key.vertex space into.vid ≠ Key.vertex space vid := by
          simpa [Key.vertex] using Ne.symm here
        simp [here, elsewhere]
    · intro item same
      rw [decide_eq_true_eq] at same
      simp [same]
  rw [mergedStore, get_eraseAll, get_putAll, put]
  simp only [deleted]
  by_cases gone : vid = other.vid
  · simp [gone]
  · by_cases here : vid = into.vid <;> simp [here, gone, apart]

section

variable (merges : MergesVertex space tagIndexes winner loser kv merged) (apart : winner ≠ loser)

include merges apart

theorem MergesVertex.vertex : merged.get (.vertex space loser) = none ∧ ∀ vid, vid ≠ winner →
      vid ≠ loser → merged.get (.vertex space vid) = kv.get (.vertex space vid) := by
  cases merges with
  | absent missing => exact ⟨missing, fun _ _ _ => rfl⟩
  | merged stored vid own read =>
    subst vid own
    refine ⟨by rw [get_mergedStore_vertex apart, if_pos rfl], fun vid notWinner notLoser => ?_⟩
    rw [get_mergedStore_vertex apart, if_neg notLoser, if_neg notWinner]

theorem MergesVertex.keyed (keyed : Keyed space kv) : Keyed space merged where
  edges t rank value found := by
    rw [merges.rest (fun vid same => by simpa using congrArg (Key.kind space) same)
      (not_tagEntry space (by simp [Triple.key])) (by simp [Triple.key])] at found
    exact keyed.edges t rank value found
  vertices vid value found := by
    cases merges with
    | absent => exact keyed.vertices vid value found
    | merged stored otherVid own read =>
      subst otherVid own
      rw [get_mergedStore_vertex apart] at found
      split at found
      · cases found
      · split at found
        · rename_i here
          cases found
          exact ⟨_, rfl, here.symm⟩
        · exact keyed.vertices vid value found

end

theorem readVertex_stored (read : readVertex vid (some (.vertex vertex)) = .ok into) : into = vertex := by
  have decoded : decodeVertex vid (.vertex vertex) = .ok into := read
  exact (Val.vertex.inj (decodeVertex_ok decoded).1).symm

/-- Of what is kept about vertices, a merge deletes what the merged vertex had, unless it puts it again. -/
theorem mem_mergedDeletes_view (view : region space key = some .view) :
    key ∈ mergedDeletes space tagIndexes into other ↔ (key ∈ tagKeys space other ∨
      key ∈ (vectorNames other).map fun prop => vecData space prop other.vid) ∧
        key ∉ (mergedPuts space tagIndexes into other).map Prod.fst := by
  have entry : ∀ vertex, key ∉ vertexEntries tagIndexes vertex := by
    intro vertex listed
    rw [region_vertexEntries space listed] at view
    cases view
  have fact : key ≠ Key.vertex space other.vid := by
    rintro rfl
    simp at view
  simp [mergedDeletes, entry, fact]

theorem isSome_mergedStore (view : region space key = some .view) :
    ((mergedStore space tagIndexes kv into other).get key).isSome = true ↔
      key ∈ (mergedPuts space tagIndexes into other).map Prod.fst ∨ ((kv.get key).isSome = true ∧ ¬ (key ∈ tagKeys space other ∨
        key ∈ (vectorNames other).map fun prop => vecData space prop other.vid)) := by
  rw [mergedStore, get_eraseAll]
  split
  · rename_i gone
    obtain ⟨had, unput⟩ := (mem_mergedDeletes_view view).mp gone
    simp only [Option.isSome_none, Bool.false_eq_true, unput, had, not_true_eq_false, and_false, or_false]
  · rename_i kept
    rw [mem_mergedDeletes_view view] at kept
    rw [isSome_putAll]
    tauto

theorem mem_mergedPuts_tagvid : tagvid space tag vid ∈ (mergedPuts space tagIndexes into other).map Prod.fst ↔
      vid = into.vid ∧ tag ∈ (mergedVertex into other).tags.map TagData.name := by
  simp only [mergedPuts, map_append, mem_append, map_cons, map_nil, mem_singleton, map_map,
    mem_map, Function.comp_apply]
  constructor
  · rintro ((((same | ⟨key, entry, same⟩) | ⟨own, listed, same⟩) | ⟨vector, -, same⟩) | ⟨prop, -, same⟩ | ⟨prop, -, same⟩)
    · simp [tagvid, Key.vertex] at same
    · have inside := region_vertexEntries space entry
      rw [same] at inside
      simp at inside
    · obtain ⟨rfl, rfl⟩ := same
      exact ⟨rfl, own, listed, rfl⟩
    · simp [tagvid, vecData] at same
    all_goals simp [tagvid, vecIndexDirty] at same
  · rintro ⟨rfl, own, listed, rfl⟩
    exact .inl (.inl (.inr ⟨own, listed, rfl⟩))

theorem mem_mergedPuts_vector :
    (vecData space prop vid, value) ∈ mergedPuts space tagIndexes into other ↔ vid = into.vid ∧
      ∃ components, (prop, components) ∈ embeddingProps (mergedVertex into other).tags ∧ value = .embedding components := by
  simp only [mergedPuts, mem_append, mem_singleton, mem_map, Prod.mk.injEq]
  constructor
  · rintro ((((⟨same, -⟩ | ⟨key, entry, same, -⟩) | ⟨tag, -, same, -⟩) | ⟨vector, listed, same, held⟩) | ⟨name, -, same, -⟩)
    · simp [vecData, Key.vertex] at same
    · have inside := region_vertexEntries space entry
      rw [same] at inside
      simp at inside
    · simp [tagvid, vecData] at same
    · obtain ⟨rfl, rfl⟩ := same
      exact ⟨rfl, vector.2, listed, held.symm⟩
    · simp [vecData, vecIndexDirty] at same
  · rintro ⟨rfl, components, listed, rfl⟩
    exact .inl (.inr ⟨_, listed, rfl, rfl⟩)

theorem mem_mergedPuts_vecData
    (mem : vecData space prop vid ∈ (mergedPuts space tagIndexes into other).map Prod.fst) :
    vid = into.vid ∧ prop ∈ vectorNames (mergedVertex into other) := by
  obtain ⟨⟨_, value⟩, listed, rfl⟩ := mem_map.mp mem
  obtain ⟨own, components, has, -⟩ := mem_mergedPuts_vector.mp listed
  exact ⟨own, mem_vectorNames.mpr ⟨components, has⟩⟩

theorem MergesVertex.viewed (merges : MergesVertex space tagIndexes winner loser kv merged)
    (apart : winner ≠ loser) (viewed : Viewed space kv) : Viewed space merged := by
  cases merges with
  | absent => exact viewed
  | @merged into other stored otherVid own read =>
    subst otherVid own
    -- A vertex that had something before still has it: the winner keeps its own, and the loser's is deleted.
    have carried : ∀ {vid : Int} {vertex : VertexData}, kv.get (.vertex space vid) = some (.vertex vertex) →
        vid ≠ other.vid → ∃ now, (mergedStore space tagIndexes kv into other).get (.vertex space vid) = some (.vertex now) ∧
          (now = vertex ∨ vertex = into ∧ now = mergedVertex into other) := by
      intro vid vertex found notLoser
      rw [get_mergedStore_vertex apart, if_neg notLoser]
      by_cases here : vid = into.vid
      · rw [if_pos here]
        rw [← here, found] at read
        exact ⟨_, rfl, .inr ⟨(readVertex_stored read).symm, rfl⟩⟩
      · rw [if_neg here]
        exact ⟨vertex, found, .inl rfl⟩
    have atWinner : (mergedStore space tagIndexes kv into other).get (.vertex space into.vid) =
        some (.vertex (mergedVertex into other)) := by
      rw [get_mergedStore_vertex apart, if_neg apart, if_pos rfl]
    constructor
    · intro vid tag present
      rcases (isSome_mergedStore (by simp)).mp present with listed | ⟨before, kept⟩
      · obtain ⟨rfl, has⟩ := mem_mergedPuts_tagvid.mp listed
        exact ⟨_, atWinner, has⟩
      · obtain ⟨vertex, found, has⟩ := viewed.tags vid tag before
        by_cases gone : vid = other.vid
        · subst gone
          rw [stored, Option.some.injEq, Val.vertex.injEq] at found
          subst found
          obtain ⟨own, listed, rfl⟩ := mem_map.mp has
          exact absurd (.inl (mem_map_of_mem listed)) kept
        · obtain ⟨now, held, rfl | ⟨rfl, rfl⟩⟩ := carried found gone
          · exact ⟨_, held, has⟩
          · exact ⟨_, held, mem_names_mergedVertex.mpr (.inl has)⟩
    · intro vid prop present
      rcases (isSome_mergedStore (by simp)).mp present with listed | ⟨before, kept⟩
      · obtain ⟨rfl, has⟩ := mem_mergedPuts_vecData listed
        exact ⟨_, atWinner, has⟩
      · obtain ⟨vertex, found, has⟩ := viewed.vectors vid prop before
        by_cases gone : vid = other.vid
        · subst gone
          rw [stored, Option.some.injEq, Val.vertex.injEq] at found
          subst found
          exact absurd (.inr (mem_map_of_mem has)) kept
        · obtain ⟨now, held, rfl | ⟨rfl, rfl⟩⟩ := carried found gone
          · exact ⟨_, held, has⟩
          · exact ⟨_, held, vectorNames_mergedVertex has⟩

end

theorem mirrored_retired (mirrored : Mirrored space kv) : Mirrored space (retired space indexes kv edge) :=
  Mirrored.batch [] [] (by simp) paired_retiredKeys mirrored

theorem mirrored_movedEdges (mirrored : Mirrored space kv) :
    Mirrored space (movedEdges space indexes winner loser kv edges) := by
  have keeps : ∀ {effect : KV → EdgeData → KV}, (∀ kv edge, Mirrored space kv → Mirrored space (effect kv edge)) →
      ∀ (edges : List EdgeData) (kv : KV), Mirrored space kv → Mirrored space (edges.foldl effect kv) := by
    intro effect step edges
    induction edges with
    | nil => exact fun _ mirrored => mirrored
    | cons edge rest ih => exact fun kv mirrored => ih _ (step kv edge mirrored)
  exact keeps (fun _ _ => mirrored_landed) _ _ (keeps (fun _ edge mirrored => mirrored_retired mirrored) _ _ mirrored)

theorem keyed_movedEdges (keyed : Keyed space kv) : Keyed space (movedEdges space indexes winner loser kv edges) :=
  Keyed.foldl (fun _ edge keyed => keyed.landed edge) _ (Keyed.foldl (fun _ edge keyed => keyed.retired edge) _ keyed)

theorem get_of_edgeKey (types : MovesTypes space winner loser moved typed)
    (vertex : MergesVertex space tagIndexes winner loser typed merged) (links : Links space winner loser merged kv')
    (isEdge : EdgeKey space key) : kv'.get key = moved.get key := by
  have outside : region space key = none := by
    rcases isEdge with kind | kind <;> exact region_of_kind kind
  have others : ∀ {other : Key}, other.kind space ≠ some "edge" → other.kind space ≠ some "in-edge" → key ≠ other := by
    rintro other notEdge notReverse rfl
    exact isEdge.elim notEdge notReverse
  rw [links.rest key (fun vid => others (by simp [sameas, Key.kind]) (by simp [sameas, Key.kind]))
      (fun rep vid => others (by simp [sameasMember, Key.kind]) (by simp [sameasMember, Key.kind])),
    vertex.rest (fun vid => others (by simp) (by simp))
      (not_tagEntry space (by simp [outside])) (by simp [outside]), types.rest key]
  rcases isEdge with kind | kind <;> simp [kind]

theorem aside_of_region (inside : region space key = some part) (other : part ≠ .index) : Aside space key := by
  refine ⟨not_edgeKey_of_region inside, not_edgeEntry space ?_⟩
  rw [inside]
  simpa using other

theorem get_pointer_merged
    (types : MovesTypes space winner loser (movedEdges space indexes winner loser kv edges) typed)
    (vertex : MergesVertex space tagIndexes winner loser typed merged) (key : Key)
    (inside : region space key = some .alias) : merged.get key = kv.get key := by
  have vertexless : ∀ vid, key ≠ Key.vertex space vid := by
    rintro vid rfl
    simp at inside
  rw [vertex.rest vertexless (not_tagEntry space (by simp [inside])) (by simp [inside]),
    types.rest key (kind_ne_of_region inside rfl),
    get_movedEdges_aside (aside_of_region inside (by simp))]

section

variable (sound : Sound space kv) (collapses : Collapses space indexes tagIndexes winner loser kv kv')
  (lower : winner < loser) (winnerRoot : Root space kv winner) (loserRoot : Root space kv loser)

include sound collapses loserRoot in
theorem Collapses.repAt : repAt space kv' = joined (repAt space kv) winner loser := by
  obtain ⟨moves, types, vertex, links⟩ := collapses
  have pointers := get_pointer_merged types vertex
  have same := repAt_congr fun vid => pointers (sameas space vid) (by simp)
  rw [← same]
  exact links.repAt (sound.flat.congr pointers) ((root_congr (fun vid => pointers _ (by simp)) loser).mpr loserRoot)

include sound collapses in
theorem Collapses.edge_sources (t : Triple) (rank : Int) : ∃ sources, edgeAt kv' (t.key space rank) = combined sources ∧
      ∀ edge, edge ∈ sources ↔ ∃ source, kv.get (source.key space) = some (.edge source) ∧
        edge = moveEnds loser winner source ∧ edge.key space = t.key space rank := by
  obtain ⟨moves, types, vertex, links⟩ := collapses
  have same := get_of_edgeKey types vertex links (.inl (t.kind_key space rank))
  obtain ⟨sources, result, members⟩ := edgeAt_movedEdges moves sound.keyed sound.mirrored t rank
  refine ⟨sources, ?_, members⟩
  rw [edgeAt, same]
  exact result

include sound collapses in
theorem Collapses.keyed (apart : winner ≠ loser) : Keyed space kv' := by
  obtain ⟨moves, types, vertex, links⟩ := collapses
  rename_i edges typed merged
  have keyed : Keyed space (movedEdges space indexes winner loser kv edges) := keyed_movedEdges sound.keyed
  constructor
  · intro t rank value found
    rw [get_of_edgeKey types vertex links (.inl (t.kind_key space rank))] at found
    exact keyed.edges t rank value found
  · intro vid value found
    have typedKeyed : Keyed space typed := by
      constructor
      · intro t rank value found
        rw [types.rest _ (by simp)] at found
        exact keyed.edges t rank value found
      · intro vid value found
        rw [types.rest _ (by simp)] at found
        exact keyed.vertices vid value found
    rw [links.rest _ (by simp [Key.vertex, sameas]) (by simp [Key.vertex, sameasMember])] at found
    exact (vertex.keyed apart typedKeyed).vertices vid value found

include sound collapses in
theorem Collapses.mirrored : Mirrored space kv' := by
  obtain ⟨moves, types, vertex, links⟩ := collapses
  exact (mirrored_movedEdges sound.mirrored).congr fun key isEdge => get_of_edgeKey types vertex links isEdge

include sound collapses in
theorem Collapses.viewed (apart : winner ≠ loser) : Viewed space kv' := by
  obtain ⟨moves, types, vertex, links⟩ := collapses
  have view : ∀ {key : Key}, key.kind space = some "tagvid" ∨ key.kind space = some "vec" → region space key = some .view := by
    rintro key (kind | kind) <;> exact region_of_kind kind
  have typed := sound.viewed.congr
    (fun key kind => (types.rest key (kind_ne_of_region (view kind) rfl)).trans
      (get_movedEdges_aside (aside_of_region (view kind) (by simp)) _))
    (fun vid => (types.rest _ (by simp)).trans (get_movedEdges_aside (aside_vertex space vid) _))
  refine (vertex.viewed apart typed).congr ?_ ?_
  · intro key kind
    have inside := view kind
    refine links.rest key ?_ ?_
    · rintro vid rfl
      simp at inside
    · rintro rep vid rfl
      simp at inside
  · intro vid
    exact links.rest _ (by simp [Key.vertex, sameas]) (by simp [Key.vertex, sameasMember])

include sound collapses winnerRoot in
/-- Every vertex that the merged graph names was a representative, and is not the
merged one. -/
theorem Collapses.names (apart : winner ≠ loser) (found : kv'.get key = some value)
    (mentions : Mentions space vid key) : Root space kv vid ∧ vid ≠ loser := by
  have vertices : ∀ {vid : Int} {value : Val}, kv'.get (.vertex space vid) = some value →
      Root space kv vid ∧ vid ≠ loser := by
    intro vid value found
    obtain ⟨moves, types, vertex, links⟩ := collapses
    rw [links.rest _ (by simp [Key.vertex, sameas]) (by simp [Key.vertex, sameasMember])] at found
    obtain ⟨gone, others⟩ := vertex.vertex apart
    have notLoser : vid ≠ loser := by
      rintro rfl
      rw [gone] at found
      cases found
    by_cases here : vid = winner
    · exact ⟨here ▸ winnerRoot, notLoser⟩
    · rw [others vid here notLoser, types.rest _ (by simp), get_movedEdges_aside (aside_vertex space vid)] at found
      exact ⟨sound.canonical _ _ _ found .vertex, notLoser⟩
  have edges : ∀ {t : Triple} {rank : Int} {value : Val}, kv'.get (t.key space rank) = some value →
      (Root space kv t.s ∧ t.s ≠ loser) ∧ (Root space kv t.d ∧ t.d ≠ loser) := by
    intro t rank value found
    have keyed := collapses.keyed sound apart
    obtain ⟨edge, rfl, rfl, rfl⟩ := keyed.edge found
    have present : edgeAt kv' ((tripleOf edge).key space edge.ranking) = some edge := by rw [edgeAt, found]
    obtain ⟨sources, result, members⟩ := collapses.edge_sources sound (tripleOf edge) edge.ranking
    rw [present] at result
    obtain ⟨source, listed⟩ : ∃ source, source ∈ sources := by
      cases sources with
      | nil => cases result
      | cons source rest => exact ⟨source, mem_cons_self⟩
    obtain ⟨origin, stored, rfl, key⟩ := (members source).mp listed
    obtain ⟨src, -, dst, -⟩ := edgeKey_inj.mp (key.trans (edge_key_eq space edge).symm)
    have ends : Root space kv (moveEnds loser winner origin).srcVid ∧ Root space kv (moveEnds loser winner origin).dstVid :=
      winnerRoot.moveEnds (sound.ends stored)
    have away := moveEnds_ends origin apart
    rw [src, dst] at ends away
    exact ⟨⟨ends.1, away.1⟩, ends.2, away.2⟩
  have viewed := collapses.viewed sound apart
  have mirrored := collapses.mirrored sound
  cases mentions with
  | vertex => exact vertices found
  | @source edgeType dst rank => exact (edges (t := ⟨vid, edgeType, dst⟩) found).1
  | @target edgeType src rank => exact (edges (t := ⟨src, edgeType, vid⟩) found).2
  | @inSource edgeType dst rank => exact (edges (t := ⟨vid, edgeType, dst⟩) ((mirrored _ _).symm.trans found)).1
  | @inTarget edgeType src rank => exact (edges (t := ⟨src, edgeType, vid⟩) ((mirrored _ _).symm.trans found)).2
  | tag =>
    obtain ⟨_, stored, -⟩ := viewed.tags vid _ (by rw [found]; rfl)
    exact vertices stored
  | vector =>
    obtain ⟨_, stored, -⟩ := viewed.vectors vid _ (by rw [found]; rfl)
    exact vertices stored
  | type =>
    obtain ⟨moves, types, vertex, links⟩ := collapses
    rw [links.rest _ (by simp [vtype, sameas]) (by simp [vtype, sameasMember]),
      vertex.rest (by simp [vtype, Key.vertex]) (not_tagEntry space (by simp)) (by simp)] at found
    have notLoser : vid ≠ loser := by
      rintro rfl
      rw [types.gone] at found
      cases found
    by_cases here : vid = winner
    · exact ⟨here ▸ winnerRoot, notLoser⟩
    · rw [types.others vid _ here notLoser, get_movedEdges_aside ⟨by simp [EdgeKey], not_edgeEntry space (by simp)⟩] at found
      exact ⟨sound.canonical _ _ _ found .type, notLoser⟩

include sound collapses lower winnerRoot loserRoot in
theorem Sound.collapse : Sound space kv' := by
  have apart : winner ≠ loser := Int.ne_of_lt lower
  have flat : Flat space kv' := by
    obtain ⟨moves, types, vertex, links⟩ := collapses
    have pointers := get_pointer_merged types vertex
    have roots := root_congr fun vid => pointers (sameas space vid) (by simp)
    exact links.keepsFlat (sound.flat.congr pointers) lower ((roots winner).mpr winnerRoot) ((roots loser).mpr loserRoot)
  refine ⟨collapses.keyed sound apart, collapses.mirrored sound, ?_, collapses.viewed sound apart, flat⟩
  intro key value vid found mentions
  obtain ⟨root, notLoser⟩ := collapses.names sound winnerRoot apart found mentions
  have now : Executor.repAt space kv' vid = vid := by
    rw [collapses.repAt sound loserRoot, joined, sound.flat.repAt_of_root root, if_neg notLoser]
  have reached := flat.root_repAt vid
  rwa [now] at reached

include sound collapses loserRoot in
theorem Collapses.image (apart : winner ≠ loser) : Image space (Executor.repAt space kv') kv kv' := by
  have keyed := collapses.keyed sound apart
  have ends : ∀ edge, Asserts space kv edge → mapEnds (Executor.repAt space kv') edge = moveEnds loser winner edge := by
    intro edge asserts
    obtain ⟨src, dst⟩ := sound.ends asserts.1
    simp [mapEnds, collapses.repAt sound loserRoot, joined, sound.flat.repAt_of_root src, sound.flat.repAt_of_root dst, moveEnds]
  have inferred : ∀ edge : EdgeData, (moveEnds loser winner edge).isInferred = edge.isInferred := fun _ => rfl
  constructor
  · intro edge asserts
    obtain ⟨sources, result, members⟩ := collapses.edge_sources sound (tripleOf (moveEnds loser winner edge)) edge.ranking
    have listed : moveEnds loser winner edge ∈ sources := (members _).mpr ⟨edge, asserts.1, rfl, rfl⟩
    obtain ⟨image, made⟩ : ∃ image, combined sources = some image := by
      cases sources with
      | nil => cases listed
      | cons first rest => exact ⟨_, rfl⟩
    have stored := keyed.get_eq_edgeAt (tripleOf (moveEnds loser winner edge)) edge.ranking
    rw [result, made, Option.map_some] at stored
    obtain ⟨_, same, key⟩ := keyed.edges _ _ _ stored
    cases same
    rw [ends edge asserts]
    refine ⟨image, ⟨key ▸ stored, ?_⟩, key⟩
    exact (combined_spec made).1.mpr ⟨_, listed, (inferred edge).trans asserts.2⟩
  · intro image asserts
    obtain ⟨sources, result, members⟩ := collapses.edge_sources sound (tripleOf image) image.ranking
    have made : combined sources = some image := by
      rw [← result, edgeAt, ← edge_key_eq, asserts.1]
    have origins : ∀ source, source ∈ sources ∧ source.isInferred = false →
        Unites (fun edge => Asserts space kv edge ∧ source = moveEnds loser winner edge) source := by
      rintro source ⟨listed, asserted⟩
      obtain ⟨origin, stored, rfl, -⟩ := (members source).mp listed
      refine ⟨⟨origin, ⟨stored, (inferred origin).symm.trans asserted⟩, rfl⟩, ?_, ?_⟩
      · rintro other ⟨-, same⟩ name present
        rw [same]
        exact present
      · intro name value found
        exact ⟨origin, ⟨⟨stored, (inferred origin).symm.trans asserted⟩, rfl⟩, found⟩
    refine (((combined_spec made).2 asserts.2).trans origins).congr fun edge => ?_
    constructor
    · rintro ⟨source, ⟨listed, -⟩, held, rfl⟩
      obtain ⟨-, -, -, key⟩ := (members _).mp listed
      exact ⟨held, by rw [ends edge held]; exact key⟩
    · rintro ⟨held, key⟩
      rw [ends edge held] at key
      exact ⟨_, ⟨(members _).mpr ⟨edge, held.1, rfl, key⟩, (inferred edge).trans held.2⟩, held, rfl⟩

include sound collapses in
/-- Edges that neither of the two vertices is an end of stay as they are. -/
theorem Collapses.unaffected {t : Triple} (rank : Int)
    (src : t.s ≠ winner ∧ t.s ≠ loser) (dst : t.d ≠ winner ∧ t.d ≠ loser) :
    kv'.get (t.key space rank) = kv.get (t.key space rank) := by
  obtain ⟨moves, types, vertex, links⟩ := collapses
  rename_i edges typed merged
  have member := moves.mem_iff sound.mirrored
  rw [get_of_edgeKey types vertex links (.inl (t.kind_key space rank)), movedEdges]
  have unlanded : ∀ (landing : List EdgeData) (kv : KV), Keyed space kv →
      (∀ edge ∈ landing, edge.key space ≠ t.key space rank) →
      (landing.foldl (landed space indexes) kv).get (t.key space rank) = kv.get (t.key space rank) := by
    intro landing
    induction landing with
    | nil => exact fun _ _ _ => rfl
    | cons edge rest ih =>
      intro kv keyed elsewhere
      rw [forall_mem_cons] at elsewhere
      rw [foldl_cons, ih _ (keyed.landed edge) elsewhere.2, get_landed_edge keyed, if_neg elsewhere.1]
  have kept : t.key space rank ∉ edges.map (EdgeData.key space) := by
    intro listed
    obtain ⟨edge, moved, same⟩ := mem_map.mp listed
    rw [edge_key_eq, Triple.key_inj] at same
    obtain ⟨rfl, -⟩ := same
    exact ((member edge).mp moved).2.elim src.2 dst.2
  rw [unlanded _ _ (Keyed.foldl (fun _ edge keyed => keyed.retired edge) _ sound.keyed), get_retiredAll_edge, if_neg kept]
  intro edge listed same
  obtain ⟨origin, moved, rfl⟩ := mem_map.mp listed
  rw [edge_key_eq, Triple.key_inj] at same
  obtain ⟨rfl, -⟩ := same
  rcases ((member origin).mp moved).2 with here | here
  · exact src.1 (if_pos here)
  · exact dst.1 (if_pos here)

end

end ByoriDB.Executor
