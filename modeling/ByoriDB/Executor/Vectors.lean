import ByoriDB.Executor.VertexViews

namespace ByoriDB.Executor

open List Data Program Store ByoriDB.Graph

variable {env : Env} {space : String} {tagIndexes : List IndexDef} {kv : KV}

def tagsAt (space : String) (kv : KV) (vid : Int) : List TagData :=
  match vertexAt space kv vid with
  | some vertex => vertex.tags
  | none => []

/-- A vector entry fits the tags of its vertex: it is there exactly if a tag has a
numeric list for the property, and then it is the packed form of such a list. -/
def Mirrors (tags : List TagData) (prop : String) : Option Val → Prop
  | none => ∀ tag ∈ tags, ∀ value, tag.properties.get prop = some value → packEmbedding value = none
  | some stored => ∃ tag ∈ tags, ∃ value components, tag.properties.get prop = some value ∧
      packEmbedding value = some components ∧ stored = .embedding components

structure VectorsExact (space : String) (kv : KV) : Prop where
  mirrors : ∀ prop vid, Mirrors (tagsAt space kv vid) prop (kv.get (vecData space prop vid))

section

variable {prop : String}

theorem mirrors_none : Mirrors tags prop none ↔ ∀ components, (prop, components) ∉ embeddingProps tags := by
  simp only [mem_embeddingProps]
  constructor
  · rintro lacks components ⟨tag, listed, value, stored, packed⟩
    rw [lacks tag listed value stored] at packed
    cases packed
  · intro lacks tag listed value stored
    rw [Option.eq_none_iff_forall_ne_some]
    exact fun components packed => lacks components ⟨tag, listed, value, stored, packed⟩

theorem mirrors_some {stored : Val} : Mirrors tags prop (some stored) ↔
      ∃ components, (prop, components) ∈ embeddingProps tags ∧ stored = .embedding components := by
  simp only [mem_embeddingProps]
  constructor
  · rintro ⟨tag, listed, value, components, found, packed, same⟩
    exact ⟨components, ⟨tag, listed, value, found, packed⟩, same⟩
  · rintro ⟨components, ⟨tag, listed, value, found, packed⟩, same⟩
    exact ⟨tag, listed, value, components, found, packed, same⟩

/-- A batch that puts the vectors of a vertex, over an entry that is outdated only if
it is overwritten. -/
theorem mirrors_of_puts {puts : List (Key × Val)} (fits : ∀ value, (key, value) ∈ puts ↔
      ∃ components, (prop, components) ∈ embeddingProps tags ∧ value = .embedding components)
    (stale : key ∉ puts.map Prod.fst → entry = none) :
    Mirrors tags prop ((lastPut puts key).or entry) := by
  cases last : lastPut puts key with
  | some value => exact mirrors_some.mpr ((fits value).mp (mem_of_lastPut last))
  | none =>
    have unput := lastPut_eq_none.mp last
    rw [Option.none_or, stale unput, mirrors_none]
    exact fun components listed => unput (mem_map.mpr ⟨_, (fits _).mpr ⟨components, listed, rfl⟩, rfl⟩)

end

theorem tagsAt_of_stored (found : kv.get (.vertex space vid) = some (.vertex vertex)) :
    tagsAt space kv vid = vertex.tags := by
  rw [tagsAt, vertexAt_eq_some.mpr found]

theorem tagsAt_of_missing (missing : kv.get (.vertex space vid) = none) : tagsAt space kv vid = [] := by
  simp [tagsAt, vertexAt, missing]

theorem tagsAt_congr (same : kv'.get (.vertex space vid) = kv.get (.vertex space vid)) :
    tagsAt space kv' vid = tagsAt space kv vid := by
  rw [tagsAt, tagsAt, vertexAt_congr same]

section

variable (vectors : VectorsExact space kv)

include vectors

theorem VectorsExact.unchanged
    (vertex : kv'.get (.vertex space vid) = kv.get (.vertex space vid))
    (entry : kv'.get (vecData space prop vid) = kv.get (vecData space prop vid)) :
    Mirrors (tagsAt space kv' vid) prop (kv'.get (vecData space prop vid)) := by
  rw [tagsAt_congr vertex, entry]
  exact vectors.mirrors prop vid

theorem VectorsExact.congr
    (vertices : ∀ vid, kv'.get (.vertex space vid) = kv.get (.vertex space vid))
    (entries : ∀ prop vid, kv'.get (vecData space prop vid) = kv.get (vecData space prop vid)) :
    VectorsExact space kv' :=
  ⟨fun prop vid => vectors.unchanged (vertices vid) (entries prop vid)⟩

theorem VectorsExact.stored
    (found : kv.get (vecData space prop vid) = some value) :
    ∃ vertex, kv.get (.vertex space vid) = some (.vertex vertex) ∧ prop ∈ vectorNames vertex := by
  have mirrors := vectors.mirrors prop vid
  rw [found, mirrors_some] at mirrors
  obtain ⟨components, listed, -⟩ := mirrors
  unfold tagsAt at listed
  cases at' : vertexAt space kv vid with
  | none => simp [at', embeddingProps] at listed
  | some vertex =>
    rw [at'] at listed
    exact ⟨vertex, vertexAt_eq_some.mp at', mem_vectorNames.mpr ⟨components, listed⟩⟩

end

theorem not_vectorsExact (held : (prop, components) ∈ embeddingProps (tagsAt space kv vid))
    (missing : (kv.get (vecData space prop vid)).isNone = true) : ¬ VectorsExact space kv := by
  intro vectors
  have mirrors := vectors.mirrors prop vid
  rw [Option.isNone_iff_eq_none.mp missing, mirrors_none] at mirrors
  exact mirrors components held

theorem VectorsExact.remapped (vectors : VectorsExact space kv)
    (mapping : ∀ key, region space key ≠ some .mapping → mapped.get key = kv.get key) : VectorsExact space mapped :=
  vectors.congr (fun _ => mapping _ (by simp)) fun _ _ => mapping _ (by simp)

theorem VectorsExact.removed (vectors : VectorsExact space kv) (missing : kv'.get (.vertex space vid) = none)
    (entry : kv'.get (vecData space prop vid) = none ∨
      kv'.get (vecData space prop vid) = kv.get (vecData space prop vid))
    (cleared : ∀ vertex, kv.get (.vertex space vid) = some (.vertex vertex) → prop ∈ vectorNames vertex →
      kv'.get (vecData space prop vid) = none) :
    Mirrors (tagsAt space kv' vid) prop (kv'.get (vecData space prop vid)) := by
  have none : kv'.get (vecData space prop vid) = none := by
    rcases entry with gone | kept
    · exact gone
    · rw [kept, Option.eq_none_iff_forall_ne_some]
      intro value present
      obtain ⟨vertex, found, has⟩ := vectors.stored present
      rw [← kept, cleared vertex found has] at present
      cases present
  rw [tagsAt_of_missing missing, none]
  exact fun _ listed => absurd listed not_mem_nil

section

variable (collected : VertexCollected space indexes kv vertices rows)
include collected

theorem mem_vertexPuts_vecData : (vecData space prop vid, value) ∈ vertexPuts space indexes rows ↔
      ∃ vertex, lastVertex vertices vid = some vertex ∧ ∃ components,
      (prop, components) ∈ embeddingProps vertex.tags ∧ value = .embedding components := by
  rw [vertexPuts, collected.batch, mem_append, mem_vertexViewPuts]
  constructor
  · rintro (fact | ⟨vertex, final, ⟨vector, listed, same⟩ | ⟨index, -, _, -, -, same⟩ | ⟨own, -, same⟩⟩)
    · obtain ⟨vertex, -, same⟩ := mem_map.mp fact
      simp [vecData, Key.vertex] at same
    · obtain ⟨⟨rfl, rfl⟩, rfl⟩ := same
      exact ⟨vertex, (mem_finals collected).mp final, vector.2, listed, rfl⟩
    · simp [vecData, tagIndexKey] at same
    · simp [tagvid, vecData] at same
  · rintro ⟨vertex, last, components, listed, rfl⟩
    obtain ⟨-, rfl⟩ := lastVertex_mem last
    exact .inr ⟨vertex, (mem_finals collected).mpr last, .inl ⟨_, listed, rfl⟩⟩

/-- An insertion deletes the vectors of the replaced vertices that it does not put. -/
theorem mem_vertexDeletes_vecData : vecData space prop vid ∈ vertexDeletes space indexes rows ↔
      (vid ∈ vertices.map VertexData.vid ∧ ∃ old, vertexAt space kv vid = some old ∧ prop ∈ vectorNames old) ∧
        vecData space prop vid ∉ (vertexPuts space indexes rows).map Prod.fst := by
  have tag : vecData space prop vid ∉ removedTags space rows.originalTags (finals rows) := by
    simp [removedTags, vecData, tagvid]
  simp only [vertexDeletes, mem_filter, mem_append, tag, false_or, Bool.not_eq_true', contains_eq_mem,
    decide_eq_false_iff_not]
  refine and_congr_left fun _ => ?_
  rw [collected.stale]
  constructor
  · rintro ⟨vertex, listed, stale⟩
    have own := (collected.stored vertex listed).vertexAt.2
    cases found : vertexAt space kv vertex.vid with
    | none => simp [found, viewOf] at stale
    | some old =>
      rw [found, viewOf, mem_append] at stale
      rcases stale with entry | vector
      · have inside := region_vertexEntries space entry
        simp at inside
      · obtain ⟨name, has, same⟩ := mem_map.mp vector
        rw [vecData_inj, own old found] at same
        obtain ⟨rfl, rfl⟩ := same
        exact ⟨mem_map_of_mem listed, old, found, has⟩
  · rintro ⟨among, old, found, has⟩
    obtain ⟨vertex, listed, rfl⟩ := mem_map.mp among
    refine ⟨vertex, listed, ?_⟩
    rw [found, viewOf, ← (collected.stored vertex listed).vertexAt.2 old found]
    exact mem_append_right _ (mem_map_of_mem has)

end

theorem VectorsExact.insertVertices (vectors : VectorsExact space kv)
    (inserted : InsertsVertices space indexes inserts kv kv') : VectorsExact space kv' := by
  obtain @⟨vidType, mapped, vertices, rows, puts, -, mapping, -, collected, -, fenced, marked⟩ := inserted
  have before := vectors.remapped mapping
  refine ⟨fun prop vid => ?_⟩
  have entry : kv'.get (vecData space prop vid) = if vecData space prop vid ∈ vertexDeletes space indexes rows
      then none
      else (lastPut (vertexPuts space indexes rows) (vecData space prop vid)).or
        (mapped.get (vecData space prop vid)) := by
    rw [marked _ (by simp), get_eraseAll, fenced.get (by simp [vecData, inferenceDirty]), get_putAll]
  cases last : lastVertex vertices vid with
  | none =>
    have unlisted : vid ∉ vertices.map VertexData.vid := by
      simpa [lastVertex, lastPut_eq_none] using last
    have unput : vecData space prop vid ∉ (vertexPuts space indexes rows).map Prod.fst := by
      intro listed
      obtain ⟨⟨_, value⟩, mem, rfl⟩ := mem_map.mp listed
      obtain ⟨vertex, final, -⟩ := (mem_vertexPuts_vecData collected).mp mem
      simp [last] at final
    refine before.unchanged (by rw [get_inserted collected fenced marked, last]; rfl) ?_
    rw [entry, if_neg fun gone => unlisted ((mem_vertexDeletes_vecData collected).mp gone).1.1, lastPut_eq_none.mpr unput,
      Option.none_or]
  | some vertex =>
    have found : kv'.get (.vertex space vid) = some (.vertex vertex) := by
      rw [get_inserted collected fenced marked, last]
      rfl
    rw [tagsAt_of_stored found, entry]
    have fits : ∀ value, (vecData space prop vid, value) ∈ vertexPuts space indexes rows ↔
        ∃ components, (prop, components) ∈ embeddingProps vertex.tags ∧ value = .embedding components := by
      simp [mem_vertexPuts_vecData collected, last]
    split
    · rename_i gone
      have unput := ((mem_vertexDeletes_vecData collected).mp gone).2
      have empty : Mirrors vertex.tags prop ((lastPut _ _).or none) := mirrors_of_puts fits fun _ => rfl
      rwa [lastPut_eq_none.mpr unput, Option.none_or] at empty
    · rename_i kept
      refine mirrors_of_puts fits fun unput => ?_
      rw [Option.eq_none_iff_forall_ne_some]
      intro value present
      obtain ⟨old, stored, has⟩ := before.stored present
      refine kept ((mem_vertexDeletes_vecData collected).mpr ⟨⟨?_, old, vertexAt_eq_some.mpr stored, has⟩, unput⟩)
      obtain ⟨listed, rfl⟩ := lastVertex_mem last
      exact mem_map_of_mem listed

/-- No tag but the updated one has a vector where the update writes none. -/
def UpdatePlan.KeepsVectors (space : String) (kv : KV) (plan : UpdatePlan) : Prop :=
  ∀ internal vid, Denotes space kv plan.vid internal → Represents space kv internal vid →
    ∀ prop value, plan.updates.get prop = some value → packEmbedding value = none →
      ∀ tag ∈ tagsAt space kv vid, plan.tagName ≠ some tag.name →
        ∀ other, tag.properties.get prop = some other → packEmbedding other = none

/-- An update starts from the stored tags, or from none that have properties. -/
theorem Rewrites.tags (rewrites : Rewrites space kv mapped source tagName vid oldTags) :
    oldTags = [⟨tagName, .empty⟩] ∨ (oldTags = tagsAt space kv vid ∧
      ∃ internal, Denotes space kv source internal ∧ Represents space kv internal vid) := by
  cases rewrites with
  | stored denotes represents found _ => exact .inr ⟨(tagsAt_of_stored found).symm, _, denotes, represents⟩
  | absent _ _ _ => exact .inl rfl
  | unmapped _ _ _ _ => exact .inl rfl

theorem embeddings_of_updated (mem : (prop, components) ∈ embeddingProps (updatedTags tagName updates tags)) :
    (∃ value, updates.get prop = some value ∧ packEmbedding value = some components) ∨
      ∃ tag ∈ tags, (∃ value, tag.properties.get prop = some value ∧ packEmbedding value = some components) ∧
        (tag.name = tagName → updates.get prop = none) := by
  obtain ⟨tag, listed, value, stored, packed⟩ := mem_embeddingProps.mp mem
  obtain ⟨old, among, rfl⟩ := mem_updatedTags.mp listed
  -- A tag that the update adds has no properties of its own.
  have held : old.properties.get prop = some value → old ∈ tags := by
    intro has
    split at among
    · exact among
    · rcases mem_append.mp among with own | added
      · exact own
      · rw [mem_singleton.mp added, get_empty] at has
        cases has
  by_cases named : old.name = tagName
  · rw [if_pos named, get_putAll_toList] at stored
    cases given : updates.get prop with
    | some new =>
      rw [given, Option.some_or, Option.some.injEq] at stored
      exact .inl ⟨new, rfl, stored ▸ packed⟩
    | none =>
      rw [given, Option.none_or] at stored
      exact .inr ⟨old, held stored, ⟨value, stored, packed⟩, fun _ => rfl⟩
  · rw [if_neg named] at stored
    exact .inr ⟨old, held stored, ⟨value, stored, packed⟩, fun same => absurd same named⟩

section

variable {plan : UpdatePlan} {vid : Int} {prop : String}
  (rewrites : Rewrites space kv mapped plan.vid tagName vid oldTags)
include rewrites

theorem mirrors_overwritten (tagged : plan.tagName = some tagName) (keeps : plan.KeepsVectors space kv)
    (given : plan.updates.get prop = some value) :
    Mirrors (updatedTags tagName plan.updates oldTags) prop ((packEmbedding value).map Val.embedding) := by
  cases packed : packEmbedding value with
  | some components => exact mirrors_some.mpr ⟨components, embeddings_updated given packed, rfl⟩
  | none =>
    refine mirrors_none.mpr fun components listed => ?_
    rcases embeddings_of_updated listed with ⟨new, same, isVector⟩ | ⟨tag, among, ⟨old, has, isVector⟩, untouched⟩
    · rw [given, Option.some.injEq] at same
      rw [← same, packed] at isVector
      cases isVector
    · rcases rewrites.tags with rfl | ⟨rfl, internal, denotes, represents⟩
      · rw [mem_singleton.mp among, get_empty] at has
        cases has
      · have apart : plan.tagName ≠ some tag.name := by
          intro same
          rw [tagged, Option.some.injEq] at same
          rw [untouched same.symm] at given
          cases given
        rw [keeps internal vid denotes represents prop value given packed tag among apart old has] at isVector
        cases isVector

theorem mirrors_untouched (lasting : Lasting space kv mapped) (owned : VerticesOwned space kv)
    (vectors : VectorsExact space kv) (untouched : plan.updates.get prop = none) :
    Mirrors (updatedTags tagName plan.updates oldTags) prop (kv.get (vecData space prop vid)) := by
  have before := vectors.mirrors prop vid
  cases stored : kv.get (vecData space prop vid) with
  | some value =>
    obtain ⟨vertex, found, -⟩ := vectors.stored stored
    rw [stored, mirrors_some, tagsAt_of_stored found, rewrites.stored_tags lasting owned found] at before
    obtain ⟨components, listed, same⟩ := before
    exact mirrors_some.mpr ⟨components, embeddings_kept untouched listed, same⟩
  | none =>
    rw [stored, mirrors_none] at before
    refine mirrors_none.mpr fun components listed => ?_
    rcases embeddings_of_updated listed with ⟨new, same, -⟩ | ⟨tag, among, ⟨old, has, isVector⟩, -⟩
    · rw [untouched] at same
      cases same
    · rcases rewrites.tags with rfl | ⟨rfl, -⟩
      · rw [mem_singleton.mp among, get_empty] at has
        cases has
      · exact before components (mem_embeddingProps.mpr ⟨tag, among, old, has, isVector⟩)

end

theorem VectorsExact.updateVertex (vectors : VectorsExact space kv) (owned : VerticesOwned space kv)
    (keeps : plan.KeepsVectors space kv) (updated : UpdatesVertex space indexes plan kv kv') :
    VectorsExact space kv' := by
  cases updated with
  | idle => exact vectors
  | @rewritten mapped tagName vid oldTags puts tagged mapping lasting rewrites fenced =>
    refine ⟨fun prop other => ?_⟩
    by_cases here : other = vid
    · subst here
      rw [tagsAt_of_stored ((get_rewritten_vertex mapping fenced other).trans (if_pos rfl)), get_rewritten_vector mapping fenced,
        if_pos rfl]
      split
      · rename_i given
        exact mirrors_overwritten rewrites tagged keeps given
      · rename_i untouched
        exact mirrors_untouched rewrites lasting owned vectors untouched
    · exact vectors.unchanged ((get_rewritten_vertex mapping fenced other).trans (if_neg here))
        ((get_rewritten_vector mapping fenced prop other).trans (if_neg here))

theorem VectorsExact.deleteVertices (vectors : VectorsExact space kv)
    (deleted : DeletesVertices space indexes kv kv') : VectorsExact space kv' := by
  obtain @⟨deletion, puts, deletes, fenced, marked⟩ := deleted
  refine ⟨fun prop vid => ?_⟩
  have vertexOf := get_deleted_vertex deletes fenced marked vid
  have entry : kv'.get (vecData space prop vid) = _ := get_deleted fenced marked (not_tagEntry space (by simp)) (by simp)
    (by simp [vecData, inferenceDirty])
  have taken : vecData space prop vid ∈ deletion.vids.map (.vertex space) ++ deletion.viewDeletes ↔
      vid ∈ deletion.vids ∧ ∃ vertex, vertexAt space kv vid = some vertex ∧ prop ∈ vectorNames vertex := by
    have fact : vecData space prop vid ∉ deletion.vids.map (.vertex space) := by
      simp [vecData, Key.vertex]
    rw [mem_append, or_iff_right fact, deletes.views]
    constructor
    · rintro ⟨other, gone, vertex, found, tag | ⟨name, has, same⟩⟩
      · simp [tagKeys, tagvid, vecData] at tag
      · obtain ⟨rfl, rfl⟩ := same
        exact ⟨gone, vertex, found, has⟩
    · rintro ⟨gone, vertex, found, has⟩
      exact ⟨vid, gone, vertex, found, .inr ⟨prop, has, rfl⟩⟩
  simp only [taken] at entry
  by_cases gone : vid ∈ deletion.vids
  · rw [if_pos gone] at vertexOf
    refine vectors.removed vertexOf (entry ▸ ite_eq_or_eq ..) fun vertex found has => ?_
    rw [entry, if_pos ⟨gone, vertex, vertexAt_eq_some.mpr found, has⟩]
  · rw [if_neg gone] at vertexOf
    rw [if_neg fun both => gone both.1] at entry
    exact vectors.unchanged vertexOf entry

section

variable {into other : VertexData} {winner loser : Int} {merged : KV}

theorem mem_mergedDeletes_vecData (apart : into.vid ≠ other.vid) :
    vecData space prop vid ∈ mergedDeletes space tagIndexes into other ↔ vid = other.vid ∧ prop ∈ vectorNames other := by
  have tag : vecData space prop vid ∉ tagKeys space other := by
    simp [tagKeys, vecData, tagvid]
  rw [mem_mergedDeletes_view (by simp), or_iff_right tag, mem_map]
  constructor
  · rintro ⟨⟨name, has, same⟩, -⟩
    obtain ⟨rfl, rfl⟩ := same
    exact ⟨rfl, has⟩
  · rintro ⟨rfl, has⟩
    exact ⟨⟨prop, has, rfl⟩, fun listed => apart (mem_mergedPuts_vecData listed).1.symm⟩

theorem MergesVertex.vectors (merges : MergesVertex space tagIndexes winner loser kv merged)
    (apart : winner ≠ loser) (vectors : VectorsExact space kv) : VectorsExact space merged := by
  cases merges with
  | absent => exact vectors
  | @merged into other stored otherVid own read =>
    subst otherVid own
    refine ⟨fun prop vid => ?_⟩
    have vertexOf : (mergedStore space tagIndexes kv into other).get (.vertex space vid) = _ := get_mergedStore_vertex apart
    have entry : (mergedStore space tagIndexes kv into other).get (vecData space prop vid) =
        if vid = other.vid ∧ prop ∈ vectorNames other then none
        else (lastPut (mergedPuts space tagIndexes into other) (vecData space prop vid)).or
          (kv.get (vecData space prop vid)) := by
      rw [mergedStore, get_eraseAll, get_putAll]
      simp [mem_mergedDeletes_vecData apart]
    by_cases here : vid = into.vid
    · subst here
      rw [if_neg apart, if_pos rfl] at vertexOf
      rw [tagsAt_of_stored vertexOf, entry, if_neg fun both => apart both.1]
      refine mirrors_of_puts (by simp [mem_mergedPuts_vector]) fun unput => ?_
      -- An entry of the winner from before is one of its own vectors, which it keeps.
      rw [Option.eq_none_iff_forall_ne_some]
      intro value present
      obtain ⟨vertex, found, has⟩ := vectors.stored present
      rw [found] at read
      rw [← readVertex_stored read] at has
      obtain ⟨components, listed⟩ := mem_vectorNames.mp (vectorNames_mergedVertex has)
      exact unput (mem_map.mpr ⟨_, mem_mergedPuts_vector.mpr ⟨rfl, components, listed, rfl⟩, rfl⟩)
    · have unput : vecData space prop vid ∉ (mergedPuts space tagIndexes into other).map Prod.fst :=
        fun listed => here (mem_mergedPuts_vecData listed).1
      rw [lastPut_eq_none.mpr unput, Option.none_or] at entry
      by_cases gone : vid = other.vid
      · subst gone
        rw [if_pos rfl] at vertexOf
        refine vectors.removed vertexOf (entry ▸ ite_eq_or_eq ..) fun vertex found has => ?_
        rw [stored, Option.some.injEq, Val.vertex.injEq] at found
        rw [entry, if_pos ⟨rfl, found ▸ has⟩]
      · rw [if_neg gone, if_neg here] at vertexOf
        rw [if_neg fun both => gone both.1] at entry
        exact vectors.unchanged vertexOf entry

end

/-- The condition on the statements of a run: an update of a vertex takes away no vector that another tag still has. -/
def Plan.KeepsVectors (space : String) (world : World) : Plan → Prop
  | .mutate (.update plan) => plan.edge = none → plan.KeepsVectors space world.kv
  | _ => True

theorem vectorsExact_ofVertices :
    OfVertices space (fun kv plan => plan.KeepsVectors space kv) (VectorsExact space) where
  congr vectors same := vectors.congr (fun _ => same _ .vertex) fun _ _ => same _ .vector
  merges merges apart vectors := merges.vectors apart vectors
  inserts inserted vectors := vectors.insertVertices inserted
  updates updated owned keeps vectors := vectors.updateVertex owned keeps updated
  deletes deleted vectors := vectors.deleteVertices deleted

/-- In every state of a run, also within its statements, the vector store is exact if
every update of a vertex leaves the vectors of the other tags alone. -/
theorem vectors_run {start reached : World} (readable : Readable space start.kv)
    (healthy : Healthy space start.kv) (vectors : VectorsExact space start.kv)
    (run : MeetingRuns env space (fun world plan => plan.KeepsVectors space world) start reached) :
    VectorsExact space reached.kv :=
  vectorsExact_ofVertices.run (fun _ _ keeps => keeps) readable healthy vectors run

def vectorTags : World :=
  { freshSpace with content := { freshSpace.content with
      kv := freshSpace.kv.putAll [
        (SchemaKey.tag "g" "A", .tagSchema ⟨"A", [⟨"v", some "Double", true⟩], none⟩),
        (SchemaKey.tag "g" "B", .tagSchema ⟨"B", [⟨"v", some "Double", true⟩], none⟩)] } }

def listOf (number : Int) : Props := Table.ofList [("v", .list [.int number])]

def insertVector : Plan := .mutate (.insert (.vertex "g" [⟨.int 1, [⟨"A", listOf 1⟩]⟩]))

/-- `UPDATE VERTEX ON tag 1 SET` with the given values. -/
def updateVector (tag : String) (updates : Props) : Plan :=
  .mutate (.update ⟨"g", .int 1, some tag, updates, none, none⟩)

/-- One vertex with a vector of the same name under both tags. -/
def vectored : World := after (after vectorTags insertVector) (updateVector "B" (listOf 2))

/-- `UPDATE VERTEX ON A 1 SET v = NULL`. -/
def clearVector : Plan := updateVector "A" (Table.ofList [("v", .null)])

theorem get_vectorTags (has : key.kind "g" = some kind) : vectorTags.kv.get key = none := by
  obtain ⟨third, rest, rfl⟩ := kind_eq_some has
  simp [vectorTags, freshSpace, Key.space, Key.edge, Key.tag, lastPut]

theorem readable_vectorTags : Readable "g" vectorTags.kv := .of_unindexed (by rfl) (by decide) (by decide +kernel)

theorem vectorsExact_vectorTags : VectorsExact "g" vectorTags.kv := by
  refine ⟨fun prop vid => ?_⟩
  exact fun _ listed => absurd listed not_mem_nil

theorem keepsVectors_listOf : (updateVector tag (listOf number)).KeepsVectors "g" world := by
  intro _ _ _ _ _ prop value given unpacked
  obtain rfl : .list [.int number] = value := by
    have both : "v" = prop ∧ Value.list [.int number] = value := by simpa [listOf, lastPut, eq_comm] using given
    exact both.2
  cases unpacked

theorem meets_listOf (world : World) (tag : String) (number : Int) :
    RunStep graphEnv "g" (fun world plan => plan.KeepsVectors "g" world) world (after world (updateVector tag (listOf number))) :=
  .statement 10 graphCtx _ rfl rfl keepsVectors_listOf (run_mem_visited _ _)

theorem vectors_run_updated : VectorsExact "g" (after vectored (updateVector "A" (listOf 3))).kv := by
  have inserted : RunStep graphEnv "g" (fun world plan => plan.KeepsVectors "g" world) vectorTags
    (after vectorTags insertVector) :=
    .statement 10 graphCtx insertVector rfl rfl trivial (run_mem_visited _ _)
  exact vectors_run readable_vectorTags (.of_empty get_vectorTags) vectorsExact_vectorTags
    (((Relation.ReflTransGen.single inserted).tail (meets_listOf _ "B" 2)).tail (meets_listOf _ "A" 3))

theorem runs_vectored : Runs graphEnv "g" vectorTags vectored := runs_after _ rfl rfl (runs_after _ rfl rfl .refl)

theorem runs_cleared : Runs graphEnv "g" vectorTags (after vectored clearVector) :=
  runs_after _ rfl rfl runs_vectored

/-- The entry is gone although the tag `B` still has a vector. -/
theorem vectors_cleared : Runs graphEnv "g" vectorTags (after vectored clearVector) ∧
    VectorsExact "g" vectorTags.kv ∧ ¬ VectorsExact "g" (after vectored clearVector).kv := by
  refine ⟨runs_cleared, vectorsExact_vectorTags, ?_⟩
  have held : ("v", [.int 2]) ∈ embeddingProps (tagsAt "g" (after vectored clearVector).kv 1) := by
    decide +kernel
  exact not_vectorsExact held (by decide +kernel)

end ByoriDB.Executor
