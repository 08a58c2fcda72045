import ByoriDB.Executor.VertexChanges

namespace ByoriDB.Executor

open List Data Program Store ByoriDB.Graph

variable {indexes : List IndexDef} {kv kv' mapped : KV}

theorem FencedPuts.get (fenced : FencedPuts space kv puts puts') (other : key ≠ inferenceDirty space) :
    (mapped.putAll puts').get key = (mapped.putAll puts).get key := by
  rcases fenced with ⟨rfl, -⟩ | rfl
  · rfl
  · rw [putAll_append, get_putAll_of_not_mem (by simpa using other)]

/-- What is present once stale keys are removed, unless they are written again. -/
theorem isSome_replaced {puts : List (Key × Val)} {stale : List Key}
    (fenced : FencedPuts space mapped puts puts') (other : key ≠ inferenceDirty space) :
    (((kv.putAll puts').eraseAll (stale.filter fun key => !(puts.map Prod.fst).contains key)).get
      key).isSome = true ↔ key ∈ puts.map Prod.fst ∨ (kv.get key).isSome = true ∧ key ∉ stale := by
  have filtered : (key ∈ stale.filter fun key => !(puts.map Prod.fst).contains key) ↔ key ∈ stale ∧ key ∉ puts.map Prod.fst := by
    simp
  rw [get_eraseAll]
  by_cases removed : key ∈ stale ∧ key ∉ puts.map Prod.fst
  · simp [removed.1, removed.2]
  · rw [if_neg (mt filtered.mp removed), fenced.get other, isSome_putAll]
    tauto

/-- The keys that statements on vertices do not write. -/
structure Aloof (space : String) (key : Key) : Prop where
  unseconded : ¬ Secondary space key
  unmapped : region space key ≠ some .mapping
  plain : key.kind space ≠ some "vertex"
  unmarked : key ≠ inferenceDirty space

theorem aloof_kind (has : key.kind space = some kind) (outside : regionOf kind = none)
    (vertex : kind ≠ "vertex") (marker : kind ≠ "inference") : Aloof space key := by
  have none : region space key = none := by rw [region_of_kind has, outside]
  refine ⟨not_secondary (by simp [none]) (by simp [none]), by simp [none], by simpa [has] using vertex, ?_⟩
  rintro rfl
  rw [kind_inferenceDirty, Option.some.injEq] at has
  exact marker has.symm

theorem aloof_edge (isEdge : EdgeKey space key) : Aloof space key := by
  rcases isEdge with kind | kind <;> exact aloof_kind kind rfl (by simp) (by simp)

theorem aloof_region {key : Key} {part : Region} (inside : region space key = some part) (index : part ≠ .index)
    (view : part ≠ .view) (mapping : part ≠ .mapping) : Aloof space key where
  unseconded := not_secondary (by simp [inside, index]) (by simp [inside, view])
  unmapped := by simp [inside, mapping]
  plain := kind_ne_of_region inside rfl
  unmarked := by
    rintro rfl
    simp at inside

theorem Aloof.vertex (aloof : Aloof space key) (vid : Int) : key ≠ Key.vertex space vid := by
  rintro rfl
  exact aloof.plain (by simp)

theorem Aloof.unviewed (aloof : Aloof space key) : key.kind space ≠ some "vecidx-dirty" := by
  intro kind
  exact aloof.unseconded (.inr (by rw [region_of_kind kind]; rfl))

section

variable {key : Key} (aloof : Aloof space key)
include aloof

theorem Aloof.not_put (shape : puts = vertexFacts space vertices ++ rest)
    (aside : ∀ put ∈ rest, Accompanies space put.1) : key ∉ puts.map Prod.fst :=
  not_put_of_apart shape aside aloof.vertex aloof.unmarked aloof.unseconded

theorem InsertsVertices.get_aloof (inserted : InsertsVertices space indexes inserts kv kv') :
    kv'.get key = kv.get key := by
  obtain ⟨-, mapping, -, collected, -, fenced, marked⟩ := inserted
  rw [vertexPuts, collected.batch] at fenced
  obtain ⟨rest, shape, aside, -⟩ := fenced.accompany secondary_vertexViewPuts
  rw [marked key aloof.unviewed, Content.get_batch (aloof.not_put shape aside) fun mem =>
    aloof.unseconded (secondary_vertexDeletes collected key mem), mapping key aloof.unmapped]

theorem UpdatesVertex.get_aloof (updated : UpdatesVertex space indexes plan kv kv') : kv'.get key = kv.get key := by
  cases updated with
  | idle => rfl
  | rewritten _ mapping _ _ fenced =>
    obtain ⟨rest, shape, aside, -⟩ := fenced.accompany secondary_tagPuts
    rw [get_rewrittenStore aloof.unseconded, get_putAll_of_not_mem (aloof.not_put shape aside), mapping key aloof.unmapped]

theorem DeletesVertices.get_aloof (deleted : DeletesVertices space indexes kv kv') : kv'.get key = kv.get key := by
  obtain ⟨deletes, fenced, marked⟩ := deleted
  have none : FencedPuts space _ (vertexFacts space [] ++ []) _ := fenced
  obtain ⟨rest, shape, aside, -⟩ := none.accompany (by simp)
  rw [marked key aloof.unviewed, Content.get_batch (aloof.not_put shape aside), get_eraseAll, if_neg]
  · exact fun entry => aloof.unseconded (.inl (tagEntry_droppedEntries entry))
  · rw [mem_append, not_or]
    refine ⟨fun mem => ?_, fun mem => aloof.unseconded (deletes.secondary key mem)⟩
    obtain ⟨vid, -, same⟩ := mem_map.mp mem
    exact aloof.vertex vid same.symm

end

section

variable {puts : List (Key × Val)} (collected : VertexCollected space indexes kv vertices rows)
  (fenced : FencedPuts space kv (vertexPuts space indexes rows) puts)
  (marked : Marked space ((kv.putAll puts).eraseAll (vertexDeletes space indexes rows)) kv')
include collected fenced marked

/-- The stored vertices: the last row for each of them, and the old ones. -/
theorem get_inserted (vid : Int) :
    kv'.get (.vertex space vid) = ((lastVertex vertices vid).map Val.vertex).or (kv.get (.vertex space vid)) := by
  have kept : Key.vertex space vid ∉ vertexDeletes space indexes rows := by
    intro mem
    simpa using secondary_vertexDeletes collected _ mem
  have others : lastPut (vertexViewPuts space indexes (finals rows)) (.vertex space vid) = none := by
    rw [lastPut_eq_none]
    intro mem
    obtain ⟨put, listed, same⟩ := mem_map.mp mem
    have secondary := secondary_vertexViewPuts put listed
    rw [same] at secondary
    simp at secondary
  rw [marked _ (by simp), get_eraseAll, if_neg kept, fenced.get (by simp), get_putAll, vertexPuts, collected.batch,
    lastPut_append, others, Option.none_or, lastPut_vertexFacts]

theorem isSome_inserted (secondary : Secondary space key)
    (view : key.kind space ≠ some "vecidx-dirty") : (kv'.get key).isSome = true ↔
      (∃ value, (key, value) ∈ vertexViewPuts space indexes (finals rows)) ∨ ((kv.get key).isSome =
      true ∧ key ∉ removedTags space rows.originalTags (finals rows) ++ rows.viewDeletes) := by
  have unmarked : key ≠ inferenceDirty space := by
    rintro rfl
    simp at secondary
  have fact : key ∉ (vertexFacts space vertices).map Prod.fst := by
    intro mem
    obtain ⟨put, listed, rfl⟩ := mem_map.mp mem
    obtain ⟨vertex, -, rfl⟩ := mem_map.mp listed
    simp at secondary
  rw [marked key view, vertexDeletes, isSome_replaced fenced unmarked, vertexPuts, collected.batch, map_append, mem_append,
    or_iff_right fact, mem_map]
  simp

theorem viewed_inserted (viewed : Viewed space kv) : Viewed space kv' := by
  have written : ∀ {vertex : VertexData}, vertex ∈ finals rows → kv'.get (.vertex space vertex.vid) = some (.vertex vertex) := by
    intro vertex final
    rw [get_inserted collected fenced marked, (mem_finals collected).mp final]
    rfl
  constructor
  · intro vid tag present
    rcases (isSome_inserted collected fenced marked (.inr (by simp)) (by simp)).mp present with ⟨value, put⟩ | ⟨old, kept⟩
    · obtain ⟨vertex, final, ⟨vector, -, same⟩ | ⟨index, -, _, -, -, same⟩ | ⟨own, listed, same⟩⟩ := mem_vertexViewPuts.mp put
      · simp [tagvid, vecData] at same
      · simp [tagvid, tagIndexKey] at same
      · obtain ⟨⟨rfl, rfl⟩, -⟩ := same
        exact ⟨vertex, written final, mem_map.mpr ⟨own, listed, rfl⟩⟩
    · obtain ⟨stored, found, has⟩ := viewed.tags vid tag old
      cases last : lastVertex vertices vid with
      | none => exact ⟨stored, by rw [get_inserted collected fenced marked, last, found]; rfl, has⟩
      | some vertex =>
        obtain ⟨listed, rfl⟩ := lastVertex_mem last
        have final := (mem_finals collected).mpr last
        refine ⟨vertex, written final, ?_⟩
        by_contra missing
        refine kept (mem_append_left _ ?_)
        rw [removedTags, mem_flatMap]
        refine ⟨vertex, final, mem_map.mpr ⟨tag, mem_filter.mpr ⟨?_, by simpa using missing⟩, rfl⟩⟩
        rw [collected.original, if_pos (mem_map.mpr ⟨vertex, listed, rfl⟩), vertexAt_eq_some.mpr found]
        exact has
  · intro vid prop present
    rcases (isSome_inserted collected fenced marked (.inr (by simp)) (by simp)).mp present with ⟨value, put⟩ | ⟨old, kept⟩
    · obtain ⟨vertex, final, ⟨vector, listed, same⟩ | ⟨index, -, _, -, -, same⟩ | ⟨own, -, same⟩⟩ := mem_vertexViewPuts.mp put
      · obtain ⟨⟨rfl, rfl⟩, -⟩ := same
        exact ⟨vertex, written final, mem_map.mpr ⟨vector, listed, rfl⟩⟩
      · simp [vecData, tagIndexKey] at same
      · simp [tagvid, vecData] at same
    · obtain ⟨stored, found, has⟩ := viewed.vectors vid prop old
      cases last : lastVertex vertices vid with
      | none => exact ⟨stored, by rw [get_inserted collected fenced marked, last, found]; rfl, has⟩
      | some vertex =>
        obtain ⟨listed, rfl⟩ := lastVertex_mem last
        refine absurd (mem_append_right _ ((collected.stale _).mpr ⟨vertex, listed, ?_⟩)) kept
        rw [vertexAt_eq_some.mpr found]
        obtain ⟨-, own⟩ := (collected.stored vertex listed).vertexAt
        rw [← own stored (vertexAt_eq_some.mpr found)]
        exact mem_append_right _ (mem_map.mpr ⟨prop, has, rfl⟩)

end

theorem Marked.mentions (marked : Marked space found kv') (stored : kv'.get key = some value) :
    found.get key = some value ∨ ∀ vid, ¬ Mentions space vid key := by
  by_cases mark : key.kind space = some "vecidx-dirty"
  · refine .inr fun vid mentions => ?_
    have matters := mentions.matters
    simp [Matters, mark, region_of_kind mark, regionOf] at matters
  · exact .inl (marked key mark ▸ stored)

theorem Sound.remapped (sound : Sound space kv) (mapping : ∀ key, region space key ≠ some .mapping →
      mapped.get key = kv.get key) : Sound space mapped :=
  sound.congr fun key matters => mapping key fun inside => not_matters_of_region inside (by simp) (by simp) matters

theorem aloof_edge_or_alias (other : EdgeKey space key ∨ region space key = some .alias) : Aloof space key :=
  other.elim aloof_edge fun inside => aloof_region inside (by simp) (by simp) (by simp)

theorem Sound.insertVertices (sound : Sound space kv)
    (inserted : InsertsVertices space indexes inserts kv kv') : Sound space kv' := by
  have aloof := fun key (other : EdgeKey space key ∨ region space key = some .alias) =>
    inserted.get_aloof (aloof_edge_or_alias other)
  obtain ⟨-, mapping, -, collected, -, fenced, marked⟩ := inserted
  have mappedSound := sound.remapped mapping
  refine mappedSound.vertices ?_ ?_ ?_ (viewed_inserted collected fenced marked mappedSound.viewed)
  · exact fun key other => (aloof key other).trans (mapping key (aloof_edge_or_alias other).unmapped).symm
  · intro vid value found
    rw [get_inserted collected fenced marked] at found
    cases last : lastVertex _ vid with
    | none =>
      rw [last, Option.map_none, Option.none_or] at found
      exact mappedSound.keyed.vertices vid value found
    | some vertex =>
      rw [last, Option.map_some, Option.some_or, Option.some.injEq] at found
      exact ⟨vertex, found.symm, (lastVertex_mem last).2⟩
  · intro key value found
    rcases marked.mentions found with stored | unnamed
    · obtain ⟨-, put | old⟩ := get_batch_cases stored
      · exact .inr (collected.names fenced _ put)
      · exact .inl (by simp [old])
    · exact .inr fun vid mentions => absurd mentions (unnamed vid)

def VerticesOwned (space : String) (kv : KV) : Prop :=
  ∀ vid, (kv.get (SchemaKey.vertex space vid)).isSome = true → Owned space kv vid

theorem get_mirrored_vector : (entries.foldl (mirroredEntry space vid) kv).get (vecData space prop vid) =
      match lastPut entries prop with
      | some value => (packEmbedding value).map Val.embedding
      | none => kv.get (vecData space prop vid) := by
  induction entries generalizing kv with
  | nil => rfl
  | cons entry rest ih =>
    rw [foldl_cons, ih, lastPut]
    cases lastPut rest prop with
    | some value => rfl
    | none =>
      have apart : vecData space prop vid ≠ vecIndexDirty space entry.1 := by
        simp [vecData, vecIndexDirty]
      by_cases here : prop = entry.1
      · subst here
        simp only [mirroredEntry, get_insert, if_neg apart, if_true, Option.none_or]
        cases packEmbedding entry.2 <;> simp
      · have other : vecData space prop vid ≠ vecData space entry.1 vid := by simp [here]
        simp only [mirroredEntry, get_insert, if_neg apart, if_neg here, Option.none_or]
        cases packEmbedding entry.2 <;> simp [other]

theorem get_mirrored_other (apart : other ≠ vid) (prop : String) (entries : List (String × Value))
    (kv : KV) :
    (entries.foldl (mirroredEntry space vid) kv).get (vecData space prop other) =
      kv.get (vecData space prop other) := by
  refine get_foldl (fun table entry => ?_) entries kv
  have mark : vecData space prop other ≠ vecIndexDirty space entry.1 := by
    simp [vecData, vecIndexDirty]
  simp only [mirroredEntry, get_insert, if_neg mark]
  cases packEmbedding entry.2 <;> simp [apart]

section

variable {updates : Props}

/-- A tag in the updated list: the one named by the update, or an old one. -/
theorem mem_updatedTags : tag ∈ updatedTags tagName updates tags ↔
    ∃ old ∈ if tags.any fun tag => tag.name = tagName then tags else tags ++ [⟨tagName, .empty⟩],
      tag = if old.name = tagName then { old with properties := old.properties.putAll updates.toList } else old := by
  simp only [updatedTags, mem_map, eq_comm]

theorem names_updatedTags (had : name ∈ tags.map TagData.name) :
    name ∈ (updatedTags tagName updates tags).map TagData.name := by
  obtain ⟨tag, listed, rfl⟩ := mem_map.mp had
  refine mem_map.mpr ⟨_, mem_updatedTags.mpr ⟨tag, ?_, rfl⟩, ?_⟩
  · split
    · exact listed
    · exact mem_append_left _ listed
  · split <;> rfl

theorem get_putAll_toList (props : Props) :
    (props.putAll updates.toList).get name = (updates.get name).or (props.get name) := by
  rw [get_putAll, lastPut_toList]

theorem embeddings_updated (given : updates.get prop = some value) (packed : packEmbedding value = some components) :
    (prop, components) ∈ embeddingProps (updatedTags tagName updates tags) := by
  have named : ∃ old ∈ (if tags.any fun tag => tag.name = tagName then tags else tags ++ [⟨tagName, .empty⟩]),
      TagData.name old = tagName := by
    split
    · rename_i has
      simpa using has
    · exact ⟨⟨tagName, .empty⟩, by simp, rfl⟩
  obtain ⟨old, listed, name⟩ := named
  refine mem_embeddingProps.mpr ⟨_, mem_updatedTags.mpr ⟨old, listed, rfl⟩, value, ?_, packed⟩
  rw [if_pos name, get_putAll_toList, given]
  rfl

theorem embeddings_kept (untouched : updates.get prop = none) (had : (prop, components) ∈ embeddingProps tags) :
    (prop, components) ∈ embeddingProps (updatedTags tagName updates tags) := by
  obtain ⟨tag, listed, value, stored, packed⟩ := mem_embeddingProps.mp had
  refine mem_embeddingProps.mpr ⟨_, mem_updatedTags.mpr ⟨tag, ?_, rfl⟩, value, ?_, packed⟩
  · split
    · exact listed
    · exact mem_append_left _ listed
  · split
    · rw [get_putAll_toList, untouched]
      exact stored
    · exact stored

end

/-- What is stored under the id of an updated vertex are the tags it started from. -/
theorem Rewrites.stored_tags (rewrites : Rewrites space kv mapped source tagName vid oldTags)
    (lasting : Lasting space kv mapped) (owned : VerticesOwned space kv)
    (found : kv.get (.vertex space vid) = some (.vertex vertex)) : vertex.tags = oldTags := by
  cases rewrites with
  | stored _ _ same _ =>
    rw [found, Option.some.injEq, Val.vertex.injEq] at same
    rw [same]
  | absent _ _ missing => simp [found] at missing
  | @unmapped value _ strings missing owns =>
    obtain ⟨other, held⟩ := owned vid (by simp [found]) strings
    have same := (lasting _ _ (by simp) held.2).symm.trans owns.2
    simp only [Option.some.injEq, Val.text.injEq] at same
    rw [← same, held.1] at missing
    cases missing

section

variable {vid : Int} {updates : Props} {puts : List (Key × Val)}
  (mapping : ∀ key, region space key ≠ some .mapping → mapped.get key = kv.get key) (lasting : Lasting space kv mapped)
  (rewrites : Rewrites space kv mapped source tagName vid oldTags)
  (fenced : FencedPuts space mapped (vertexFacts space [⟨vid, updatedTags tagName updates oldTags⟩] ++
    tagPuts space ⟨vid, updatedTags tagName updates oldTags⟩) puts)
include mapping fenced

theorem get_rewritten_vertex (other : Int) :
    (rewrittenStore space indexes oldTags ⟨vid, updatedTags tagName updates oldTags⟩ updates (mapped.putAll puts)).get
      (.vertex space other) =
      if other = vid then some (.vertex ⟨vid, updatedTags tagName updates oldTags⟩) else kv.get (.vertex space other) := by
  have tags : lastPut (tagPuts space ⟨vid, updatedTags tagName updates oldTags⟩) (.vertex space other) = none := by
    rw [lastPut_eq_none]
    intro mem
    obtain ⟨put, listed, same⟩ := mem_map.mp mem
    have secondary := secondary_tagPuts put listed
    rw [same] at secondary
    simp at secondary
  rw [get_rewrittenStore (by simp), fenced.get (by simp), get_putAll, lastPut_append, tags, Option.none_or,
    mapping _ (by simp)]
  by_cases here : other = vid <;> simp [vertexFacts, lastPut, Key.vertex, here]

theorem isSome_rewritten_tag (tag : String) (other : Int) :
    ((rewrittenStore space indexes oldTags ⟨vid, updatedTags tagName updates oldTags⟩
      updates (mapped.putAll puts)).get (tagvid space tag other)).isSome = true ↔
      (other = vid ∧ tag ∈ (updatedTags tagName updates oldTags).map TagData.name) ∨
        (kv.get (tagvid space tag other)).isSome = true := by
  have through : (rewrittenStore space indexes oldTags ⟨vid,
    updatedTags tagName updates oldTags⟩ updates (mapped.putAll puts)).get
      (tagvid space tag other) = (mapped.putAll puts).get (tagvid space tag other) := by
    unfold rewrittenStore
    rw [get_foldl (fun _ _ => get_mirroredEntry (by simp) (by simp)),
      get_foldl fun _ _ => get_movedEntry (not_tagEntry space (by simp))]
  have dirty : tagvid space tag other ≠ inferenceDirty space := by
    simp [tagvid, inferenceDirty]
  have listed : tagvid space tag other ∈ (vertexFacts space [⟨vid, updatedTags tagName updates oldTags⟩] ++
      tagPuts space ⟨vid, updatedTags tagName updates oldTags⟩).map Prod.fst ↔
      other = vid ∧ tag ∈ (updatedTags tagName updates oldTags).map TagData.name := by
    have apart : tagvid space tag other ≠ Key.vertex space vid := by simp [tagvid, Key.vertex]
    simp only [vertexFacts, tagPuts, tagKeys, map_cons, map_nil, cons_append, nil_append, map_map,
      mem_cons, apart, false_or, mem_map, Function.comp_apply, tagvid_inj]
    constructor
    · rintro ⟨own, mem, rfl, rfl⟩
      exact ⟨rfl, own, mem, rfl⟩
    · rintro ⟨rfl, own, mem, rfl⟩
      exact ⟨own, mem, rfl, rfl⟩
  rw [through, fenced.get dirty, isSome_putAll, listed, mapping _ (by simp)]

theorem get_rewritten_vector (prop : String) (other : Int) :
    (rewrittenStore space indexes oldTags ⟨vid, updatedTags tagName updates oldTags⟩ updates (mapped.putAll puts)).get
      (vecData space prop other) =
      if other = vid then
        match updates.get prop with
        | some value => (packEmbedding value).map Val.embedding
        | none => kv.get (vecData space prop vid)
      else kv.get (vecData space prop other) := by
  have below : ∀ vid, (indexes.foldl (movedEntry oldTags ⟨vid, updatedTags tagName updates oldTags⟩) (mapped.putAll puts)).get
      (vecData space prop other) = kv.get (vecData space prop other) := by
    intro vid
    have dirty : vecData space prop other ≠ inferenceDirty space := by
      simp [vecData, inferenceDirty]
    rw [get_foldl fun _ _ => get_movedEntry (not_tagEntry space (by simp)),
      fenced.get dirty, get_putAll_of_not_mem, mapping _ (by simp)]
    simp [vertexFacts, tagPuts, tagKeys, vecData, Key.vertex, tagvid]
  unfold rewrittenStore
  by_cases here : other = vid
  · subst here
    rw [get_mirrored_vector, lastPut_toList, if_pos rfl, below]
  · rw [get_mirrored_other here, if_neg here, below]

include lasting rewrites in
theorem viewed_rewritten (viewed : Viewed space kv) (owned : VerticesOwned space kv) :
    Viewed space (rewrittenStore space indexes oldTags ⟨vid, updatedTags tagName updates oldTags⟩ updates
      (mapped.putAll puts)) := by
  constructor
  · intro other tag present
    rw [isSome_rewritten_tag mapping fenced] at present
    by_cases here : other = vid
    · subst here
      refine ⟨_, (get_rewritten_vertex mapping fenced other).trans (if_pos rfl), ?_⟩
      rcases present with ⟨-, new⟩ | old
      · exact new
      · obtain ⟨vertex, found, has⟩ := viewed.tags other tag old
        rw [rewrites.stored_tags lasting owned found] at has
        exact names_updatedTags has
    · obtain ⟨vertex, found, has⟩ := viewed.tags other tag (present.resolve_left fun new => here new.1)
      exact ⟨vertex, (get_rewritten_vertex mapping fenced other).trans ((if_neg here).trans found), has⟩
  · intro other prop present
    rw [get_rewritten_vector mapping fenced] at present
    by_cases here : other = vid
    · subst here
      rw [if_pos rfl] at present
      refine ⟨_, (get_rewritten_vertex mapping fenced other).trans (if_pos rfl), ?_⟩
      cases given : updates.get prop with
      | some value =>
        rw [given, Option.isSome_map] at present
        obtain ⟨components, packed⟩ := Option.isSome_iff_exists.mp present
        exact mem_vectorNames.mpr ⟨components, embeddings_updated given packed⟩
      | none =>
        rw [given] at present
        obtain ⟨vertex, found, has⟩ := viewed.vectors other prop present
        obtain ⟨components, listed⟩ := mem_vectorNames.mp has
        rw [rewrites.stored_tags lasting owned found] at listed
        exact mem_vectorNames.mpr ⟨components, embeddings_kept given listed⟩
    · rw [if_neg here] at present
      obtain ⟨vertex, found, has⟩ := viewed.vectors other prop present
      exact ⟨vertex, (get_rewritten_vertex mapping fenced other).trans ((if_neg here).trans found), has⟩

end

theorem Sound.updateVertex (sound : Sound space kv) (aliases : AliasesOwned space kv) (owned : VerticesOwned space kv)
    (updated : UpdatesVertex space indexes plan kv kv') : Sound space kv' := by
  have aloof := fun key (other : EdgeKey space key ∨ region space key = some .alias) =>
    updated.get_aloof (aloof_edge_or_alias other)
  cases updated with
  | idle => exact sound
  | @rewritten mapped tagName vid oldTags puts tagged mapping lasting rewrites fenced =>
    have root := rewrites.root lasting aliases
    refine sound.vertices aloof ?_ ?_ (viewed_rewritten mapping lasting rewrites fenced sound.viewed owned)
    · intro other value found
      rw [get_rewritten_vertex mapping fenced] at found
      split at found
      · rename_i here
        cases found
        exact ⟨_, rfl, here.symm⟩
      · exact sound.keyed.vertices other value found
    · intro key value found
      by_cases old : (kv.get key).isSome = true
      · exact .inl old
      · refine .inr fun other mentions => ?_
        have stale : Aloof space key → False := fun isAloof =>
          old (by rw [← (UpdatesVertex.rewritten tagged mapping lasting rewrites fenced).get_aloof isAloof, found]; rfl)
        cases mentions with
        | vertex =>
          rw [get_rewritten_vertex mapping fenced] at found
          split at found
          · rename_i here
            exact here ▸ root
          · exact absurd (by simp [found]) old
        | tag =>
          have present := (isSome_rewritten_tag mapping fenced _ _).mp (Option.isSome_iff_exists.mpr ⟨value, found⟩)
          rcases present with ⟨rfl, -⟩ | was
          · exact root
          · exact absurd was old
        | vector =>
          rw [get_rewritten_vector mapping fenced] at found
          split at found
          · rename_i here
            exact here ▸ root
          · exact absurd (by simp [found]) old
        | type => exact (stale (aloof_kind kind_vtype rfl (by simp) (by simp))).elim
        | source | target => exact (stale (aloof_edge (.inl (by simp [edgeData, Key.kind])))).elim
        | inSource | inTarget => exact (stale (aloof_edge (.inr (by simp [inEdgeData, Key.kind])))).elim

section

variable {deletion : VertexDeletion} {puts : List (Key × Val)} (deletes : Deletes space kv deletion)
  (fenced : FencedPuts space (kv.eraseAll (droppedEntries space indexes kv deletion.vids)) [] puts)
  (marked : Marked space (((kv.eraseAll (droppedEntries space indexes kv deletion.vids)).putAll puts).eraseAll
    (deletion.vids.map (SchemaKey.vertex space) ++ deletion.viewDeletes)) kv')
include deletes fenced marked

omit deletes in
theorem get_deleted (unindexed : ¬ TagEntry key) (view : key.kind space ≠ some "vecidx-dirty")
    (unmarked : key ≠ inferenceDirty space) :
    kv'.get key = if key ∈ deletion.vids.map (.vertex space) ++ deletion.viewDeletes then none else kv.get key := by
  rw [marked key view, get_eraseAll, fenced.get unmarked, Table.putAll, foldl_nil, get_eraseAll,
    if_neg fun entry => unindexed (tagEntry_droppedEntries entry)]

theorem get_deleted_vertex (vid : Int) :
    kv'.get (.vertex space vid) = if vid ∈ deletion.vids then none else kv.get (.vertex space vid) := by
  have view : Key.vertex space vid ∉ deletion.viewDeletes := fun mem => by
    simpa using deletes.secondary _ mem
  have same : ∀ other, Key.vertex space other = Key.vertex space vid ↔ other = vid := by simp [Key.vertex]
  rw [get_deleted fenced marked (not_tagEntry space (by simp)) (by simp) (by simp)]
  simp [view, same]

theorem viewed_deleted (viewed : Viewed space kv) : Viewed space kv' := by
  have vertices := get_deleted_vertex deletes fenced marked
  constructor
  · intro vid tag present
    have dirty : tagvid space tag vid ≠ inferenceDirty space := by
      simp [tagvid, inferenceDirty]
    rw [get_deleted fenced marked (not_tagEntry space (by simp)) (by simp) dirty] at present
    split at present
    · cases present
    · rename_i kept
      obtain ⟨vertex, found, has⟩ := viewed.tags vid tag present
      refine ⟨vertex, ?_, has⟩
      rw [vertices, if_neg, found]
      intro gone
      refine kept (mem_append_right _ ((deletes.views _).mpr ⟨vid, gone, vertex, vertexAt_eq_some.mpr found, .inl ?_⟩))
      obtain ⟨stored, same, own⟩ := deletes.stored vid gone
      rw [found, Option.some.injEq, Val.vertex.injEq] at same
      obtain ⟨data, listed, rfl⟩ := mem_map.mp has
      exact mem_map.mpr ⟨data, listed, by rw [same, own]⟩
  · intro vid prop present
    have dirty : vecData space prop vid ≠ inferenceDirty space := by
      simp [vecData, inferenceDirty]
    rw [get_deleted fenced marked (not_tagEntry space (by simp)) (by simp) dirty] at present
    split at present
    · cases present
    · rename_i kept
      obtain ⟨vertex, found, has⟩ := viewed.vectors vid prop present
      refine ⟨vertex, ?_, has⟩
      rw [vertices, if_neg, found]
      intro gone
      exact kept (mem_append_right _ ((deletes.views _).mpr
        ⟨vid, gone, vertex, vertexAt_eq_some.mpr found, .inr ⟨prop, has, rfl⟩⟩))

end

theorem Sound.deleteVertices (sound : Sound space kv)
    (deleted : DeletesVertices space indexes kv kv') : Sound space kv' := by
  have aloof := fun key (other : EdgeKey space key ∨ region space key = some .alias) =>
    deleted.get_aloof (aloof_edge_or_alias other)
  obtain ⟨deletes, fenced, marked⟩ := deleted
  refine sound.vertices aloof ?_ ?_ (viewed_deleted deletes fenced marked sound.viewed)
  · intro vid value found
    rw [get_deleted_vertex deletes fenced marked] at found
    split at found
    · cases found
    · exact sound.keyed.vertices vid value found
  · intro key value found
    rcases marked.mentions found with stored | unnamed
    · obtain ⟨-, put | old⟩ := get_batch_cases stored
      · rcases fenced with ⟨rfl, -⟩ | rfl
        · cases put
        · refine .inr fun vid mentions => ?_
          cases mem_singleton.mp put
          simp at mentions
      · rw [get_eraseAll] at old
        split at old
        · cases old
        · exact .inl (by simp [old])
    · exact .inr fun vid mentions => absurd mentions (unnamed vid)

end ByoriDB.Executor
