import ByoriDB.Executor.Vectors

namespace ByoriDB.Executor

open List Data Program Store ByoriDB.Graph

variable {env : Env} {space : String}

/-- Every tag of a stored vertex is listed. -/
structure TagsListed (space : String) (kv : KV) : Prop where
  listed : ∀ vid tag, HasTag space kv vid tag → (kv.get (tagvid space tag vid)).isSome = true

section

variable (tags : TagsListed space kv)
include tags

theorem TagsListed.unchanged
    (vertex : kv'.get (.vertex space vid) = kv.get (.vertex space vid))
    (kept : (kv.get (tagvid space tag vid)).isSome = true → (kv'.get (tagvid space tag vid)).isSome = true)
    (has : HasTag space kv' vid tag) : (kv'.get (tagvid space tag vid)).isSome = true := by
  obtain ⟨stored, found, among⟩ := has
  exact kept (tags.listed vid tag ⟨stored, vertex ▸ found, among⟩)

theorem TagsListed.insertVertices (inserted : InsertsVertices space indexes rows kv kv') : TagsListed space kv' := by
  obtain @⟨vidType, mapped, vertices, collection, puts, -, mapping, -, collected, -, fenced, marked⟩ := inserted
  have present : ∀ vid tag, (kv'.get (tagvid space tag vid)).isSome = true ↔ _ :=
    fun _ _ => isSome_inserted collected fenced marked (.inr (by simp)) (by simp)
  have vertexOf := get_inserted collected fenced marked
  refine ⟨fun vid tag has => ?_⟩
  cases last : lastVertex vertices vid with
  | some vertex =>
    obtain ⟨stored, found, among⟩ := has
    obtain ⟨listed, rfl⟩ := lastVertex_mem last
    rw [vertexOf, last, Option.map_some, Option.some_or, Option.some.injEq, Val.vertex.injEq] at found
    obtain ⟨own, mem, rfl⟩ := mem_map.mp among
    rw [← found] at mem
    exact (present _ _).mpr (.inl ⟨_, mem_vertexViewPuts.mpr ⟨vertex,
      (mem_finals collected).mpr last, .inr (.inr ⟨own, mem, rfl⟩)⟩⟩)
  | none =>
    have same : kv'.get (.vertex space vid) = kv.get (.vertex space vid) := by
      rw [vertexOf, last, Option.map_none, Option.none_or, mapping _ (by simp)]
    refine tags.unchanged same (fun old => (present vid tag).mpr (.inr ⟨?_, ?_⟩)) has
    · rwa [mapping _ (by simp)]
    · rw [mem_append, not_or]
      constructor
      · intro removed
        obtain ⟨vertex, final, named⟩ := mem_flatMap.mp removed
        obtain ⟨name, -, own⟩ := mem_map.mp named
        rw [tagvid_inj] at own
        rw [mem_finals collected, own.2, last] at final
        cases final
      · intro stale
        obtain ⟨vertex, -, among⟩ := (collected.stale _).mp stale
        cases found : vertexAt space mapped vertex.vid with
        | none => simp [found, viewOf] at among
        | some old =>
          rw [found, viewOf, mem_append] at among
          rcases among with entry | vector
          · have inside := region_vertexEntries space entry
            simp at inside
          · simp [vecData, tagvid] at vector

theorem TagsListed.updateVertex (updated : UpdatesVertex space indexes plan kv kv') : TagsListed space kv' := by
  cases updated with
  | idle => exact tags
  | @rewritten mapped tagName vid oldTags puts tagged mapping lasting rewrites fenced =>
    refine ⟨fun other tag has => ?_⟩
    by_cases here : other = vid
    · obtain ⟨stored, found, among⟩ := has
      rw [get_rewritten_vertex mapping fenced, if_pos here, Option.some.injEq, Val.vertex.injEq] at found
      rw [← found] at among
      exact (isSome_rewritten_tag mapping fenced tag other).mpr (.inl ⟨here, among⟩)
    · exact tags.unchanged ((get_rewritten_vertex mapping fenced other).trans (if_neg here))
        (fun old => (isSome_rewritten_tag mapping fenced tag other).mpr (.inr old)) has

theorem TagsListed.deleteVertices (deleted : DeletesVertices space indexes kv kv') : TagsListed space kv' := by
  obtain @⟨deletion, puts, deletes, fenced, marked⟩ := deleted
  refine ⟨fun vid tag has => ?_⟩
  have vertexOf := get_deleted_vertex deletes fenced marked vid
  have entry : kv'.get (tagvid space tag vid) = _ := get_deleted fenced marked (not_tagEntry space (by simp)) (by simp)
    (by simp [tagvid, inferenceDirty])
  by_cases gone : vid ∈ deletion.vids
  · obtain ⟨stored, found, -⟩ := has
    rw [vertexOf, if_pos gone] at found
    cases found
  · refine tags.unchanged (vertexOf.trans (if_neg gone)) (fun old => ?_) has
    rwa [entry, if_neg]
    rw [mem_append, not_or]
    refine ⟨by simp [tagvid, Key.vertex], fun dropped => ?_⟩
    obtain ⟨other, among, vertex, found, named | ⟨prop, -, same⟩⟩ := (deletes.views _).mp dropped
    · obtain ⟨own, -, same⟩ := mem_map.mp named
      obtain ⟨stored, at', vidOf⟩ := deletes.stored other among
      rw [vertexAt_eq_some, at', Option.some.injEq, Val.vertex.injEq] at found
      rw [tagvid_inj, ← found, vidOf] at same
      exact gone (same.2 ▸ among)
    · simp [vecData, tagvid] at same

theorem TagsListed.mergeVertex (merges : MergesVertex space tagIndexes winner loser kv merged)
    (apart : winner ≠ loser) : TagsListed space merged := by
  cases merges with
  | absent => exact tags
  | @merged into other stored otherVid own read =>
    subst otherVid own
    refine ⟨fun vid tag has => ?_⟩
    have vertexOf : (mergedStore space tagIndexes kv into other).get (.vertex space vid) = _ := get_mergedStore_vertex apart
    have present : ((mergedStore space tagIndexes kv into other).get (tagvid space tag vid)).isSome = true ↔ _ :=
      isSome_mergedStore (by simp)
    by_cases gone : vid = other.vid
    · obtain ⟨_, found, -⟩ := has
      rw [vertexOf, if_pos gone] at found
      cases found
    · rw [if_neg gone] at vertexOf
      by_cases here : vid = into.vid
      · obtain ⟨_, found, among⟩ := has
        rw [vertexOf, if_pos here, Option.some.injEq, Val.vertex.injEq] at found
        rw [← found] at among
        exact present.mpr (.inl (mem_mergedPuts_tagvid.mpr ⟨here, among⟩))
      · refine tags.unchanged (vertexOf.trans (if_neg here)) (fun old => present.mpr (.inr ⟨old, ?_⟩)) has
        rintro (named | vector)
        · obtain ⟨own, -, same⟩ := mem_map.mp named
          exact gone ((tagvid_inj.mp same).2.symm)
        · simp [vecData, tagvid] at vector

end

theorem tagsListed_ofVertices : OfVertices space (fun _ _ => True) (TagsListed space) where
  congr tags same := ⟨fun _ _ has => tags.unchanged (same _ .vertex) (fun old => by rwa [same _ .tag]) has⟩
  merges merges apart tags := tags.mergeVertex merges apart
  inserts inserted tags := tags.insertVertices inserted
  updates updated _ _ tags := tags.updateVertex updated
  deletes deleted tags := tags.deleteVertices deleted

theorem Grounded.viewed (grounded : Grounded space kv) : Viewed space kv := by
  obtain ⟨clean, sound, grounds⟩ := grounded
  refine sound.viewed.congr (fun key kind => grounds.other key (.inr ?_)) fun vid => grounds.other _ (.inr (by simp))
  rcases kind with kind | kind <;> simp [kind]

/-- In every state of a run the tag entries are those of the tags that the stored vertices have. -/
theorem tags_run {start reached : World} (readable : Readable space start.kv) (healthy : Healthy space start.kv)
    (tags : TagsListed space start.kv) (runs : Runs env space start reached) (vid : Int) (tag : String) :
    (reached.kv.get (tagvid space tag vid)).isSome = true ↔ HasTag space reached.kv vid tag := by
  have listed := tagsListed_ofVertices.run (fun _ _ _ _ => trivial) readable healthy tags runs
  exact ⟨(runs.healthy readable healthy).grounded.viewed.tags vid tag, listed.listed vid tag⟩

theorem tagsListed_vectorTags : TagsListed "g" vectorTags.kv := by
  refine ⟨fun vid tag ⟨vertex, found, _⟩ => ?_⟩
  cases found

theorem tags_run_cleared :
    ((after vectored clearVector).kv.get (tagvid "g" "B" 1)).isSome = true ↔
      HasTag "g" (after vectored clearVector).kv 1 "B" :=
  tags_run readable_vectorTags (.of_empty get_vectorTags) tagsListed_vectorTags runs_cleared 1 "B"

end ByoriDB.Executor
