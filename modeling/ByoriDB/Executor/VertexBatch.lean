import ByoriDB.Executor.Naming

namespace ByoriDB.Executor

open List Data Program Store ByoriDB.Graph

variable {terms : Terms} {world : World}

@[simp] theorem vertex_ne_dirty : Key.vertex space vid ≠ inferenceDirty space := by
  simp [Key.vertex, inferenceDirty]

def vertexFacts (space : String) (vertices : List VertexData) : List (Key × Val) :=
  vertices.map fun vertex => (SchemaKey.vertex space vertex.vid, .vertex vertex)

def vertexAt (space : String) (kv : KV) (vid : Int) : Option VertexData :=
  match kv.get (SchemaKey.vertex space vid) with
  | some (.vertex vertex) => some vertex
  | _ => none

/-- The keys of entries in tag indexes, under tags, and of vectors. -/
def Secondary (space : String) (key : Key) : Prop := TagEntry key ∨ region space key = some .view

def Accompanies (space : String) (key : Key) : Prop := Secondary space key ∨ key = inferenceDirty space

theorem touches_accompanies (accompanies : Accompanies space key) : Touches space key := by
  rcases accompanies with (inside | inside) | rfl
  · exact touches_index (inside.region space)
  · exact touches_view inside
  · exact touches_dirty

theorem Secondary.region (secondary : Secondary space key) :
    ∃ part, region space key = some part ∧ part ≠ .alias ∧ part ≠ .mapping ∧ part ≠ .counter := by
  rcases secondary with entry | inside
  · exact ⟨_, entry.region space, by simp, by simp, by simp⟩
  · exact ⟨_, inside, by simp, by simp, by simp⟩

theorem not_secondary (index : region space key ≠ some .index)
    (view : region space key ≠ some .view) : ¬ Secondary space key := by
  rintro (entry | inside)
  · exact index (entry.region space)
  · exact view inside

@[simp] theorem not_secondary_vertex : ¬ Secondary space (.vertex space vid) := not_secondary (by simp) (by simp)

@[simp] theorem not_secondary_dirty : ¬ Secondary space (inferenceDirty space) := not_secondary (by simp) (by simp)

theorem not_edgeKey_accompanies (accompanies : Accompanies space key) : ¬ EdgeKey space key := by
  rcases accompanies with secondary | rfl
  · obtain ⟨part, inside, -⟩ := secondary.region
    exact not_edgeKey_of_region inside
  · simp [EdgeKey]

theorem isEntity_accompanies (accompanies : Accompanies space key) : key.isEntity = false := by
  rcases accompanies with secondary | rfl
  · obtain ⟨part, inside, -⟩ := secondary.region
    exact isEntity_of_region inside
  · simp

theorem not_edgeKey_vertex : ¬ EdgeKey space (.vertex space vid) := by simp [EdgeKey]

theorem FencedPuts.accompany (fenced : FencedPuts space kv (first ++ others) puts)
    (secondary : ∀ put ∈ others, Secondary space put.1) :
    ∃ rest, puts = first ++ rest ∧ (∀ put ∈ rest, Accompanies space put.1) ∧
      ∀ key, key ≠ inferenceDirty space → lastPut rest key = lastPut others key := by
  rcases fenced with ⟨rfl, -⟩ | rfl
  · exact ⟨others, rfl, fun put mem => .inl (secondary put mem), fun _ _ => rfl⟩
  · refine ⟨others ++ [(inferenceDirty space, .one)], append_assoc .., ?_, ?_⟩
    · exact forall_mem_append.mpr ⟨fun put mem => .inl (secondary put mem), by simp [Accompanies]⟩
    · intro key other
      simp [lastPut_append, lastPut, other]

section

variable {gone : List Int} {others puts : List (Key × Val)} {entries : List Key}

theorem filter_vertexFacts : ((vertexFacts space vertices).filter fun put => put.1.isEntity) = vertexFacts space vertices := by
  rw [filter_eq_self]
  intro put mem
  obtain ⟨vertex, -, rfl⟩ := mem_map.mp mem
  simp

theorem filter_accompanies (aside : ∀ put ∈ others, Accompanies space put.1) :
    (others.filter fun put => put.1.isEntity) = [] := by
  rw [filter_eq_nil_iff]
  intro put mem
  simp [isEntity_accompanies (aside put mem)]

theorem touches_vertexBatch (gone : List Int) (shape : puts = vertexFacts space vertices ++ others)
    (aside : ∀ put ∈ others, Accompanies space put.1)
    (removed : ∀ key ∈ entries, Secondary space key) :
    ∀ key ∈ puts.map Prod.fst ++ (gone.map (Key.vertex space) ++ entries),
      Touches space key ∧ ¬ EdgeKey space key ∧ key.kind space ≠ some "vtype" := by
  have vertex : ∀ vid, Touches space (Key.vertex space vid) ∧ ¬ EdgeKey space (Key.vertex space vid) ∧
      (Key.vertex space vid).kind space ≠ some "vtype" := fun vid => ⟨by simp, not_edgeKey_vertex, by simp⟩
  have accompanied : ∀ {key : Key}, Accompanies space key →
      Touches space key ∧ ¬ EdgeKey space key ∧ key.kind space ≠ some "vtype" := by
    intro key accompanies
    refine ⟨touches_accompanies accompanies, not_edgeKey_accompanies accompanies, ?_⟩
    rcases accompanies with secondary | rfl
    · obtain ⟨part, inside, -⟩ := secondary.region
      exact kind_ne_of_region inside rfl
    · simp
  intro key mem
  simp only [shape, map_append, mem_append, mem_map] at mem
  rcases mem with (⟨put, listed, rfl⟩ | ⟨put, listed, rfl⟩) | ⟨vid, -, rfl⟩ | entry
  · obtain ⟨data, -, rfl⟩ := mem_map.mp listed
    exact vertex data.vid
  · exact accompanied (aside put listed)
  · exact vertex vid
  · exact accompanied (.inl (removed key entry))

theorem records_vertices (ready : Ready env space terms world)
    (shape : puts = vertexFacts space vertices ++ others)
    (aside : ∀ put ∈ others, Accompanies space put.1)
    (removed : ∀ key ∈ entries, Secondary space key)
    (held : ∀ vid ∈ gone, ∃ vertex, world.kv.get (Key.vertex space vid) = some (.vertex vertex))
    (roots : terms.rooted → ∀ put ∈ puts, ∀ vid, Mentions space vid put.1 → Root space world.kv vid)
    (stamped : Stamped env world world' versions) (changes : versions.map VersionRow.change =
      vertexFacts space vertices ++ gone.map fun vid => (Key.vertex space vid, .empty)) :
    Records env space terms world' puts (gone.map (Key.vertex space) ++ entries) versions := by
  have touched := touches_vertexBatch gone shape aside removed
  have quiet : ∀ key ∈ puts.map Prod.fst ++ (gone.map (Key.vertex space) ++ entries), ¬ EdgeKey space key :=
    fun key mem => (touched key mem).2.1
  have marker : inferenceDirty space ∉ gone.map (Key.vertex space) ++ entries := by
    rw [mem_append]
    rintro (vertex | entry)
    · obtain ⟨vid, -, same⟩ := mem_map.mp vertex
      simpa using congrArg (Key.kind space) same
    · obtain ⟨part, inside, -⟩ := (removed _ entry).region
      exact ne_dirty_of_region inside rfl
  have entityPuts : (puts.filter fun put => put.1.isEntity) = vertexFacts space vertices := by
    rw [shape, filter_append, filter_vertexFacts, filter_accompanies aside, append_nil]
  have entityDeletes : (gone.map (Key.vertex space) ++ entries).filter Key.isEntity = gone.map (Key.vertex space) := by
    have entities : entries.filter Key.isEntity = [] := filter_isEntity_nil space fun key mem => by
      obtain ⟨part, inside, -⟩ := (removed key mem).region
      simp [inside]
    have all : (gone.map (Key.vertex space)).filter Key.isEntity = gone.map (Key.vertex space) := by
      rw [filter_eq_self]
      intro key mem
      obtain ⟨vid, -, rfl⟩ := mem_map.mp mem
      simp
    rw [filter_append, entities, all, append_nil]
  refine Records.of_facts (fun key mem => (touched key mem).1) marker (fun _ => .inr ?_) ⟨world, stamped, ready.ahead⟩
    entityPuts ?_ entityDeletes ?_ ?_ (Mirrored.batch_other quiet) ?_
  · intro t rank
    have unlisted : t.key space rank ∉ puts.map Prod.fst ++ (gone.map (Key.vertex space) ++ entries) :=
      fun mem => quiet _ mem (.inl (t.kind_key space rank))
    rw [mem_append, not_or] at unlisted
    exact Content.get_batch unlisted.1 unlisted.2
  · intro put mem
    obtain ⟨vertex, -, rfl⟩ := mem_map.mp mem
    rfl
  · intro key mem
    obtain ⟨vid, listed, rfl⟩ := mem_map.mp mem
    obtain ⟨vertex, found⟩ := held vid listed
    rw [stamped.kv, found]
    rfl
  · intro key
    rw [changes, filter_append, map_append, filter_map (l := gone), filter_map (l := gone), map_map, map_map]
    rfl
  · intro assumed put mem vid mentions
    rw [stamped.kv]
    exact roots assumed put mem vid mentions

end

theorem Sound.vertices {kv kv' : KV} (sound : Sound space kv)
    (same : ∀ key, EdgeKey space key ∨ region space key = some .alias → kv'.get key = kv.get key)
    (keyed : ∀ vid value, kv'.get (.vertex space vid) = some value → ∃ vertex, value = .vertex vertex ∧ vertex.vid = vid)
    (named : ∀ key value, kv'.get key = some value → (kv.get key).isSome = true ∨
      ∀ vid, Mentions space vid key → Root space kv vid)
    (viewed : Viewed space kv') : Sound space kv' where
  keyed := ⟨fun t rank value found =>
    sound.keyed.edges t rank value (same _ (.inl (.inl (t.kind_key space rank))) ▸ found), keyed⟩
  mirrored := sound.mirrored.congr fun key kind => same key (.inl kind)
  canonical := sound.canonical.grow (fun vid => same _ (.inr (region_sameas space vid))) named
  viewed := viewed
  flat := sound.flat.congr fun key inside => same key (.inr inside)

/-- Only marks of vector indexes differ. -/
def Marked (space : String) (kv kv' : KV) : Prop :=
  ∀ key, key.kind space ≠ some "vecidx-dirty" → kv'.get key = kv.get key

theorem wp_markVectorIndexes (props : List String) (within : terms.tended .view) :
    (props.forM (markVectorIndexDirty space)).wp (handler env) (Mutates env space terms)
      (fun _ world' => Marked space world.kv world'.kv) world := by
  refine Prog.wp_forM (fun _ (world' : World) => Marked space world.kv world'.kv) ?_ fun _ _ => rfl
  intro prop rest state marked
  have only : (markVectorIndexDirty space prop).Only (TendsTo space .view []) := tends_markVectorIndexDirty prop
  rcases only.1 with reads | tends
  · cases reads
  · refine ⟨.tend within tends (by simp), fun key other => ?_⟩
    have apart : key ≠ vecIndexDirty space prop := by
      rintro rfl
      simp at other
    exact ((get_insert ..).trans (if_neg apart)).trans (marked key other)

end ByoriDB.Executor
