import ByoriDB.Executor.Degrees
import ByoriDB.Executor.Sound

namespace ByoriDB.Executor

open List Data Program Store ByoriDB.Graph

variable {terms : Terms} {world : World}

def edgeFacts (space : String) (edges : List EdgeData) : List (Key × Val) :=
  edges.map fun edge => (edge.key space, .edge edge)

def edgeKeys (space : String) (edges : List EdgeData) : List Key :=
  edges.map (EdgeData.key space) ++ edges.map (EdgeData.inKey space)

theorem filter_edgePairs :
    ((edges.flatMap (edgePair space)).filter fun put => put.1.isEntity) = edgeFacts space edges := by
  induction edges with
  | nil => rfl
  | cons edge rest ih =>
    rw [flatMap_cons, filter_append, ih]
    simp [edgePair, edgeFacts]

theorem filter_unnamed {others : List (Key × Val)} (unnamed : ∀ put ∈ others, Unnamed space put.1) :
    (others.filter fun put => put.1.isEntity) = [] := by
  rw [filter_eq_nil_iff]
  intro put mem
  rcases unnamed put mem with entry | same
  · simp [isEntity_of_region (entry.region space)]
  · simp [same]

theorem touches_unnamed (unnamed : Unnamed space key) : Touches space key := by
  rcases unnamed with entry | rfl
  · exact touches_index (entry.region space)
  · exact touches_dirty

theorem FencedPuts.split (fenced : FencedPuts space kv (first ++ others) puts)
    (indexed : ∀ put ∈ others, EdgeEntry put.1) : ∃ rest, puts = first ++ rest ∧ ∀ put ∈ rest, Unnamed space put.1 := by
  rcases fenced with ⟨rfl, -⟩ | rfl
  · exact ⟨others, rfl, fun put mem => .inl (indexed put mem)⟩
  · refine ⟨others ++ [(inferenceDirty space, .one)], append_assoc .., ?_⟩
    exact forall_mem_append.mpr ⟨fun put mem => .inl (indexed put mem), by simp [Unnamed]⟩

theorem mem_edgeKeys (mem : key ∈ edgeKeys space edges) :
    ∃ edge ∈ edges, key = edge.key space ∨ key = edge.inKey space := by
  rcases mem_append.mp mem with forward | reverse
  · obtain ⟨edge, listed, rfl⟩ := mem_map.mp forward
    exact ⟨edge, listed, .inl rfl⟩
  · obtain ⟨edge, listed, rfl⟩ := mem_map.mp reverse
    exact ⟨edge, listed, .inr rfl⟩

theorem edgeKey_mem_edgeKeys (mem : key ∈ edgeKeys space edges) : EdgeKey space key := by
  obtain ⟨edge, -, rfl | rfl⟩ := mem_edgeKeys mem
  · exact .inl (by simp)
  · exact .inr (by simp)

theorem paired_edgeKeys (indexed : ∀ key ∈ entries, EdgeEntry key) (t : Triple) (rank : Int) :
    t.inKey space rank ∈ edgeKeys space edges ++ entries ↔ t.key space rank ∈ edgeKeys space edges ++ entries := by
  have forward : t.key space rank ∉ entries := fun mem => by simpa [Triple.key] using (indexed _ mem).region space
  have reverse : t.inKey space rank ∉ entries := fun mem => by simpa [Triple.inKey] using (indexed _ mem).region space
  simp [edgeKeys, forward, reverse, edge_key_eq, edge_inKey_eq]

section

variable {edges gone : List EdgeData} {puts : List (Key × Val)} {entries : List Key}

/-- Only asserted edges are removed here. -/
def Retires (space : String) (kv : KV) (gone : List EdgeData) : Prop := ∀ edge ∈ gone, Asserts space kv edge

theorem Retires.nothing (space : String) (kv : KV) : Retires space kv [] := by simp [Retires]

section

theorem touches_edgePairs : ∀ key ∈ (edges.flatMap (edgePair space)).map Prod.fst, Touches space key := by
  intro key mem
  obtain ⟨put, listed, rfl⟩ := mem_map.mp mem
  obtain ⟨edge, -, pair⟩ := mem_flatMap.mp listed
  exact touches_edgePair pair

theorem touches_removed (removed : ∀ key ∈ entries, EdgeEntry key) :
    ∀ key ∈ edgeKeys space gone ++ entries, Touches space key := by
  refine touches_append (fun key mem => ?_) fun key mem => touches_index ((removed key mem).region space)
  obtain ⟨edge, -, rfl | rfl⟩ := mem_edgeKeys mem <;> simp

theorem dirty_not_removed (removed : ∀ key ∈ entries, EdgeEntry key) :
    inferenceDirty space ∉ edgeKeys space gone ++ entries := by
  rw [mem_append]
  rintro (key | entry)
  · obtain ⟨edge, -, same | same⟩ := mem_edgeKeys key <;> simp at same
  · exact ne_dirty_of_region ((removed _ entry).region space) rfl

end

theorem Guarded.fencedEdges (guarded : Guarded space kv) (gone : List EdgeData)
    (fenced : FencedPuts space kv (edges.flatMap (edgePair space) ++ others) puts)
    (indexed : ∀ put ∈ others, EdgeEntry put.1) (removed : ∀ key ∈ entries, EdgeEntry key)
    (asserted : ∀ edge ∈ edges, edge.isInferred = false) :
    Fenced space ((kv.putAll puts).eraseAll (edgeKeys space gone ++ entries)) := by
  refine guarded.batch fenced (dirty_not_removed removed) ?_ ?_
  · refine touches_append ?_ (touches_removed removed)
    rw [map_append]
    refine touches_append touches_edgePairs fun key mem => ?_
    obtain ⟨put, listed, rfl⟩ := mem_map.mp mem
    exact touches_index ((indexed put listed).region space)
  · intro put mem kind
    rcases mem_append.mp mem with pair | other
    · obtain ⟨edge, listed, pair⟩ := mem_flatMap.mp pair
      rw [(mem_edgePair pair).1]
      simp [Val.isAsserted, asserted edge listed]
    · exact absurd kind (kind_ne_of_region ((indexed put other).region space) rfl)

theorem records_edges (ready : Ready env space terms world)
    (fenced : FencedPuts space world.kv (edges.flatMap (edgePair space) ++ others) puts)
    (indexed : ∀ put ∈ others, EdgeEntry put.1) (removed : ∀ key ∈ entries, EdgeEntry key)
    (asserted : ∀ edge ∈ edges, edge.isInferred = false) (retires : Retires space world.kv gone)
    (roots : terms.rooted → ∀ edge ∈ edges, Root space world.kv edge.srcVid ∧ Root space world.kv edge.dstVid)
    (stamped : Stamped env world world' versions)
    (changes : versions.map VersionRow.change = edgeFacts space edges ++ gone.map fun edge => (edge.key space, .empty)) :
    Records env space terms world' puts (edgeKeys space gone ++ entries) versions := by
  obtain ⟨rest, shape, unnamed⟩ := fenced.split indexed
  have touched : ∀ key ∈ puts.map Prod.fst ++ (edgeKeys space gone ++ entries), Touches space key := by
    refine touches_append ?_ (touches_removed removed)
    rw [shape, map_append]
    refine touches_append touches_edgePairs fun key mem => ?_
    obtain ⟨put, listed, rfl⟩ := mem_map.mp mem
    exact touches_unnamed (unnamed put listed)
  have entityPuts : (puts.filter fun put => put.1.isEntity) = edgeFacts space edges := by
    rw [shape, filter_append, filter_edgePairs, filter_unnamed unnamed, append_nil]
  have entityDeletes : (edgeKeys space gone ++ entries).filter Key.isEntity = gone.map (EdgeData.key space) := by
    have entities : entries.filter Key.isEntity = [] :=
      filter_isEntity_nil space fun key mem => by simp [(removed key mem).region space]
    have reverse : (gone.map (EdgeData.inKey space)).filter Key.isEntity = [] := by
      rw [filter_eq_nil_iff]
      intro key mem
      obtain ⟨edge, -, rfl⟩ := mem_map.mp mem
      simp
    have forward : (gone.map (EdgeData.key space)).filter Key.isEntity = gone.map (EdgeData.key space) := by
      rw [filter_eq_self]
      intro key mem
      obtain ⟨edge, -, rfl⟩ := mem_map.mp mem
      simp
    rw [edgeKeys, filter_append, filter_append, entities, reverse, forward]
    simp
  refine Records.of_facts touched (dirty_not_removed removed) (fun assumed => .inl ?_) ⟨world,
    stamped, ready.ahead⟩ entityPuts ?_ entityDeletes ?_ ?_ ?_ ?_
  · rw [stamped.kv]
    exact (ready.guarded assumed).fencedEdges gone fenced indexed removed asserted
  · intro put mem
    obtain ⟨edge, listed, rfl⟩ := mem_map.mp mem
    simp [Val.isFact, Val.isAsserted, asserted edge listed]
  · intro key mem
    obtain ⟨edge, listed, rfl⟩ := mem_map.mp mem
    rw [stamped.kv, (retires edge listed).1]
    simp [Val.isInferred, (retires edge listed).2]
  · intro key
    rw [changes, filter_append, map_append, filter_map, filter_map, map_map, map_map]
    rfl
  · rw [stamped.kv, shape]
    exact Mirrored.batch edges rest (fun put mem kind => (unnamed put mem).apart
      (by rcases kind with kind | kind <;> simp [Matters, kind])) (paired_edgeKeys removed)
  · intro assumed put mem vid mentions
    rw [stamped.kv]
    rw [shape] at mem
    rcases mem_append.mp mem with pair | other
    · obtain ⟨edge, listed, pair⟩ := mem_flatMap.mp pair
      rcases mentions_edgePair pair mentions with rfl | rfl
      · exact (roots assumed edge listed).1
      · exact (roots assumed edge listed).2
    · exact absurd mentions.matters (unnamed put other).apart

theorem Sound.fencedEdges (sound : Sound space kv) (gone : List EdgeData)
    (fenced : FencedPuts space kv (edges.flatMap (edgePair space) ++ others) puts)
    (indexed : ∀ put ∈ others, EdgeEntry put.1) (removed : ∀ key ∈ entries, EdgeEntry key)
    (roots : ∀ edge ∈ edges, Root space kv edge.srcVid ∧ Root space kv edge.dstVid) :
    Sound space ((kv.putAll puts).eraseAll (edgeKeys space gone ++ entries)) := by
  obtain ⟨rest, rfl, unnamed⟩ := fenced.split indexed
  refine sound.edgeBatch edges unnamed ?_ (paired_edgeKeys removed) roots
  exact forall_mem_append.mpr ⟨fun key mem => .inl (edgeKey_mem_edgeKeys mem), fun key mem => .inr (.inl (removed key mem))⟩

end

theorem wp_applyDegrees (within : terms.tended .counter)
    (inside : ∀ delta ∈ degIn.toList ++ degOut.toList, region space delta.1 = some .counter) :
    (applyDegrees degIn degOut).wp (handler env) (Mutates env space terms) (fun _ world' =>
      world'.kv = (degIn.toList ++ degOut.toList).foldl env.addCounter world.kv) world := by
  have only : (applyDegrees degIn degOut).Only (TendsTo space .counter []) := tends_applyDegrees inside
  unfold applyDegrees at only ⊢
  dsimp only at only ⊢
  split
  · rename_i empty
    rw [List.isEmpty_iff] at empty
    simp [empty]
  · rename_i nonempty
    rw [if_neg nonempty] at only
    rcases only.1 with reads | tends
    · cases reads
    · exact ⟨.tend within tends (by simp), rfl⟩

end ByoriDB.Executor
