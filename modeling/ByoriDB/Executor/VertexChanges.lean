import ByoriDB.Executor.InsertVertices

namespace ByoriDB.Executor

open List hiding length
open Data Program Store ByoriDB.Graph

variable {terms : Terms} {world : World} {indexes : List IndexDef}

/-- Where the old tags of an updated vertex come from: the stored vertex, or the
candidate for a vertex that is not stored, under an id that may be new. -/
inductive Rewrites (space : String) (kv mapped : KV) (source : Vid)
    (tagName : String) (vid : Int) : List TagData → Prop where
  | stored {internal : Int} {old : VertexData} (denotes : Denotes space kv source internal)
    (represents : Represents space kv internal vid)
      (found : kv.get (SchemaKey.vertex space vid) = some (.vertex old)) (own : old.vid = vid) :
      Rewrites space kv mapped source tagName vid old.tags
  | absent {internal : Int} (denotes : Denotes space kv source internal) (represents : Represents space kv internal vid)
      (missing : kv.get (SchemaKey.vertex space vid) = none) : Rewrites space kv mapped source tagName vid [⟨tagName, .empty⟩]
  | unmapped {value : String} (given : source = .string value) (strings : StringSpace space kv)
      (missing : kv.get (forwardKey space value) = none) (owns : Owns space mapped value vid) :
      Rewrites space kv mapped source tagName vid [⟨tagName, .empty⟩]

def movedEntry (oldTags : List TagData) (vertex : VertexData) (kv : KV) (index : IndexDef) : KV :=
  let removed := match (oldTags.filter fun tag => tag.name = index.schemaName).getLast? with
    | some tag => kv.erase (tagIndexKey index.id (indexValues index tag.properties) vertex.vid)
    | none => kv
  match vertex.tags.find? fun tag => tag.name = index.schemaName with
  | some tag => removed.insert (tagIndexKey index.id (indexValues index tag.properties) vertex.vid) .empty
  | none => removed

/-- Follow an updated property in the vector store. -/
def mirroredEntry (space : String) (vid : Int) (kv : KV) (entry : String × Value) : KV :=
  (match packEmbedding entry.2 with
    | some components => kv.insert (vecData space entry.1 vid) (.embedding components)
    | none => kv.erase (vecData space entry.1 vid)).insert (vecIndexDirty space entry.1) .empty

def tagPuts (space : String) (vertex : VertexData) : List (Key × Val) :=
  (tagKeys space vertex).map fun key => (key, .empty)

def rewrittenStore (space : String) (indexes : List IndexDef)
    (oldTags : List TagData) (vertex : VertexData) (updates : Props) (kv : KV) : KV :=
  updates.toList.foldl (mirroredEntry space vertex.vid) (indexes.foldl (movedEntry oldTags vertex) kv)

inductive UpdatesVertex (space : String) (indexes : List IndexDef) (plan : UpdatePlan) (kv : KV) : KV → Prop where
  | idle : UpdatesVertex space indexes plan kv kv
  | rewritten {mapped : KV} {tagName : String} {vid : Int} {oldTags : List TagData} {puts : List (Key × Val)}
      (tagged : plan.tagName = some tagName)
      (mapping : ∀ key, region space key ≠ some .mapping → mapped.get key = kv.get key) (lasting : Lasting space kv mapped)
      (rewrites : Rewrites space kv mapped plan.vid tagName vid oldTags)
      (fenced : FencedPuts space mapped (vertexFacts space [⟨vid, updatedTags tagName plan.updates oldTags⟩] ++
        tagPuts space ⟨vid, updatedTags tagName plan.updates oldTags⟩) puts) :
      UpdatesVertex space indexes plan kv
        (rewrittenStore space indexes oldTags ⟨vid, updatedTags tagName plan.updates oldTags⟩ plan.updates (mapped.putAll puts))

/-- A string that is not mapped yet is given an id that nothing was merged under. -/
theorem Rewrites.root (rewrites : Rewrites space kv mapped source tagName vid oldTags)
    (lasting : Lasting space kv mapped) (aliases : AliasesOwned space kv) : Root space kv vid := by
  cases rewrites with
  | stored _ represents _ _ | absent _ represents _ => exact represents.2
  | @unmapped value _ strings missing owns =>
    intro pointer found
    obtain ⟨other, owned⟩ := (aliases vid (by simp [found])).1 strings
    have same := (lasting _ _ (by simp) owned.2).symm.trans owns.2
    simp only [Option.some.injEq, Val.text.injEq] at same
    subst same
    rw [owned.1] at missing
    cases missing

theorem vidTypeAt_fixed (type : vidTypeAt space kv = some (.fixedString length)) : StringSpace space kv := by
  unfold vidTypeAt at type
  split at type
  · simp at type
  · rename_i record found
    refine ⟨record, length, found, ?_⟩
    cases kind : record.vidType <;> simp_all
  · cases type

theorem wp_resolveVid_find (valid : validateWriteVid space vidType vid = .ok ()) :
    (resolveVid ctx space vidType vid false).wp (handler env) (Mutates env space terms)
      (fun result world' => world' = world ∧ match result with
        | some internal => Named space world.kv vidType vid internal
        | none => vidType ≠ .int64 ∧ ∀ value, vid = .string value → world.kv.get (forwardKey space value) = none) world := by
  refine wp_and (wp_looks (looks_resolveVid vid)) (?_ : Prog.wp _ (fun _ _ => True) _ _ _)
  cases vidType with
  | int64 =>
    cases vid with
    | int value => exact rfl
    | string value => trivial
  | fixedString length =>
    cases vid with
    | int value => cases valid
    | string value =>
      refine wp_resolveVid_string (fun _ owns => owns) fun stored => ⟨by simp, ?_⟩
      rintro _ ⟨⟩
      exact stored

def Existing (space : String) (kv : KV) (vidType : SpaceVidType) (vid : Vid) : Option Int → Prop
  | some rep => ∃ internal, Named space kv vidType vid internal ∧ Represents space kv internal rep
  | none => vidType ≠ .int64 ∧ ∀ value, vid = .string value → kv.get (forwardKey space value) = none

theorem wp_currentVid (valid : validateWriteVid space vidType vid = .ok ()) :
    (currentVid ctx space vidType vid).wp (handler env) (Mutates env space terms)
      (fun existing world' => world' = world ∧ Existing space world.kv vidType vid existing) world := by
  refine wp_seq (wp_resolveVid_find valid) ?_
  rintro resolved world ⟨rfl, found⟩
  cases resolved with
  | none => exact ⟨rfl, found⟩
  | some internal =>
    refine wp_seq (wp_representativeOf internal) ?_
    rintro rep world ⟨rfl, represents⟩
    exact ⟨rfl, internal, found, represents⟩

def Candidate (space : String) (kv : KV) (tagName : String) (existing : Option Int) (candidate : VertexData) : Prop :=
  (candidate.tags = [⟨tagName, .empty⟩] ∧ ∀ vid, existing = some vid → kv.get (SchemaKey.vertex space vid) = none) ∨
    (existing = some candidate.vid ∧ kv.get (SchemaKey.vertex space candidate.vid) = some (.vertex candidate))

theorem wp_updateCandidate : (updateCandidate space tagName existing).wp (handler env) (Mutates env space terms)
      (fun out world' => world' = world ∧ Candidate space world.kv tagName existing out.2) world := by
  cases existing with
  | none => exact ⟨rfl, .inl ⟨rfl, by simp⟩⟩
  | some vid =>
    rw [updateCandidate, wp_bind, wp_get]
    refine ⟨.look rfl, ?_⟩
    cases found : world.kv.get (.vertex space vid) with
    | none =>
      refine ⟨rfl, .inl ⟨rfl, ?_⟩⟩
      rintro _ ⟨⟩
      exact found
    | some value =>
      rw [wp_bind, wp_ofExcept]
      intro vertex decoded
      obtain ⟨rfl, rfl⟩ := decodeVertex_ok decoded
      exact ⟨rfl, .inr ⟨rfl, found⟩⟩

theorem wp_targetVid (type : vidTypeAt space world.kv = some vidType)
    (known : Existing space world.kv vidType vid existing)
    (starts : Candidate space world.kv tagName existing candidate)
    (within : terms.tended .mapping) : (targetVid ctx space vidType vid existing).wp (handler env)
      (Mutates env space terms) (fun target world' => Tended space .mapping world world' ∧
        Rewrites space world.kv world'.kv vid tagName target candidate.tags) world := by
  cases existing with
  | some rep =>
    obtain ⟨internal, named, represents⟩ := known
    refine ⟨.refl space .mapping world, ?_⟩
    rcases starts with ⟨tags, missing⟩ | ⟨same, found⟩
    · rw [tags]
      exact .absent ⟨vidType, type, named⟩ represents (missing rep rfl)
    · cases same
      exact .stored ⟨vidType, type, named⟩ represents found rfl
  | none =>
    refine wp_imp (wp_resolveForWrite vid within) ?_
    rintro target world' ⟨tended, named⟩
    refine ⟨tended, ?_⟩
    rcases starts with ⟨tags, -⟩ | ⟨same, -⟩
    · rw [tags]
      cases vidType with
      | int64 => exact absurd rfl known.1
      | fixedString length =>
        cases vid with
        | int value => exact named.elim
        | string value => exact .unmapped rfl (vidTypeAt_fixed type) (known.2 value rfl) named
    · cases same

section

variable {key : Key}

theorem wp_tendDelete (within : terms.tended part) (inside : region space key = some part)
    (other : part ≠ .mapping) : (delete key : Exec _).wp (handler env) (Mutates env space terms)
      (fun _ world' => world'.kv = world.kv.erase key) world := by
  have tends : Tends space part [] (.delete key) :=
    ⟨rfl, rfl, by simpa [KvOp.touched, KvOp.written] using inside, by simp [KvOp.written], fun same => absurd same other⟩
  exact ⟨.tend within tends (by simp), rfl⟩

theorem wp_tendPut (vids : List Int) (within : terms.tended part) (inside : region space key = some part)
    (other : part ≠ .mapping) (names : ∀ vid, Mentions space vid key → vid ∈ vids)
    (roots : terms.rooted → ∀ vid ∈ vids, Root space world.kv vid) :
    (put key value : Exec _).wp (handler env) (Mutates env space terms)
      (fun _ world' => world'.kv = world.kv.insert key value) world := by
  have tends : Tends space part vids (.put key value) :=
    ⟨rfl, rfl, by simpa [KvOp.touched, KvOp.written] using inside, by simpa [KvOp.written] using names,
      fun same => absurd same other⟩
  exact ⟨.tend within tends roots, rfl⟩

end

theorem wp_deleteTagIndex (within : terms.tended .index) :
    (deleteTagIndex index vid tag).wp (handler env) (Mutates env space terms)
      (fun _ world' => world'.kv = match tag with
        | some tag => world.kv.erase (tagIndexKey index.id (indexValues index tag.properties) vid)
        | none => world.kv) world := by
  cases tag with
  | none => exact rfl
  | some tag => exact wp_tendDelete within rfl (by simp)

theorem wp_moveTagIndex (within : terms.tended .index) :
    (moveTagIndex oldTags vertex index).wp (handler env) (Mutates env space terms)
      (fun _ world' => world'.kv = movedEntry oldTags vertex world.kv index) world := by
  refine wp_seq (wp_deleteTagIndex within) ?_
  intro _ removed same
  unfold movedEntry
  rw [← same]
  cases vertex.tags.find? fun tag : TagData => tag.name = index.schemaName with
  | none => exact rfl
  | some tag =>
    exact wp_tendPut [] within rfl (by simp)
      (fun vid mentions => absurd mentions (not_mentions_of_region (region_tagIndexKey ..) (by simp)))
      (fun _ _ none => absurd none not_mem_nil)

theorem wp_forM_foldl {γ : Type} {f : γ → Exec PUnit} (effect : KV → γ → KV) (items : List γ)
    (inv : KV → Prop) (start : inv world.kv) (keeps : ∀ kv item, inv kv → inv (effect kv item))
    (step : ∀ item (world' : World), inv world'.kv → (f item).wp (handler env) (Mutates env space terms)
      (fun _ final => final.kv = effect world'.kv item) world') :
    (items.forM f).wp (handler env) (Mutates env space terms)
      (fun _ world' => world'.kv = items.foldl effect world.kv) world := by
  refine wp_imp (Prog.wp_forM (fun rest (world' : World) => inv world'.kv ∧
    rest.foldl effect world'.kv = items.foldl effect world.kv) ?_ ⟨start, rfl⟩) fun _ _ reached => reached.2
  rintro item rest state ⟨holds, reached⟩
  refine wp_imp (step item state holds) ?_
  intro _ final same
  rw [same]
  exact ⟨keeps _ item holds, reached⟩

theorem wp_mirrorEmbedding (entry : String × Value) (within : terms.tended .view)
    (root : terms.rooted → Root space world.kv vid) :
    (mirrorEmbedding space vid entry).wp (handler env) (Mutates env space terms)
      (fun _ world' => world'.kv = mirroredEntry space vid world.kv entry) world := by
  have store : (storeEmbedding space entry.1 vid (packEmbedding entry.2)).wp (handler env) (Mutates env space terms)
      (fun _ world' => world'.kv = match packEmbedding entry.2 with
        | some components => world.kv.insert (vecData space entry.1 vid) (.embedding components)
        | none => world.kv.erase (vecData space entry.1 vid)) world := by
    cases packEmbedding entry.2 with
    | none => exact wp_tendDelete within (by simp) (by simp)
    | some components =>
      exact wp_tendPut [vid] within (by simp) (by simp) (fun other mentions => by simpa using mentions)
        (fun rooted => by simpa using root rooted)
  refine wp_seq store ?_
  intro _ stored same
  unfold mirroredEntry
  rw [← same]
  exact wp_tendPut [] within (by simp) (by simp) (by simp) (by simp)

theorem get_mirroredEntry (other : key.kind space ≠ some "vec") (mark : key.kind space ≠ some "vecidx-dirty") :
    (mirroredEntry space vid kv entry).get key = kv.get key := by
  have unmarked : key ≠ vecIndexDirty space entry.1 := by
    rintro rfl
    simp at mark
  have data : key ≠ vecData space entry.1 vid := by
    rintro rfl
    simp at other
  unfold mirroredEntry
  rw [get_insert, if_neg unmarked]
  cases packEmbedding entry.2 with
  | none => exact (get_erase ..).trans (if_neg data)
  | some components => exact (get_insert ..).trans (if_neg data)

theorem get_mirroredEntry_of_region (other : region space key ≠ some .view) :
    (mirroredEntry space vid kv entry).get key = kv.get key :=
  get_mirroredEntry (fun kind => other (by rw [region_of_kind kind]; rfl)) fun kind => other (by rw [region_of_kind kind]; rfl)

theorem get_movedEntry (other : ¬ TagEntry key) : (movedEntry oldTags vertex kv index).get key = kv.get key := by
  have apart : ∀ values, key ≠ tagIndexKey index.id values vertex.vid := by
    rintro values rfl
    exact other (tagEntry_tagIndexKey ..)
  have removed : Table.get (match (oldTags.filter fun tag : TagData => tag.name = index.schemaName).getLast? with
      | some tag => kv.erase (tagIndexKey index.id (indexValues index tag.properties) vertex.vid)
      | none => kv) key = kv.get key := by
    split
    · exact (get_erase ..).trans (if_neg (apart _))
    · rfl
  unfold movedEntry
  dsimp only
  split
  · rw [get_insert, if_neg (apart _), removed]
  · exact removed

theorem get_rewrittenStore (other : ¬ Secondary space key) :
    (rewrittenStore space indexes oldTags vertex updates kv).get key = kv.get key := by
  unfold rewrittenStore
  rw [get_foldl (fun _ _ => get_mirroredEntry_of_region fun inside => other (.inr inside)),
    get_foldl fun _ _ => get_movedEntry fun entry => other (.inl entry)]

theorem secondary_tagPuts : ∀ put ∈ tagPuts space vertex, Secondary space put.1 := by
  intro put mem
  simp only [tagPuts, tagKeys, map_map, mem_map, Function.comp_apply] at mem
  obtain ⟨tag, -, rfl⟩ := mem
  exact .inr (by simp)

theorem mentions_tagPuts {put : Key × Val} (mem : put ∈ tagPuts space vertex)
    (mentions : Mentions space vid put.1) : vid = vertex.vid := by
  simp only [tagPuts, tagKeys, map_map, mem_map, Function.comp_apply] at mem
  obtain ⟨tag, -, rfl⟩ := mem
  simpa using mentions

theorem not_put_of_apart (shape : puts = vertexFacts space vertices ++ rest)
    (aside : ∀ put ∈ rest, Accompanies space put.1) (plain : ∀ vid, key ≠ Key.vertex space vid)
    (unmarked : key ≠ inferenceDirty space) (other : ¬ Secondary space key) : key ∉ puts.map Prod.fst := by
  rw [shape, map_append, mem_append]
  rintro (fact | side)
  · obtain ⟨put, listed, rfl⟩ := mem_map.mp fact
    obtain ⟨vertex, -, rfl⟩ := mem_map.mp listed
    exact plain vertex.vid rfl
  · obtain ⟨put, listed, rfl⟩ := mem_map.mp side
    exact (aside put listed).elim other unmarked

theorem not_put_of_region (shape : puts = vertexFacts space vertices ++ rest)
    (aside : ∀ put ∈ rest, Accompanies space put.1) (inside : region space key = some part)
    (other : ¬ Secondary space key) : key ∉ puts.map Prod.fst := by
  refine not_put_of_apart shape aside (fun vid same => ?_) (fun same => ?_) other <;> simp [same] at inside

theorem wp_rewriteVertex (ready : Ready env space terms world)
    (declared : indexesAt env ctx space world.kv .tag = .ok indexes)
    (root : terms.rooted → Root space world.kv vertex.vid) (entries : terms.tended .index)
    (views : terms.tended .view) :
    (rewriteVertex ctx space oldTags vertex updates).wp (handler env) (Mutates env space terms)
      (fun _ world' => ∃ puts, FencedPuts space world.kv (vertexFacts space [vertex] ++ tagPuts space vertex) puts ∧
        world'.kv = rewrittenStore space indexes oldTags vertex updates (world.kv.putAll puts)) world := by
  have writes : ([(.vertex space vertex.vid, Val.vertex vertex)] ++
      vertex.tags.map fun tag : TagData => (tagvid space tag.name vertex.vid, Val.empty)) =
        vertexFacts space [vertex] ++ tagPuts space vertex := by
    simp [vertexFacts, tagPuts, tagKeys]
  rw [rewriteVertex, writes]
  refine wp_seq (wp_fenceSemanticBatch _) ?_
  rintro puts world ⟨fenced, rfl⟩
  refine wp_seq (wp_buildVersions _) ?_
  rintro versions stampedWorld ⟨stamped, changes⟩
  obtain ⟨rest, shape, aside, -⟩ := fenced.accompany secondary_tagPuts
  have roots : terms.rooted → ∀ put ∈ puts, ∀ vid, Mentions space vid put.1 → Root space world.kv vid := by
    intro rooted put mem vid mentions
    have listed : put ∈ vertexFacts space [vertex] ++ tagPuts space vertex ++ [(inferenceDirty space, .one)] := by
      rcases fenced with ⟨rfl, -⟩ | rfl
      · exact mem_append_left _ mem
      · exact mem
    simp only [mem_append, mem_singleton] at listed
    rcases listed with (fact | tag) | rfl
    · obtain ⟨same, made, rfl⟩ := mem_map.mp fact
      cases mem_singleton.mp made
      obtain rfl : vid = vertex.vid := by simpa using mentions
      exact root rooted
    · rw [mentions_tagPuts tag mentions]
      exact root rooted
    · simp at mentions
  have changed : versions.map VersionRow.change = vertexFacts space [vertex] ++
      ([] : List Int).map fun vid => (.vertex space vid, .empty) := by
    simpa [vertexFacts] using changes
  have records : Records env space terms stampedWorld puts [] versions :=
    records_vertices ready shape aside (by simp) (by simp) roots stamped changed
  rw [wp_bind, wp_batchApply]
  refine ⟨.record records, ?_⟩
  have declared' : indexesAt env ctx space (stampedWorld.content.batchApply puts [] versions).kv .tag = .ok indexes :=
    Mutates.indexes ctx .tag stampedWorld _ (.record records) (stamped.kv ▸ declared)
  refine wp_seq (wp_mutationIndexes ctx .tag) ?_
  rintro found written ⟨rfl, same⟩
  rw [declared', Except.ok.injEq] at same
  subst same
  have kept : terms.rooted → Root space (stampedWorld.content.batchApply puts [] versions).kv vertex.vid := by
    refine fun rooted => (root rooted).congr ?_
    rw [← stamped.kv]
    exact get_putAll_of_not_mem (not_put_of_region shape aside
      (region_sameas space vertex.vid) (not_secondary (by simp) (by simp)))
  refine wp_seq (wp_forM_foldl (movedEntry oldTags vertex) indexes
    (fun kv => terms.rooted → Root space kv vertex.vid) kept ?_ ?_) ?_
  · intro kv index rooted assumed
    exact (rooted assumed).congr (get_movedEntry (not_tagEntry space (by simp)))
  · exact fun index _ _ => wp_moveTagIndex entries
  intro _ moved same
  have still : terms.rooted → Root space moved.kv vertex.vid := by
    refine fun rooted => (kept rooted).congr ?_
    rw [same, get_foldl fun _ _ => get_movedEntry (not_tagEntry space (by simp))]
  refine wp_seq (wp_forM_foldl (mirroredEntry space vertex.vid) _
    (fun kv => terms.rooted → Root space kv vertex.vid) still ?_ ?_) ?_
  · intro kv entry rooted assumed
    exact (rooted assumed).congr (get_mirroredEntry_of_region (by simp))
  · exact fun entry _ root => wp_mirrorEmbedding entry views root
  intro _ final mirrored
  refine ⟨puts, fenced, ?_⟩
  rw [mirrored, same, rewrittenStore, ← stamped.kv]
  rfl

theorem wp_updateTag (tagged : plan.tagName = some tagName) (ready : Ready env space terms world)
    (type : vidTypeAt space world.kv = some vidType)
    (declared : indexesAt env ctx space world.kv .tag = .ok indexes)
    (mappings : terms.tended .mapping) (entries : terms.tended .index) (views : terms.tended .view)
    (aliases : terms.rooted → AliasesOwned space world.kv) :
    (updateTag ctx space vidType plan tagName).wp (handler env) (Mutates env space terms)
      (fun _ world' => UpdatesVertex space indexes plan world.kv world'.kv) world := by
  rw [updateTag, wp_bind, wp_ofExcept]
  intro _ valid
  refine wp_seq (wp_looks (looks_validateTagProps plan.updates)) ?_
  rintro _ world rfl
  refine wp_seq (wp_currentVid valid) ?_
  rintro existing world ⟨rfl, known⟩
  refine wp_seq wp_updateCandidate ?_
  rintro ⟨existed, candidate⟩ world ⟨rfl, starts⟩
  refine wp_seq (wp_ofExcept.mpr fun _ _ => rfl) ?_
  rintro applies world rfl
  split
  · refine wp_seq (wp_looks (looks_validateWriteShapes _)) ?_
    rintro _ world rfl
    have keeps : ∀ (state : World) (op : Op Key Val), Mutates env space terms state op →
        Ready env space terms state ∧ indexesAt env ctx space state.kv .tag = .ok indexes →
        Ready env space terms (handler env op state).2 ∧
          indexesAt env ctx space (handler env op state).2.kv .tag = .ok indexes :=
      fun state op mutates holds => ⟨Mutates.ready state op mutates holds.1, Mutates.indexes ctx .tag state op mutates holds.2⟩
    refine wp_seq_with keeps ⟨ready, declared⟩ (wp_lasting (wp_targetVid type known starts mappings)) ?_
    rintro vid mapped ⟨⟨tended, rewrites⟩, lasting⟩ ⟨ready', declared'⟩
    have root : terms.rooted → Root space mapped.kv vid := fun rooted =>
      (rewrites.root lasting (aliases rooted)).congr (tended _ (by simp))
    refine wp_imp (wp_rewriteVertex ready' declared' root entries views) ?_
    rintro _ final ⟨puts, fenced, result⟩
    rw [result]
    exact .rewritten tagged tended lasting rewrites fenced
  · exact .idle

theorem wp_executeUpdateVertex (scope : effectiveSpace ctx plan.space = pure space)
    (ready : Ready env space terms world) (declared : indexesAt env ctx space world.kv .tag = .ok indexes)
    (mappings : terms.tended .mapping) (entries : terms.tended .index) (views : terms.tended .view)
    (aliases : terms.rooted → AliasesOwned space world.kv) :
    (executeUpdateVertex ctx plan).wp (handler env) (Mutates env space terms)
      (fun _ world' => UpdatesVertex space indexes plan world.kv world'.kv) world := by
  rw [executeUpdateVertex, scope, pure_bind_eq]
  refine wp_seq wp_spaceVidType ?_
  rintro vidType world ⟨rfl, type⟩
  cases tagged : plan.tagName with
  | none => trivial
  | some tagName => exact wp_updateTag tagged ready type declared mappings entries views aliases

def droppedEntries (space : String) (indexes : List IndexDef) (kv : KV) (vids : List Int) : List Key :=
  vids.flatMap fun vid => ((vertexAt space kv vid).map (vertexEntries indexes)).getD []

/-- The vertices that a deletion has collected, with what is kept about them. -/
structure Deletes (space : String) (kv : KV) (deletion : VertexDeletion) : Prop where
  stored : ∀ vid ∈ deletion.vids, ∃ vertex, kv.get (SchemaKey.vertex space vid) = some (.vertex vertex) ∧ vertex.vid = vid
  views : ∀ key, key ∈ deletion.viewDeletes ↔ ∃ vid ∈ deletion.vids, ∃ vertex, vertexAt space kv vid = some vertex ∧
    (key ∈ tagKeys space vertex ∨ ∃ prop ∈ vectorNames vertex, key = vecData space prop vid)

inductive DeletesVertices (space : String) (indexes : List IndexDef) (kv kv' : KV) : Prop where
  | intro {deletion : VertexDeletion} {puts : List (Key × Val)} (deletes : Deletes space kv deletion)
      (fenced : FencedPuts space (kv.eraseAll (droppedEntries space indexes kv deletion.vids)) [] puts)
      (marked : Marked space (((kv.eraseAll (droppedEntries space indexes kv deletion.vids)).putAll puts).eraseAll
        (deletion.vids.map (SchemaKey.vertex space) ++ deletion.viewDeletes)) kv')

def deletable (conditions : Option Predicate) (space : String) (kv : KV) (vid : Int) : Bool :=
  match vertexAt space kv vid with
  | some vertex => (passes conditions (currentProps vertex.tags)).toOption.getD false
  | none => false

theorem Deletes.nothing (space : String) (kv : KV) : Deletes space kv ⟨[], [], []⟩ := ⟨by simp, by simp⟩

theorem wp_dropTagIndexes (within : terms.tended .index) :
    (indexes.forM (dropTagIndex vertex)).wp (handler env) (Mutates env space terms)
      (fun _ world' => world'.kv = world.kv.eraseAll (vertexEntries indexes vertex)) world := by
  induction indexes generalizing world with
  | nil => exact rfl
  | cons index rest ih =>
    refine wp_seq (wp_deleteTagIndex within) ?_
    intro _ dropped same
    refine wp_imp ih ?_
    intro _ final result
    rw [result, same, vertexEntries, vertexEntries, filterMap_cons]
    cases vertex.tags.find? fun tag : TagData => tag.name = index.schemaName <;> rfl

theorem vertexAt_eq_some :
    vertexAt space kv vid = some vertex ↔ kv.get (.vertex space vid) = some (.vertex vertex) := by
  unfold vertexAt
  split <;> simp_all

section

variable {deletion : VertexDeletion}

theorem Deletes.add {vertex : VertexData} (deletes : Deletes space kv deletion)
    (found : kv.get (.vertex space vertex.vid) = some (.vertex vertex)) :
    Deletes space kv {
      vids := deletion.vids ++ [vertex.vid]
      viewDeletes := deletion.viewDeletes ++ tagKeys space vertex ++
        (vectorNames vertex).map fun prop => vecData space prop vertex.vid
      dirtyProps := deletion.dirtyProps ++ vectorNames vertex } where
  stored := forall_mem_append.mpr ⟨deletes.stored, by simpa using ⟨vertex, found, rfl⟩⟩
  views := by
    intro key
    simp only [mem_append, deletes.views key, mem_map, mem_singleton, or_and_right, exists_or, exists_eq_left,
      vertexAt_eq_some.mpr found, Option.some.injEq, exists_eq_left', or_assoc]
    simp [eq_comm]

theorem wp_deleteRow (deletes : Deletes space start deletion)
    (dropped : world.kv = start.eraseAll (droppedEntries space indexes start deletion.vids))
    (within : terms.tended .index) :
    (deleteRow space conditions indexes deletion (vid, start.get (.vertex space vid))).wp (handler env)
      (Mutates env space terms) (fun deletion' world' => Deletes space start deletion' ∧
        world'.kv = start.eraseAll (droppedEntries space indexes start deletion'.vids) ∧
        deletion'.vids = deletion.vids ++ [vid].filter (deletable conditions space start)) world := by
  unfold deleteRow
  cases found : start.get (.vertex space vid) with
  | none => exact ⟨deletes, dropped, by simp [deletable, vertexAt, found]⟩
  | some value =>
    rw [wp_bind, wp_ofExcept]
    intro vertex decoded
    obtain ⟨rfl, rfl⟩ := decodeVertex_ok decoded
    have held := vertexAt_eq_some.mpr found
    rw [wp_bind, wp_ofExcept]
    intro pass passed
    have meant : deletable conditions space start vertex.vid = pass := by
      simp [deletable, held, passed, Except.toOption]
    split
    · rename_i passes
      refine wp_seq (wp_dropTagIndexes within) ?_
      intro _ world' same
      refine ⟨deletes.add found, ?_, by simp [meant, passes]⟩
      rw [same, dropped]
      simp [droppedEntries, held, Table.eraseAll]
    · rename_i rejected
      exact ⟨deletes, dropped, by simp [meant, rejected]⟩

theorem Deletes.secondary (deletes : Deletes space kv deletion) : ∀ key ∈ deletion.viewDeletes, Secondary space key := by
  intro key mem
  obtain ⟨vid, -, vertex, -, tag | ⟨prop, -, rfl⟩⟩ := (deletes.views key).mp mem
  · obtain ⟨tag, -, rfl⟩ := mem_map.mp tag
    exact .inr (by simp)
  · exact .inr (by simp)

theorem tagEntry_droppedEntries (mem : key ∈ droppedEntries space indexes kv vids) : TagEntry key := by
  obtain ⟨vid, -, listed⟩ := mem_flatMap.mp mem
  cases found : vertexAt space kv vid with
  | none => simp [found] at listed
  | some vertex =>
    rw [found] at listed
    exact tagEntry_vertexEntries listed

theorem wp_commitDeletion (ready : Ready env space terms world) (deletes : Deletes space start deletion)
    (dropped : world.kv = start.eraseAll (droppedEntries space indexes start deletion.vids))
    (views : terms.tended .view) :
    (commitDeletion space deletion).wp (handler env) (Mutates env space terms)
      (fun response world' => response = counted "Deleted" deletion.vids.length ∧ ∃ puts,
        FencedPuts space (start.eraseAll (droppedEntries space indexes start deletion.vids)) [] puts ∧
        Marked space (((start.eraseAll (droppedEntries space indexes start deletion.vids)).putAll puts).eraseAll
          (deletion.vids.map (.vertex space) ++ deletion.viewDeletes)) world'.kv) world := by
  refine wp_seq (wp_fenceSemanticBatch []) ?_
  rintro puts world ⟨fenced, rfl⟩
  refine wp_seq wp_buildTombstones ?_
  rintro versions stampedWorld ⟨stamped, changes⟩
  have none : FencedPuts space world.kv (vertexFacts space [] ++ []) puts := fenced
  obtain ⟨rest, shape, aside, -⟩ := none.accompany (by simp)
  have held : ∀ vid ∈ deletion.vids, ∃ vertex, world.kv.get (.vertex space vid) = some (.vertex vertex) := by
    intro vid mem
    obtain ⟨vertex, found, -⟩ := deletes.stored vid mem
    refine ⟨vertex, ?_⟩
    rw [dropped, get_eraseAll, if_neg, found]
    exact fun entry => by simpa using (tagEntry_droppedEntries entry).region space
  have silent : ∀ put ∈ puts, ∀ vid, ¬ Mentions space vid put.1 := by
    intro put mem vid mentions
    rcases fenced with ⟨rfl, -⟩ | rfl
    · cases mem
    · cases mem_singleton.mp mem
      simp at mentions
  have records : Records env space terms stampedWorld puts (deletion.vids.map (.vertex space) ++ deletion.viewDeletes)
      versions := by
    refine records_vertices ready shape aside deletes.secondary held
      (fun _ put mem vid mentions => absurd mentions (silent put mem vid)) stamped ?_
    rw [changes, map_map]
    rfl
  rw [wp_bind, wp_batchApply]
  refine ⟨.record records, ?_⟩
  refine wp_seq (wp_markVectorIndexes _ views) ?_
  intro _ final marked
  have content : stampedWorld.kv = start.eraseAll (droppedEntries space indexes start deletion.vids) :=
    stamped.kv.trans dropped
  refine ⟨rfl, puts, dropped ▸ fenced, ?_⟩
  rw [← content]
  exact marked

end

theorem looks_guardMerged : (guardMerged space vid).Only Looks := by
  refine only_bind looks_representativeOf fun rep => ?_
  split
  · trivial
  · refine only_bind looks_membersOf fun members => ?_
    split <;> trivial

/-- What a reference of a DELETE names; nothing is created for it. -/
def denoted (env : Env) (ctx : Ctx) (space : String) (world : World) (vid : Vid) : Option Int :=
  ((spaceVidType space >>= fun vidType => resolveVid ctx space vidType vid false).run (handler env) world).1.toOption.join

theorem wp_resolveExisting (typed : (spaceVidType space).run (handler env) world = (.ok vidType, world)) (vid : Vid) :
    (resolveExisting ctx space vidType vids vid).wp (handler env) (Mutates env space terms)
      (fun vids' world' => world' = world ∧ vids' = vids ++ (denoted env ctx space world vid).toList) world := by
  refine wp_seq (wp_ran (wp_looks (looks_resolveVid vid))) ?_
  rintro found world' ⟨rfl, ran⟩
  have names : denoted env ctx space world' vid = found := by
    simp [denoted, Prog.run_bind, typed, ran, Except.toOption]
  rw [names]
  cases found <;> simp

theorem wp_executeDelete (scope : effectiveSpace ctx plan.space = pure space)
    (ready : Ready env space terms world)
    (entries : terms.tended .index) (views : terms.tended .view) :
    (executeDelete ctx plan).wp (handler env) (Mutates env space terms)
      (fun response world' => ∃ indexes deletion puts, indexesAt env ctx space world.kv .tag =
      .ok indexes ∧ deletion.vids = (plan.vids.filterMap (denoted env ctx space world)).filter
        (deletable plan.conditions space world.kv) ∧
        response = counted "Deleted" deletion.vids.length ∧ Deletes space world.kv deletion ∧
        FencedPuts space (world.kv.eraseAll (droppedEntries space indexes world.kv deletion.vids))
        [] puts ∧ Marked space (((world.kv.eraseAll
        (droppedEntries space indexes world.kv deletion.vids)).putAll puts).eraseAll
          (deletion.vids.map (.vertex space) ++ deletion.viewDeletes)) world'.kv) world := by
  rw [executeDelete, scope, pure_bind_eq]
  refine wp_seq (wp_ran (wp_looks looks_spaceVidType)) ?_
  rintro vidType world ⟨rfl, typed⟩
  refine wp_seq (wp_foldlM (fun rest vids world' => world' = world ∧
    vids ++ rest.filterMap (denoted env ctx space world) = plan.vids.filterMap (denoted env ctx space world)) ?_ ⟨rfl, rfl⟩) ?_
  · rintro vid rest vids world ⟨rfl, named⟩
    refine wp_imp (wp_resolveExisting typed vid) ?_
    rintro vids' world ⟨rfl, rfl⟩
    refine ⟨rfl, ?_⟩
    rw [← named, append_assoc]
    cases names : denoted env ctx space world vid <;> simp [names]
  rintro vids world ⟨rfl, named⟩
  rw [filterMap_nil, append_nil] at named
  refine wp_seq (wp_looks (only_forM _ fun vid _ => looks_guardMerged)) ?_
  rintro _ world rfl
  rw [wp_bind, wp_batchGet]
  refine ⟨.look rfl, ?_⟩
  refine wp_seq (wp_mutationIndexes ctx .tag) ?_
  rintro indexes world ⟨rfl, declared⟩
  have rows : ∀ row ∈ vids.zip ((vids.map (.vertex space)).map world.kv.get),
      row.2 = world.kv.get (.vertex space row.1) := by
    intro row mem
    rw [map_map, ← map_id vids, map_map, zip_map', mem_map] at mem
    obtain ⟨vid, -, rfl⟩ := mem
    rfl
  have listed : (vids.zip ((vids.map (.vertex space)).map world.kv.get)).map Prod.fst = vids :=
    map_fst_zip (by simp)
  -- The rows that are left are looked up in the store the statement started from.
  refine wp_seq_with Mutates.ready ready (wp_foldlM (fun rest deletion (world' : World) =>
    (∀ row ∈ rest, row.2 = world.kv.get (.vertex space row.1)) ∧ Deletes space world.kv deletion ∧
      world'.kv = world.kv.eraseAll (droppedEntries space indexes world.kv deletion.vids) ∧
      deletion.vids ++ (rest.map Prod.fst).filter (deletable plan.conditions space world.kv) =
        vids.filter (deletable plan.conditions space world.kv)) ?_
    ⟨rows, .nothing space _, rfl, by rw [listed]; rfl⟩) ?_
  · rintro ⟨vid, value⟩ rest deletion state ⟨read, deletes, dropped, found⟩
    obtain ⟨here, later⟩ := forall_mem_cons.mp read
    dsimp only at here
    subst here
    refine wp_imp (wp_deleteRow deletes dropped entries) ?_
    rintro deletion' state' ⟨deletes', dropped', added⟩
    refine ⟨later, deletes', dropped', ?_⟩
    rw [added, ← found, append_assoc, ← filter_append]
    rfl
  · rintro deletion state ⟨-, deletes, dropped, found⟩ ready'
    refine wp_imp (wp_commitDeletion ready' deletes dropped views) ?_
    rintro response final ⟨reported, puts, fenced, marked⟩
    refine ⟨indexes, deletion, puts, declared, ?_, reported, deletes, fenced, marked⟩
    rw [← named, ← found, map_nil, filter_nil, append_nil]

end ByoriDB.Executor
