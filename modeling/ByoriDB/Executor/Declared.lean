import ByoriDB.Executor.Effects

namespace ByoriDB.Executor

open List Data Program Store ByoriDB.Graph

def spaceIdAt (ctx : Ctx) (space : String) (kv : KV) : Except ExecutionError Nat :=
  match ctx.spaceId with
  | some id => .ok id
  | none =>
    match kv.get (SchemaKey.space space) with
    | none => .ok 1
    | some (.space record) =>
      if record.id < 4294967296 then .ok record.id else .error (.invalidOperation "Invalid space id metadata")
    | some _ => .error jsonError

/-- The indexes of one kind that a mutation maintains. -/
def indexesAt (env : Env) (ctx : Ctx) (space : String) (kv : KV) (kind : IndexType) :
    Except ExecutionError (List IndexDef) := do
  let spaceId ← spaceIdAt ctx space kv
  let indexes ← (env.arrange (kv.select (indexDefPrefix spaceId).covers)).mapM
    fun entry => readIndexDef spaceId entry.1 entry.2
  pure (indexes.filter fun index => index.indexType = kind)

def edgeEntries (indexes : List IndexDef) (edge : EdgeData) : List Key :=
  (indexes.filter fun index => index.schemaName = edge.edgeType).map fun index =>
    edgeIndexKey index.id (indexValues index edge.properties) edge.srcVid edge.ranking edge.dstVid

/-- The index entries of a vertex, for the first of its tags that an index is on. -/
def vertexEntries (indexes : List IndexDef) (vertex : VertexData) : List Key :=
  indexes.filterMap fun index =>
    (vertex.tags.find? fun tag => tag.name = index.schemaName).map fun tag =>
      tagIndexKey index.id (indexValues index tag.properties) vertex.vid

/-- The keys that the declarations of a space are read from. -/
def Declares (space : String) (key : Key) : Prop :=
  key = SchemaKey.space space ∨ indexDefsPrefix.covers key = true

theorem covers_indexDefs (covered : (indexDefPrefix spaceId).covers key = true) :
    indexDefsPrefix.covers key = true := by
  obtain ⟨rest, -, rfl⟩ := covers_text.mp covered
  exact covers_text.mpr ⟨.num spaceId :: rest, by simp, rfl⟩

theorem select_congr {kv kv' : KV} (same : ∀ key, selects key = true → kv'.get key = kv.get key) :
    kv'.select selects = kv.select selects := by
  refine ordered_ext (ordered_select _ _) (ordered_select _ _) ?_
  rintro ⟨key, value⟩
  rw [mem_select, mem_select]
  constructor
  · rintro ⟨found, selected⟩
    exact ⟨same key selected ▸ found, selected⟩
  · rintro ⟨found, selected⟩
    exact ⟨(same key selected).trans found, selected⟩

theorem indexesAt_congr (same : ∀ key, Declares space key → kv'.get key = kv.get key)
    (kind : IndexType) : indexesAt env ctx space kv' kind = indexesAt env ctx space kv kind := by
  have ids : spaceIdAt ctx space kv' = spaceIdAt ctx space kv := by
    rw [spaceIdAt, spaceIdAt, same _ (.inl rfl)]
  have listed : ∀ spaceId : Nat, kv'.select (indexDefPrefix spaceId).covers =
      kv.select (indexDefPrefix spaceId).covers :=
    fun spaceId => select_congr fun key covered => same key (.inr (covers_indexDefs covered))
  simp [indexesAt, ids, listed]

theorem Declares.kind (declares : Declares space key) :
    region space key = none ∧ (key.kind space = none ∨ key.kind space = some "index_def") := by
  rcases declares with rfl | covered
  · exact ⟨rfl, .inl rfl⟩
  · obtain ⟨rest, nonempty, rfl⟩ := covers_text.mp covered
    obtain ⟨head, tail, rfl⟩ := exists_cons_of_ne_nil nonempty
    simp only [region, Key.kind, cons_append, nil_append]
    split
    · exact ⟨rfl, .inr rfl⟩
    · exact ⟨rfl, .inl rfl⟩

theorem Declares.apart (declares : Declares space key) :
    ¬ Touches space key ∧ region space key = none ∧ key.kind space ≠ some "vtype" := by
  obtain ⟨outside, kind⟩ := declares.kind
  refine ⟨?_, outside, ?_⟩
  · rintro (inside | listed | rfl)
    · simp [outside] at inside
    · rcases kind with kind | kind <;> simp [kind] at listed
    · simp at kind
  · rcases kind with kind | kind <;> simp [kind]

theorem Mutates.declares (mutates : Mutates env space terms world op)
    (declares : Declares space key) : (handler env op world).2.kv.get key = world.kv.get key := by
  obtain ⟨untouched, outside, untyped⟩ := declares.apart
  cases mutates with
  | tick => rfl
  | look reads => rw [KvOp.looks_kv reads]
  | tend _ tends _ => exact tends.get_eq (by simp [outside])
  | retype _ _ => exact get_retype (.inl rfl) untyped
  | untype _ => exact get_retype (.inr rfl) untyped
  | record records => exact records.get_eq untouched

theorem Mutates.indexes (ctx : Ctx) (kind : IndexType) (world : World) (op : Op Key Val)
    (mutates : Mutates env space terms world op) (has : indexesAt env ctx space world.kv kind = .ok declared) :
    indexesAt env ctx space (handler env op world).2.kv kind = .ok declared := by
  rw [indexesAt_congr (fun key declares => mutates.declares declares), has]

theorem wp_spaceIdOf : (spaceIdOf ctx space).wp (handler env) (Mutates env space terms)
      (fun id world' => world' = world ∧ spaceIdAt ctx space world.kv = .ok id) world := by
  unfold spaceIdOf spaceIdAt
  cases ctx.spaceId with
  | some id => exact ⟨rfl, rfl⟩
  | none =>
    rw [wp_bind, wp_get]
    refine ⟨.look rfl, ?_⟩
    cases stored : world.kv.get (.space space) with
    | none => exact ⟨rfl, rfl⟩
    | some value =>
      cases value with
      | space record =>
        dsimp only
        split
        · exact ⟨rfl, rfl⟩
        · trivial
      | _ => trivial

theorem wp_mutationIndexes (ctx : Ctx) (kind : IndexType) :
    (mutationIndexes ctx space kind).wp (handler env) (Mutates env space terms)
      (fun indexes world' => world' = world ∧ indexesAt env ctx space world.kv kind = .ok indexes) world := by
  refine wp_seq wp_spaceIdOf ?_
  rintro spaceId world ⟨rfl, id⟩
  rw [wp_bind, wp_scanPrefix]
  refine ⟨.look rfl, ?_⟩
  rw [wp_bind, wp_ofExcept]
  intro indexes read
  refine ⟨rfl, ?_⟩
  have listed : (env.arrange (world.kv.select (indexDefPrefix spaceId).covers)).mapM
      (fun entry => readIndexDef spaceId entry.1 entry.2) = .ok indexes := read
  simp only [indexesAt, id, bind, Except.bind, listed]
  rfl

section

variable {indexes : List IndexDef}

theorem wp_edgeIndexKeys (declared : indexesAt env ctx space world.kv .edge = .ok indexes) :
    (edgeIndexKeys ctx space edge).wp (handler env) (Mutates env space terms)
      (fun keys world' => world' = world ∧ keys = edgeEntries indexes edge) world := by
  refine wp_seq (wp_mutationIndexes ctx .edge) ?_
  rintro found _ ⟨rfl, same⟩
  rw [declared, Except.ok.injEq] at same
  subst same
  exact ⟨rfl, rfl⟩

theorem wp_vertexIndexKeys (declared : indexesAt env ctx space world.kv .tag = .ok indexes) :
    (vertexIndexKeys ctx space vertex).wp (handler env) (Mutates env space terms)
      (fun keys world' => world' = world ∧ keys = vertexEntries indexes vertex) world := by
  refine wp_seq (wp_mutationIndexes ctx .tag) ?_
  rintro found _ ⟨rfl, same⟩
  rw [declared, Except.ok.injEq] at same
  subst same
  exact ⟨rfl, rfl⟩

theorem edgeEntry_edgeEntries (mem : key ∈ edgeEntries indexes edge) : EdgeEntry key := by
  obtain ⟨index, -, rfl⟩ := mem_map.mp mem
  exact edgeEntry_edgeIndexKey ..

theorem tagEntry_vertexEntries (mem : key ∈ vertexEntries indexes vertex) : TagEntry key := by
  simp only [vertexEntries, mem_filterMap, Option.map_eq_some_iff] at mem
  obtain ⟨index, -, tag, -, rfl⟩ := mem
  exact tagEntry_tagIndexKey ..

theorem region_edgeEntries (space : String) (mem : key ∈ edgeEntries indexes edge) : region space key = some .index :=
  (edgeEntry_edgeEntries mem).region space

theorem region_vertexEntries (space : String) (mem : key ∈ vertexEntries indexes vertex) :
    region space key = some .index :=
  (tagEntry_vertexEntries mem).region space

end

end ByoriDB.Executor
