import ByoriDB.Executor.Mutation

/-! A batch has a version for every change of a fact, and the marker for a change of the graph. -/

namespace ByoriDB.Executor

open List Data Program Store ByoriDB.Graph

variable {space : String}

def VersionRow.change (row : VersionRow Key Val) : Key × Val := (row.entity, row.payload)

theorem wp_buildVersions (entities : List (Key × Val)) :
    (buildVersions entities).wp (handler env) (Mutates env space terms) (fun versions world' =>
      Stamped env world world' versions ∧ versions.map VersionRow.change = entities) world := by
  rw [buildVersions]
  induction entities generalizing world with
  | nil => exact ⟨.nil env world, rfl⟩
  | cons entity rest ih =>
    rw [mapM_cons, wp_bind]
    refine ⟨.tick, ?_⟩
    change (List.mapM _ rest >>= _ : Exec _).wp _ _ _ _
    refine wp_seq ih ?_
    rintro versions world' ⟨stamped, listed⟩
    exact ⟨(Stamped.tick env world entity.1 entity.2).append stamped, congrArg (entity :: ·) listed⟩

theorem wp_buildTombstones {keys : List Key} : (buildTombstones keys).wp (handler env)
      (Mutates env space terms) (fun versions world' => Stamped env world world' versions ∧
        versions.map VersionRow.change = keys.map fun key => (key, .empty)) world :=
  wp_buildVersions _

theorem payloads_rowsOf : (rowsOf key versions).map VersionRow.payload =
      ((versions.map VersionRow.change).filter fun change => change.1 = key).map Prod.snd := by
  rw [rowsOf, filter_map, map_map]
  rfl

section

variable (space : String)

def EdgeKey (key : Key) : Prop := key.kind space = some "edge" ∨ key.kind space = some "in-edge"

section

variable (edge : EdgeData)

def edgePair : List (Key × Val) :=
  [(edge.key space, .edge edge), (edge.inKey space, .edge edge)]

def tripleOf : Triple := ⟨edge.srcVid, edge.edgeType, edge.dstVid⟩

theorem edge_key_eq : edge.key space = (tripleOf edge).key space edge.ranking := rfl

theorem edge_inKey_eq : edge.inKey space = (tripleOf edge).inKey space edge.ranking := rfl

@[simp] theorem Triple.key_ne_inKey (t u : Triple) (rank other : Int) : t.key space rank ≠ u.inKey space other := by
  intro same
  simpa using congrArg (Key.kind space) same

@[simp] theorem Triple.inKey_ne_key (t u : Triple) (rank other : Int) :
    t.inKey space rank ≠ u.key space other := fun same => Triple.key_ne_inKey space u t other rank same.symm

@[simp] theorem kind_edgeKey : (edge.key space).kind space = some "edge" := by
  simp [EdgeData.key]

@[simp] theorem kind_edgeInKey : (edge.inKey space).kind space = some "in-edge" := by
  simp [EdgeData.inKey]

end

theorem lastPut_edgePairs (edges : List EdgeData) (t : Triple) (rank : Int) :
    lastPut (edges.flatMap (edgePair space)) (t.inKey space rank) =
      lastPut (edges.flatMap (edgePair space)) (t.key space rank) := by
  induction edges with
  | nil => rfl
  | cons edge rest ih =>
    rw [flatMap_cons, lastPut_append, lastPut_append, ih]
    congr 1
    simp [edgePair, lastPut, edge_key_eq, edge_inKey_eq]

end

theorem lastPut_of_kind {puts : List (Key × Val)} (has : key.kind space = some kind)
    (others : ∀ put ∈ puts, put.1.kind space ≠ some kind) : lastPut puts key = none := by
  rw [lastPut_eq_none]
  intro mem
  obtain ⟨put, listed, rfl⟩ := mem_map.mp mem
  exact others put listed has

theorem Mirrored.batch (edges : List EdgeData) (others : List (Key × Val))
    (quiet : ∀ put ∈ others, ¬ EdgeKey space put.1) (paired : ∀ (t : Triple) (rank : Int),
      t.inKey space rank ∈ deletes ↔ t.key space rank ∈ deletes) (mirrored : Mirrored space kv) :
    Mirrored space ((kv.putAll (edges.flatMap (edgePair space) ++ others)).eraseAll deletes) := by
  intro t rank
  have forward : lastPut others (t.key space rank) = none :=
    lastPut_of_kind (t.kind_key space rank) fun put mem kind => quiet put mem (.inl kind)
  have reverse : lastPut others (t.inKey space rank) = none :=
    lastPut_of_kind (t.kind_inKey space rank) fun put mem kind => quiet put mem (.inr kind)
  rw [get_eraseAll, get_eraseAll, get_putAll, get_putAll, lastPut_append,
    lastPut_append, forward, reverse, lastPut_edgePairs, mirrored t rank]
  simp [paired]

theorem Mirrored.batch_other (quiet : ∀ key ∈ puts.map Prod.fst ++ deletes, ¬ EdgeKey space key)
    (mirrored : Mirrored space kv) : Mirrored space ((kv.putAll puts).eraseAll deletes) := by
  have unlisted : ∀ {key : Key}, EdgeKey space key → ((kv.putAll puts).eraseAll deletes).get key = kv.get key := by
    intro key isEdge
    have absent : key ∉ puts.map Prod.fst ++ deletes := fun mem => quiet key mem isEdge
    rw [mem_append, not_or] at absent
    exact Content.get_batch absent.1 absent.2
  intro t rank
  rw [unlisted (.inr (t.kind_inKey space rank)), unlisted (.inl (t.kind_key space rank)), mirrored t rank]

theorem not_edgeKey_of_region (inside : region space key = some part) : ¬ EdgeKey space key := by
  rintro (kind | kind) <;> exact kind_ne_of_region inside rfl kind

theorem RelMeta.Reflects.inert {rel : RelMeta} (reflects : rel.Reflects flags)
    (empty : rel.isEmpty = true) : Inert flags := by
  simp only [RelMeta.isEmpty, Bool.and_eq_true, List.isEmpty_iff] at empty
  obtain ⟨⟨⟨⟨⟨⟨⟨⟨transitive, symmetric⟩, inverse⟩, superprops⟩, equivalentProps⟩, domain⟩, range⟩, chainFirst⟩, _⟩ := empty
  have unlisted : ∀ {α : Type} {table : Table String (List α)} (key : String) (item : α), table.toList = [] →
      item ∉ listed table key := by
    intro α table key item none mem
    cases found : table.get key with
    | none => simp [listed, found] at mem
    | some items => simpa [none] using mem_toList.mpr found
  have undeclared : ∀ {table : Table String String} (key value : String), table.toList = [] → table.get key ≠ some value := by
    intro table key value none found
    simpa [none] using mem_toList.mpr found
  constructor
  · rintro t result (⟨flag, _⟩ | ⟨q, flag, _⟩ | ⟨q, flag, _⟩ | ⟨q, flag, _⟩)
    · simpa [symmetric] using (reflects.symmetric t.p).mpr flag
    · exact unlisted _ _ inverse ((reflects.inverse t.p q).mpr flag)
    · exact unlisted _ _ superprops ((reflects.superprops t.p q).mpr flag)
    · exact unlisted _ _ equivalentProps ((reflects.equivalentProps t.p q).mpr flag)
  · rintro t u result ⟨_, ⟨flag, _⟩ | ⟨q, flag, _⟩⟩
    · simpa [transitive] using (reflects.transitive t.p).mpr flag
    · exact unlisted _ _ chainFirst ((reflects.chainFirst t.p q u.p).mpr flag)
  · rintro t vid className (⟨flag, _⟩ | ⟨flag, _⟩)
    · exact undeclared _ _ domain ((reflects.domain t.p className).mpr flag)
    · exact undeclared _ _ range ((reflects.range t.p className).mpr flag)

def FencedPuts (space : String) (kv : KV) (puts puts' : List (Key × Val)) : Prop :=
  (puts' = puts ∧ Inert (edgeFlags kv space)) ∨ puts' = puts ++ [(inferenceDirty space, .one)]

theorem wp_fenceSemanticBatch (puts : List (Key × Val)) :
    (fenceSemanticBatch space puts).wp (handler env) (Mutates env space terms)
      (fun puts' world' => FencedPuts space world.kv puts puts' ∧ world' = world) world := by
  refine wp_seq (wp_loadRelMeta (.look rfl)) ?_
  rintro rel _ ⟨reflects, rfl⟩
  refine ⟨?_, rfl⟩
  split
  · rename_i empty
    exact .inl ⟨rfl, reflects.inert empty⟩
  · exact .inr rfl

section

theorem dirty_batch (marker : inferenceDirty space ∉ deletes)
    (marked : Dirty space kv ∨ inferenceDirty space ∈ puts.map Prod.fst) :
    Dirty space ((kv.putAll puts).eraseAll deletes) := by
  rw [Dirty, get_eraseAll, if_neg marker, get_putAll]
  cases last : lastPut puts (inferenceDirty space) with
  | some value => rfl
  | none =>
    rcases marked with stored | listed
    · exact stored
    · exact absurd listed (lastPut_eq_none.mp last)

theorem Fenced.batch (fenced : Fenced space kv) (marker : inferenceDirty space ∉ deletes)
    (touched : ∀ key ∈ puts.map Prod.fst ++ deletes, Touches space key)
    (asserted : ∀ put ∈ puts, put.1.kind space = some "edge" → put.2.isAsserted = true) :
    Fenced space ((kv.putAll puts).eraseAll deletes) := by
  rcases fenced with marked | underived
  · exact .inl (dirty_batch marker (.inl marked))
  · right
    have untouched : ∀ {key : Key}, ¬ Touches space key → ((kv.putAll puts).eraseAll deletes).get key = kv.get key := by
      intro key other
      have unlisted : key ∉ puts.map Prod.fst ++ deletes := fun mem => other (touched key mem)
      rw [mem_append, not_or] at unlisted
      exact Content.get_batch unlisted.1 unlisted.2
    refine ⟨?_, ?_, ?_⟩
    · have same : edgeFlags ((kv.putAll puts).eraseAll deletes) space = edgeFlags kv space := by
        funext name
        rw [edgeFlags, edgeFlags, untouched (not_touches_edgeSchema space name)]
      exact same ▸ underived.inert
    · intro t rank value found
      rw [get_eraseAll] at found
      split at found
      · cases found
      · rw [get_putAll] at found
        cases last : lastPut puts (t.key space rank) with
        | none =>
          rw [last, Option.none_or] at found
          exact underived.edges t rank value found
        | some stored =>
          rw [last, Option.some_or] at found
          cases found
          exact asserted _ (mem_of_lastPut last) (t.kind_key space rank)
    · intro vid className
      rw [untouched not_touches_vtype]
      exact underived.types vid className

/-- The first batch of a statement is fenced where the graph was complete. -/
theorem Guarded.batch (guarded : Guarded space kv) (fenced : FencedPuts space kv puts puts')
    (marker : inferenceDirty space ∉ deletes)
    (touched : ∀ key ∈ puts.map Prod.fst ++ deletes, Touches space key)
    (asserted : ∀ put ∈ puts, put.1.kind space = some "edge" → put.2.isAsserted = true) :
    Fenced space ((kv.putAll puts').eraseAll deletes) := by
  rcases fenced with ⟨rfl, inert⟩ | rfl
  · exact Fenced.batch (guarded.imp_right fun complete => complete.underived inert) marker touched asserted
  · exact .inl (dirty_batch marker (.inr (by simp)))

end

theorem factWrites_batchApply : factWrites key world (.kv (.batchApply puts deletes versions)) =
      ((puts.filter fun put => put.1 = key).filter fun put => put.2.isFact).map (fun put => some put.2) ++
        if (world.kv.get key).any Val.isInferred then []
        else (deletes.filter fun deleted => deleted = key).map fun _ => none := by
  rw [factWrites, KvOp.written, filterMap_append, filterMap_map, filterMap_map]
  congr 1
  · induction puts with
    | nil => rfl
    | cons put rest ih =>
      rw [filterMap_cons, ih]
      by_cases same : put.1 = key <;> by_cases fact : put.2.isFact = true <;>
        simp [same, fact, factWrite]
  · induction deletes with
    | nil => simp
    | cons deleted rest ih =>
      rw [filterMap_cons, ih]
      by_cases same : deleted = key <;> by_cases held : (world.kv.get key).any Val.isInferred = true <;>
        simp [same, held, factWrite]

theorem filter_eq_of_selects {α : Type} {items kept : List α} {selects : α → Bool}
    (same : items.filter selects = kept) (wanted : α → Bool) (within : ∀ item, wanted item = true → selects item = true) :
    items.filter wanted = kept.filter wanted := by
  rw [← same, filter_filter]
  refine filter_congr fun item _ => ?_
  cases isWanted : wanted item with
  | false => rfl
  | true => simp [within item isWanted]

section

/-- What a batch writes to facts, when it puts and deletes nothing but facts. -/
theorem factWrites_of_facts (entityPuts : (puts.filter fun put => put.1.isEntity) = facts)
    (factual : ∀ put ∈ facts, put.2.isFact = true) (entityDeletes : deletes.filter Key.isEntity = retired)
    (unheld : ∀ key ∈ retired, (world.kv.get key).any Val.isInferred = false) (entity : key.isEntity = true) :
    factWrites key world (.kv (.batchApply puts deletes versions)) =
      ((facts.filter fun put => put.1 = key).map fun put => some put.2) ++
        (retired.filter fun deleted => deleted = key).map fun _ => none := by
  have putsAt := filter_eq_of_selects entityPuts (fun put => decide (put.1 = key))
    (by intro put same; rw [decide_eq_true_eq] at same; rw [same, entity])
  have deletesAt := filter_eq_of_selects entityDeletes (fun deleted => decide (deleted = key))
    (by intro deleted same; rw [decide_eq_true_eq] at same; rw [same, entity])
  have all : (facts.filter fun put => decide (put.1 = key)).filter (fun put => put.2.isFact) =
      facts.filter fun put => decide (put.1 = key) :=
    filter_eq_self.mpr fun put mem => factual put (mem_filter.mp mem).1
  rw [factWrites_batchApply, putsAt, deletesAt, all]
  congr 1
  split
  · rename_i held
    have absent : (retired.filter fun deleted => decide (deleted = key)) = [] := by
      rw [filter_eq_nil_iff]
      intro deleted mem
      rw [decide_eq_true_eq]
      rintro rfl
      simp [unheld deleted mem] at held
    rw [absent]
    rfl
  · rfl

theorem Records.of_facts (touched : ∀ key ∈ puts.map Prod.fst ++ deletes, Touches space key)
    (marker : inferenceDirty space ∉ deletes) (fence : terms.closed →
      Fenced space ((world.kv.putAll puts).eraseAll deletes) ∨ ∀ (t : Triple) (rank : Int),
      ((world.kv.putAll puts).eraseAll deletes).get (t.key space rank) =
      world.kv.get (t.key space rank))
    (stamped : ∃ before, Stamped env before world versions ∧ (terms.timely → Ahead env before))
    (entityPuts : (puts.filter fun put => put.1.isEntity) = facts)
    (factual : ∀ put ∈ facts, put.2.isFact = true)
    (entityDeletes : deletes.filter Key.isEntity = retired)
    (unheld : ∀ key ∈ retired, (world.kv.get key).any Val.isInferred = false) (versioned : ∀ key,
      ((versions.map VersionRow.change).filter fun change => change.1 = key).map Prod.snd =
      ((facts.filter fun put => put.1 = key).map Prod.snd) ++ (retired.filter fun deleted =>
      deleted = key).map fun _ => .empty)
    (mirrored : Mirrored space world.kv → Mirrored space ((world.kv.putAll puts).eraseAll deletes))
    (names : terms.rooted → ∀ put ∈ puts, ∀ vid, Mentions space vid put.1 →
      Root space world.kv vid) : Records env space terms world puts deletes versions where
  touched := touched
  mirrored := mirrored
  names := names
  marker := marker
  fence := fence
  stamped := stamped
  recorded key entity := by
    rw [payloads_rowsOf, versioned, factWrites_of_facts entityPuts factual entityDeletes unheld entity]
    simp [Function.comp_def]
  lands key entity := by
    rw [factWrites_of_facts entityPuts factual entityDeletes unheld entity, factAt, factAt, get_eraseAll,
      get_putAll, lastPut_eq_getLast?]
    have putsAt := filter_eq_of_selects entityPuts (fun put => decide (put.1 = key))
      (by intro put same; rw [decide_eq_true_eq] at same; rw [same, entity])
    rw [putsAt, List.getLast?_append, List.getLast?_map, List.getLast?_map]
    by_cases deleted : key ∈ deletes
    · have listed : key ∈ retired.filter fun deleted => decide (deleted = key) :=
        mem_filter.mpr ⟨entityDeletes ▸ mem_filter.mpr ⟨deleted, entity⟩, by simp⟩
      rw [if_pos deleted]
      cases last : (retired.filter fun deleted => decide (deleted = key)).getLast? with
      | none => simp [List.getLast?_eq_none_iff.mp last] at listed
      | some _ => rfl
    · have unlisted : (retired.filter fun deleted => decide (deleted = key)) = [] := by
        rw [filter_eq_nil_iff]
        intro other mem
        rw [decide_eq_true_eq]
        rintro rfl
        rw [← entityDeletes] at mem
        exact deleted (mem_filter.mp mem).1
      rw [if_neg deleted, unlisted]
      cases last : (facts.filter fun put => decide (put.1 = key)).getLast? with
      | none => rfl
      | some put =>
        have fact := factual put (mem_filter.mp (List.mem_of_getLast? last)).1
        simp [Option.filter, fact]

theorem Records.of_silent (touched : ∀ key ∈ puts.map Prod.fst ++ deletes, Touches space key)
    (marker : inferenceDirty space ∉ deletes)
    (fence : terms.closed → Fenced space ((world.kv.putAll puts).eraseAll deletes))
    (stamped : ∃ before, Stamped env before world [] ∧ (terms.timely → Ahead env before))
    (silent : ∀ key, key.isEntity = true → factWrites key world (.kv (.batchApply puts deletes [])) = [])
    (same : ∀ key, key.isEntity = true → factAt ((world.kv.putAll puts).eraseAll deletes) key = factAt world.kv key)
    (mirrored : Mirrored space world.kv → Mirrored space ((world.kv.putAll puts).eraseAll deletes))
    (names : terms.rooted → ∀ put ∈ puts, ∀ vid, Mentions space vid put.1 → Root space world.kv vid) :
    Records env space terms world puts deletes [] where
  touched := touched
  mirrored := mirrored
  names := names
  marker := marker
  fence assumed := .inl (fence assumed)
  stamped := stamped
  recorded key entity := by rw [silent key entity]; rfl
  lands key entity := by rw [silent key entity, same key entity]; rfl

end

end ByoriDB.Executor
