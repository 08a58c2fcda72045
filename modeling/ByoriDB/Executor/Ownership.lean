import ByoriDB.Executor.Soundness

/-! In a space with string ids, vertices are stored and merged under surrogates that belong to strings. -/

namespace ByoriDB.Executor

open List hiding count
open Data Program Store ByoriDB.Graph
open SchemaKey (vertex)

variable {kv kv' : KV}

/-- The ids that a space has merged, represents merged ones by, or stores vertices
under. -/
structure Uses (own : Int → Prop) (space : String) (kv : KV) : Prop where
  pointers : ∀ vid, (kv.get (sameas space vid)).isSome = true → own vid ∧ own (repAt space kv vid)
  vertices : ∀ vid, (kv.get (vertex space vid)).isSome = true → own vid

section

variable (uses : Uses own space kv)

include uses

theorem Uses.rep (given : own vid) : own (repAt space kv vid) := by
  cases found : kv.get (sameas space vid) with
  | none => simpa [repAt, found] using given
  | some value => exact (uses.pointers vid (by simp [found])).2

theorem Uses.represents (flat : Flat space kv) {rep : Int}
    (represents : Represents space kv vid rep) (given : own vid) : own rep := by
  rw [flat.represents represents]
  exact uses.rep given

theorem Uses.mono {own' : Int → Prop} (more : ∀ vid, own vid → own' vid) : Uses own' space kv where
  pointers vid found := ⟨more _ (uses.pointers vid found).1, more _ (uses.pointers vid found).2⟩
  vertices vid found := more _ (uses.vertices vid found)

theorem Uses.congr (pointers : ∀ vid, kv'.get (sameas space vid) = kv.get (sameas space vid))
    (vertices : ∀ vid, (kv'.get (vertex space vid)).isSome = true →
      (kv.get (vertex space vid)).isSome = true ∨ own vid) : Uses own space kv' where
  pointers vid found := by
    rw [repAt_congr pointers]
    exact uses.pointers vid (pointers vid ▸ found)
  vertices vid found := (vertices vid found).elim (uses.vertices vid) id

end

theorem Collapses.vertex_present (collapses : Collapses space indexes tagIndexes winner loser kv kv')
    (present : (kv'.get (.vertex space vid)).isSome = true) :
    (kv.get (.vertex space vid)).isSome = true ∨ vid = winner := by
  obtain @⟨edges, typed, merged, moves, types, vertex, links⟩ := collapses
  have before : typed.get (.vertex space vid) = kv.get (.vertex space vid) := by
    rw [types.rest _ (by simp), get_movedEdges_aside (aside_vertex space vid)]
  rw [links.rest _ (by simp [Key.vertex, sameas]) (by simp [Key.vertex, sameasMember])] at present
  cases vertex with
  | absent => exact .inl (before ▸ present)
  | merged stored isLoser isWinner read =>
    obtain ⟨value, found⟩ := Option.isSome_iff_exists.mp present
    obtain ⟨-, put | old⟩ := get_batch_cases found
    · rcases mem_mergedPuts put with same | inside | ⟨inside, -⟩
      · simp only [Prod.mk.injEq, Key.vertex, Key.text.injEq, List.cons.injEq, Seg.num.injEq, true_and, and_true] at same
        exact .inr (same.1.trans isWinner)
      · simpa using inside.region space
      · simp at inside
    · exact .inl (by rw [← before, old]; rfl)

theorem Collapses.uses {winner loser : Int}
    (collapses : Collapses space indexes tagIndexes winner loser kv kv') (sound : Sound space kv)
    (loserRoot : Root space kv loser) (ownWinner : own winner)
    (ownLoser : own loser) (uses : Uses own space kv) : Uses own space kv' where
  pointers vid found := by
    have joins := collapses.repAt sound loserRoot
    have given : own vid := by
      obtain @⟨edges, typed, merged, moves, types, vertex, links⟩ := collapses
      have pointers := get_pointer_merged types vertex
      rw [links.pointer, pointers _ (region_sameas space vid), pointers _ (by simp)] at found
      split at found
      · rename_i linked
        rcases linked with rfl | listed
        · exact ownLoser
        · exact (uses.pointers vid (by simp [(sound.flat.members loser vid).mp listed])).1
      · exact (uses.pointers vid found).1
    refine ⟨given, ?_⟩
    rw [joins, joined]
    split
    · exact ownWinner
    · exact uses.rep given
  vertices vid found := by
    rcases collapses.vertex_present found with old | rfl
    · exact uses.vertices vid old
    · exact ownWinner

theorem MergesAll.uses (merges : MergesAll space indexes tagIndexes triples kv count kv') (sound : Sound space kv)
    (given : ∀ t ∈ triples, own t.s ∧ own t.d) (uses : Uses own space kv) : Uses own space kv' := by
  induction merges with
  | nil => exact uses
  | skip _ _ ih => exact ih sound (fun t mem => given t (mem_cons_of_mem _ mem)) uses
  | @merge t rest kv middle kv' count left right _ source target apart collapses _ ih =>
    obtain ⟨low, high⟩ := source.2.extremes target.2
    obtain ⟨src, dst⟩ := given t mem_cons_self
    have ownLeft := uses.represents sound.flat source src
    have ownRight := uses.represents sound.flat target dst
    have ends : own (min left right) ∧ own (max left right) := by
      rcases Int.le_total left right with order | order
      · rw [Int.min_eq_left order, Int.max_eq_right order]
        exact ⟨ownLeft, ownRight⟩
      · rw [Int.min_eq_right order, Int.max_eq_left order]
        exact ⟨ownRight, ownLeft⟩
    exact ih (sound.collapse collapses (min_lt_max_of_ne apart) low high) (fun t mem => given t (mem_cons_of_mem _ mem))
      (collapses.uses sound high ends.1 ends.2 uses)

theorem Merges.uses (merges : Merges space indexes tagIndexes triples kv kv') (sound : Sound space kv)
    (given : ∀ t ∈ triples, own t.s ∧ own t.d) (uses : Uses own space kv) : Uses own space kv' := by
  cases merges with
  | none merges => exact merges.uses sound given uses
  | some merges _ rest =>
    refine (merges.uses sound given uses).congr (fun vid => rest _ (by simp)) fun vid found => .inl ?_
    rwa [rest _ (by simp)] at found

theorem Collapses.get_mapping (collapses : Collapses space indexes tagIndexes winner loser kv kv')
    (inside : region space key = some .mapping) : kv'.get key = kv.get key := by
  obtain ⟨-, types, vertex, links⟩ := collapses
  have apart : ∀ {other : Key}, region space other ≠ some .mapping → key ≠ other := by
    rintro _ outside rfl
    exact outside inside
  rw [links.rest key (fun vid => apart (by simp)) fun rep vid => apart (by simp),
    vertex.rest (fun vid => apart (by simp)) (not_tagEntry space (by simp [inside])) (by simp [inside]),
    types.rest key (kind_ne_of_region inside rfl), get_movedEdges_aside (aside_of_region inside (by simp))]

theorem MergesAll.get_mapping (merges : MergesAll space indexes tagIndexes triples kv count kv')
    (inside : region space key = some .mapping) : kv'.get key = kv.get key := by
  induction merges with
  | nil => rfl
  | skip _ _ ih => exact ih
  | merge _ _ _ _ collapses _ ih => exact ih.trans (collapses.get_mapping inside)

theorem Merges.get_mapping (merges : Merges space indexes tagIndexes triples kv kv')
    (inside : region space key = Option.some .mapping) : kv'.get key = kv.get key := by
  cases merges with
  | none merges => exact merges.get_mapping inside
  | some merges _ rest => rw [rest key (by simp [inside]), merges.get_mapping inside]

theorem get_fencedEdges {edges : List EdgeData} (gone : List EdgeData)
    (fenced : FencedPuts space mapped (edges.flatMap (edgePair space) ++ others) puts)
    (indexed : ∀ put ∈ others, EdgeEntry put.1) (removed : ∀ key ∈ entries, EdgeEntry key)
    (plain : ¬ EdgeKey space key) (named : ¬ Unnamed space key) :
    ((kv.putAll puts).eraseAll (edgeKeys space gone ++ entries)).get key = kv.get key := by
  obtain ⟨rest, rfl, unnamed⟩ := fenced.split indexed
  refine Content.get_batch ?_ ?_
  · intro mem
    obtain ⟨put, listed, rfl⟩ := mem_map.mp mem
    rcases mem_append.mp listed with pair | other
    · obtain ⟨edge, -, pair⟩ := mem_flatMap.mp pair
      rcases (mem_edgePair pair).2 with same | same
      · exact plain (.inl (by simp [same]))
      · exact plain (.inr (by simp [same]))
    · exact named (unnamed put other)
  · rw [mem_append]
    rintro (fact | entry)
    · exact plain (edgeKey_mem_edgeKeys fact)
    · exact named (.inl (removed key entry))

/-- The keys that statements on edges write only to merge vertices. -/
structure Bystands (space : String) (key : Key) : Prop where
  plain : ¬ EdgeKey space key
  named : ¬ Unnamed space key
  uncounted : region space key ≠ some .counter

theorem bystands_vertex : Bystands space (vertex space vid) :=
  ⟨by simp [EdgeKey], by simpa [Unnamed] using not_edgeEntry space (by simp), by simp⟩

theorem not_unnamed_of_region (inside : region space key = some part) (index : part ≠ .index) :
    ¬ Unnamed space key := by
  rintro (entry | rfl)
  · rw [entry.region space, Option.some.injEq] at inside
    exact index inside.symm
  · simp at inside

theorem bystands_region {key : Key} {part : Region} (inside : region space key = some part)
    (index : part ≠ .index) (counter : part ≠ .counter) : Bystands space key where
  plain := not_edgeKey_of_region inside
  named := not_unnamed_of_region inside index
  uncounted := by
    rw [inside]
    simpa using counter

section

variable (bystands : Bystands space key)
include bystands

theorem UpdatesEdge.get_bystands (updated : UpdatesEdge env space indexes kv kv') : kv'.get key = kv.get key := by
  cases updated with
  | idle => rfl
  | rewritten _ _ fenced =>
    rw [updatedStore, get_addCounters_of_region (region_promotion _) bystands.uncounted]
    exact get_fencedEdges [] fenced edgeEntry_movedTo edgeEntry_movedFrom bystands.plain bystands.named

theorem DeletesEdges.get_bystands (deleted : DeletesEdges env space indexes kv kv') : kv'.get key = kv.get key := by
  obtain @⟨deletion, puts, removing, fenced⟩ := deleted
  have none : FencedPuts space kv (([] : List EdgeData).flatMap (edgePair space) ++ []) puts := fenced
  rw [removedStore, get_addCounters_of_region removing.deltas.inside bystands.uncounted]
  exact get_fencedEdges _ none (by simp) (edgeEntry_indexKeys removing) bystands.plain bystands.named

theorem Collected.get_bystands (collected : Collected space indexes kv rows)
    (fenced : FencedPuts space kv (insertPuts space indexes rows.edges) puts) :
    (countedStore env rows (insertedStore space indexes rows kv puts)).get key = kv.get key := by
  rw [get_countedStore collected bystands.uncounted]
  exact get_fencedEdges [] fenced edgeEntry_edgeViewPuts (edgeEntry_insertDeletes collected) bystands.plain bystands.named

end

theorem Uses.remapped (uses : Uses own space kv)
    (mapping : ∀ key, region space key ≠ some .mapping → mapped.get key = kv.get key) :
    Uses own space mapped :=
  uses.congr (fun vid => mapping _ (by simp)) fun vid found => .inl (by rwa [mapping _ (by simp)] at found)

theorem Committed.lasting {before after : World} (committed : Committed env space ctx mutation before after) :
    Lasting space before.kv after.kv :=
  committed.keeps (fun world => Lasting space before.kv world.kv)
    (fun _ _ mutates lasting => lasting.trans mutates.lasting) (.refl space _)

section

variable (uses : Uses own space kv) (record : kv'.get (SchemaKey.space space) = kv.get (SchemaKey.space space))

include uses record in
theorem Uses.insertEdges (sound : Sound space kv)
    (inserted : InsertsEdges env space indexes tagIndexes inserts kv kv')
    (given : ∀ insert ∈ inserts, ∀ vid, Denotes space kv' insert.src vid ∨
      Denotes space kv' insert.dst vid → own vid) : Uses own space kv' := by
  obtain @⟨vidType, mapped, rows, type, mapping, lasting, collected, made, @⟨puts, fenced, merges⟩⟩ := inserted
  have mappedUses := uses.remapped mapping
  have mappedSound := sound.remapped mapping
  have later : Lasting space mapped kv' := .of_same fun key inside =>
    (merges.get_mapping inside).trans (collected.get_bystands (bystands_region inside (by simp) (by simp)) fenced)
  have ends : ∀ t ∈ rows.edges.map tripleOf, own t.s ∧ own t.d := by
    intro t member
    obtain ⟨edge, listed, rfl⟩ := mem_map.mp member
    obtain ⟨insert, among, src, dst, first, second, source, target, -⟩ := exists_of_forall₂ made listed
    have type' : vidTypeAt space kv' = some vidType := (vidTypeAt_congr record).trans type
    exact ⟨mappedUses.represents mappedSound.flat source (given insert among src (.inl ⟨vidType, type', first.lasting later⟩)),
      mappedUses.represents mappedSound.flat target (given insert among dst (.inr ⟨vidType, type', second.lasting later⟩))⟩
  have countedUses : Uses own space (countedStore env rows (insertedStore space indexes rows mapped puts)) :=
    mappedUses.congr (fun vid => collected.get_bystands (bystands_region (region_sameas space vid) (by simp) (by simp)) fenced)
      fun vid found => .inl (by rwa [collected.get_bystands bystands_vertex fenced] at found)
  exact merges.uses (collected.sound_counted fenced mappedSound) ends countedUses

include uses in
theorem Uses.bystands (same : ∀ key, Bystands space key → kv'.get key = kv.get key) : Uses own space kv' := by
  refine uses.congr (fun vid => same _ (bystands_region (region_sameas space vid) (by simp) (by simp))) fun vid found => .inl ?_
  rwa [same _ bystands_vertex] at found

theorem Uses.aloof (uses : Uses own space kv) (same : ∀ key, Aloof space key → kv'.get key = kv.get key)
    (vertices : ∀ vid, (kv'.get (vertex space vid)).isSome = true →
      (kv.get (vertex space vid)).isSome = true ∨ own vid) : Uses own space kv' :=
  uses.congr (fun vid => same _ (aloof_region (region_sameas space vid) (by simp) (by simp) (by simp))) vertices

include uses record in
theorem Uses.insertVertices (sound : Sound space kv) (inserted : InsertsVertices space indexes inserts kv kv')
    (given : ∀ insert ∈ inserts, ∀ vid, Denotes space kv' insert.vid vid → own vid) : Uses own space kv' := by
  refine uses.aloof (fun key other => inserted.get_aloof other) fun vid found => ?_
  obtain @⟨vidType, mapped, made, rows, puts, type, mapping, lasting, collected, rowed, fenced, marked⟩ := inserted
  have later : Lasting space mapped kv' := .of_same fun key inside => by
    have outside : ¬ Secondary space key := not_secondary (by simp [inside]) (by simp [inside])
    have viewless : key.kind space ≠ some "vecidx-dirty" := fun kind => outside (.inr (by rw [region_of_kind kind]; rfl))
    have fenced' := fenced
    rw [vertexPuts, collected.batch] at fenced'
    obtain ⟨rest, shape, aside, -⟩ := fenced'.accompany secondary_vertexViewPuts
    rw [marked key viewless, Content.get_batch (not_put_of_region shape aside inside outside) fun member =>
      outside (secondary_vertexDeletes collected key member)]
  rw [get_inserted collected fenced marked] at found
  cases last : lastVertex made vid with
  | none => exact .inl (by simpa [last, mapping (.vertex space vid) (by simp)] using found)
  | some vertex =>
    obtain ⟨member, rfl⟩ := lastVertex_mem last
    obtain ⟨insert, among, internal, named, source, -⟩ := exists_of_forall₂ rowed member
    have denotes : Denotes space kv' insert.vid internal := ⟨vidType, (vidTypeAt_congr record).trans type, named.lasting later⟩
    exact .inr ((uses.remapped mapping).represents (sound.remapped mapping).flat source (given insert among internal denotes))

include uses record in
theorem Uses.updateVertex (sound : Sound space kv) (updated : UpdatesVertex space indexes plan kv kv')
    (given : ∀ vid, Denotes space kv' plan.vid vid → own vid) : Uses own space kv' := by
  refine uses.aloof (fun key other => updated.get_aloof other) fun other found => ?_
  cases updated with
  | idle => exact .inl found
  | @rewritten mapped tagName vid oldTags puts _ mapping lasting rewrites fenced =>
    have later : Lasting space mapped (rewrittenStore space indexes oldTags ⟨vid, updatedTags tagName plan.updates oldTags⟩
        plan.updates (mapped.putAll puts)) := .of_same fun key inside => by
      have outside : ¬ Secondary space key := not_secondary (by simp [inside]) (by simp [inside])
      obtain ⟨rest, shape, aside, -⟩ := fenced.accompany secondary_tagPuts
      rw [get_rewrittenStore outside, get_putAll_of_not_mem (not_put_of_region shape aside inside outside)]
    rw [get_rewritten_vertex mapping fenced] at found
    split at found
    · rename_i here
      subst here
      cases rewrites with
      | stored _ _ stored _ => exact .inl (by simp [stored])
      | absent denotes represents _ =>
        exact .inr (uses.represents sound.flat represents (given _ (denotes.lasting (lasting.trans later) record)))
      | unmapped isString strings _ owns =>
        refine .inr (given other ?_)
        obtain ⟨spaceRecord, length, stored, fixed⟩ := strings
        refine ⟨.fixedString length, ?_, ?_⟩
        · rw [vidTypeAt_congr record, vidTypeAt, stored]
          simp [fixed]
        · rw [isString]
          exact owns.lasting later
    · exact .inl found

include uses in
theorem Uses.deleteVertices (deleted : DeletesVertices space indexes kv kv') : Uses own space kv' := by
  refine uses.aloof (fun key other => deleted.get_aloof other) fun vid found => .inl ?_
  obtain ⟨deletes, fenced, marked⟩ := deleted
  rw [get_deleted_vertex deletes fenced marked] at found
  split at found
  · cases found
  · exact found

end

/-- What statements keep of the graph of a space, also while a rebuild is under way. -/
structure Healthy (space : String) (kv : KV) : Prop where
  grounded : Grounded space kv
  sound : Dirty space kv ∨ Sound space kv
  uses : Uses (Owned space kv) space kv

theorem Sound.healthy (sound : Sound space kv) (uses : Uses (Owned space kv) space kv) : Healthy space kv :=
  ⟨sound.grounded, .inr sound, uses⟩

theorem Healthy.of_empty
    (empty : ∀ {key : Key} {kind : String}, key.kind space = some kind → kv.get key = none) : Healthy space kv := by
  have pointers : ∀ vid, kv.get (sameas space vid) = none := fun vid => empty (kind_text space "sameas" (.num vid) [])
  have members : ∀ rep vid, kv.get (sameasMember space rep vid) = none :=
    fun rep vid => empty (kind_text space "sameas-members" (.num rep) [.num vid])
  have edges : ∀ (t : Triple) (rank : Int), kv.get (t.key space rank) = none := fun t rank => empty (t.kind_key space rank)
  have reverse : ∀ (t : Triple) (rank : Int), kv.get (t.inKey space rank) = none := fun t rank => empty (t.kind_inKey space rank)
  have vertices : ∀ vid, kv.get (vertex space vid) = none := fun vid => empty (kind_vertex space vid)
  have sound : Sound space kv := by
    refine ⟨⟨by simp [edges], by simp [vertices]⟩, fun t rank => by rw [edges, reverse], ?_,
      ⟨?_, ?_⟩, ⟨by simp [pointers], by simp [pointers, members], ?_⟩⟩
    · exact fun _ _ vid _ _ value found => by simp [pointers] at found
    · exact fun vid tag found => by simp [empty (kind_tagvid space tag vid)] at found
    · exact fun vid prop found => by simp [empty (kind_vecData space prop vid)] at found
    · intro rep key value found covered
      obtain ⟨rest, -, rfl⟩ := covers_text.mp covered
      exact absurd (found.symm.trans (empty (kind_text space "sameas-members" (.num rep) rest))) (by simp)
  exact sound.healthy ⟨by simp [pointers], by simp [vertices]⟩

theorem region_eq_some (inside : region space key = some part) (unindexed : part ≠ .index) :
    ∃ kind, key.kind space = some kind ∧ regionOf kind = some part := by
  cases key with
  | raw bytes =>
    rw [region_raw, Option.some.injEq] at inside
    exact absurd inside.symm unindexed
  | text segments => exact Option.bind_eq_some_iff.mp inside

/-- The keys that ids in use depend on. -/
def Places (space : String) (key : Key) : Prop :=
  Lasts space key ∨ region space key = some .mapping ∨ key = SchemaKey.space space

def Counts (space : String) (key : Key) : Prop := Matters space key ∨ Places space key

theorem Uses.same (uses : Uses (Owned space kv) space kv) (same : ∀ key, Places space key → kv'.get key = kv.get key) :
    Uses (Owned space kv') space kv' := by
  have lasting : Lasting space kv kv' := .of_same fun key inside => same key (.inr (.inl inside))
  refine (uses.mono fun _ owned => owned.lasting lasting (same _ (.inr (.inr rfl)))).congr
    (fun vid => same _ (.inl (.inl (by simp)))) fun vid found => .inl ?_
  rwa [same _ (.inl (.inr (by simp)))] at found

theorem Places.underived (places : Places space key) :
    key.kind space ≠ some "edge" ∧ key.kind space ∉ derivedKinds := by
  rcases places with lasts | inside | rfl
  · exact lasts.underived
  · refine ⟨kind_ne_of_region inside rfl, fun derived => ?_⟩
    simp only [derivedKinds, mem_cons, not_mem_nil, or_false] at derived
    rcases derived with kind | kind | kind | kind <;> exact kind_ne_of_region inside rfl kind
  · have declares : Declares space (.space space) := .inl rfl
    rcases declares.kind.2 with kind | kind <;> simp [kind, derivedKinds]

theorem Lasts.matters (lasts : Lasts space key) : Matters space key := by
  refine lasts.imp_right fun kind => ?_
  simp only [mem_cons, not_mem_nil, or_false] at kind ⊢
  tauto

theorem Healthy.same (healthy : Healthy space kv) (dirty : Dirty space kv → Dirty space kv')
    (same : ∀ key, Counts space key → kv'.get key = kv.get key) : Healthy space kv' where
  grounded := healthy.grounded.grounds (.of_same (fun key edge => same key (.inl (.inr (by simp [edge]))))
    fun key lasts => same key (.inl lasts.matters))
  sound := healthy.sound.imp dirty fun sound => sound.congr fun key matters => same key (.inl matters)
  uses := healthy.uses.same fun key places => same key (.inr places)

theorem kind_of_counts (counts : Counts space key) :
    key = Key.space space ∨ ∃ kind, key.kind space = some kind ∧ kind ≠ "inference" ∧ kind ≠ "space" := by
  have named : Matters space key → key = Key.space space ∨
      ∃ kind, key.kind space = some kind ∧ kind ≠ "inference" ∧ kind ≠ "space" := by
    rintro (inside | kind)
    · obtain ⟨kind, has, part⟩ := region_eq_some inside (by simp)
      exact .inr ⟨kind, has, by rintro rfl; simp [regionOf] at part, by rintro rfl; simp [regionOf] at part⟩
    · simp only [mem_cons, not_mem_nil, or_false] at kind
      rcases kind with kind | kind | kind | kind | kind | kind <;> exact .inr ⟨_, kind, by simp, by simp⟩
  rcases counts with matters | lasts | inside | same
  · exact named matters
  · exact named lasts.matters
  · obtain ⟨kind, has, part⟩ := region_eq_some inside (by simp)
    exact .inr ⟨kind, has, by rintro rfl; simp [regionOf] at part, by rintro rfl; simp [regionOf] at part⟩
  · exact .inl same

theorem Redefines.get_counts (redefines : Redefines space kv kv') (counts : Counts space key) :
    kv'.get key = kv.get key := by
  rcases kind_of_counts counts with rfl | ⟨kind, has, marker, schema⟩
  · have declares : Declares space (.space space) := .inl rfl
    exact redefines.frame _ declares.not_marker declares.not_edge
  · exact redefines.get_eq has marker schema

theorem Committed.declares {before after : World} (committed : Committed env space ctx mutation before after)
    (declares : Declares space key) : after.kv.get key = before.kv.get key :=
  (kept_declares declares).commits committed rfl

def Mutation.mentioned : Mutation → List Vid
  | .insert (.vertex _ rows) => rows.map VertexInsert.vid
  | .insert (.edge _ rows) => rows.map EdgeInsert.src ++ rows.map EdgeInsert.dst
  | .update plan => [plan.vid]
  | .delete _ | .deleteEdge _ => []

section

variable (changes : Changes env space indexes tagIndexes mutation kv kv')

include changes

theorem Changes.uses (sound : Sound space kv)
    (record : kv'.get (.space space) = kv.get (.space space)) (uses : Uses own space kv)
    (given : ∀ vid ∈ mutation.mentioned, ∀ internal, Denotes space kv' vid internal → own internal) :
    Uses own space kv' := by
  cases changes with
  | insertVertices effect =>
    exact uses.insertVertices record sound effect fun insert among => given _ (mem_map_of_mem among)
  | insertEdges effect =>
    refine uses.insertEdges record sound effect fun insert among vid denotes => ?_
    rcases denotes with denotes | denotes
    · exact given _ (mem_append_left _ (mem_map_of_mem among)) vid denotes
    · exact given _ (mem_append_right _ (mem_map_of_mem among)) vid denotes
  | updateEdge _ effect => exact uses.bystands fun _ other => effect.get_bystands other
  | updateVertex _ effect => exact uses.updateVertex record sound effect (given _ mem_cons_self)
  | delete effect => exact uses.deleteVertices effect
  | deleteEdge effect => exact uses.bystands fun _ other => effect.get_bystands other

theorem Changes.sound (sound : Sound space kv)
    (uses : Uses (Owned space kv) space kv) : Sound space kv' := by
  cases changes with
  | insertVertices effect => exact sound.insertVertices effect
  | insertEdges effect => exact sound.insertEdges effect
  | updateEdge _ effect => exact sound.updateEdge effect
  | updateVertex _ effect => exact sound.updateVertex uses.pointers uses.vertices effect
  | delete effect => exact sound.deleteVertices effect
  | deleteEdge effect => exact sound.deleteEdges effect

end

theorem Committed.healthy {before after : World} (committed : Committed env space ctx mutation before after)
    (healthy : Healthy space before.kv) : Healthy space after.kv := by
  obtain ⟨indexes, tagIndexes, -, -, changes⟩ := committed.changes
  have sound := healthy.sound.resolve_left committed.unmarked
  have record := committed.declares (.inl rfl)
  have kept : Uses (Owned space after.kv) space before.kv :=
    healthy.uses.mono fun _ owned => owned.lasting committed.lasting record
  exact (changes.sound sound healthy.uses).healthy (changes.uses sound record kept fun _ _ _ denotes => denotes.owned)

theorem kept_healthy : Kept env space (Healthy space) where
  commits committed healthy := committed.healthy healthy
  redefines redefines healthy := healthy.same redefines.kept fun _ => redefines.get_counts
  rebuilds marked keeps healthy := by
    refine ⟨healthy.grounded.grounds keeps.grounds,
      .inl ((dirty_of_keeps keeps).mpr marked), healthy.uses.same fun key places => ?_⟩
    exact keeps.other key places.underived.1 places.underived.2
  settles {kv kv'} built healthy := by
    have unmark : ∀ key, Counts space key → (kv'.erase (inferenceDirty space)).get key = kv'.get key := by
      intro key counts
      rw [get_erase, if_neg]
      rintro rfl
      rcases kind_of_counts counts with same | ⟨kind, has, marker, -⟩
      · simp [inferenceDirty, Key.space] at same
      · rw [kind_inferenceDirty, Option.some.injEq] at has
        exact marker has.symm
    have sound := (healthy.grounded.materialized built).congr fun key matters => unmark key (.inl matters)
    refine sound.healthy (healthy.uses.same fun key places => ?_)
    rw [unmark key (.inr places), built.keeps.other key places.underived.1 places.underived.2]

theorem local_healthy : Local space (Healthy space) := by
  intro kv kv' same healthy
  refine healthy.same (dirty_congr same).mpr fun key counts => same key ?_
  rcases kind_of_counts counts with rfl | ⟨kind, has, -, -⟩
  · exact .inr (.inl rfl)
  · exact concerns_kind has

/-- Along every run the graph is sound, except while its derived facts are rebuilt. -/
theorem Runs.healthy (readable : Readable space start.kv) (runs : Runs env space start reached)
    (healthy : Healthy space start.kv) : Healthy space reached.kv :=
  Runs.keeps kept_healthy local_healthy readable runs healthy

end ByoriDB.Executor
