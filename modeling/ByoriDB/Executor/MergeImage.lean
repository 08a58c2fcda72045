import ByoriDB.Executor.Aliases
import ByoriDB.Executor.EdgeRuns

/-! The merges of an `INSERT EDGE` map every asserted edge to the representatives of its ends. -/

namespace ByoriDB.Executor

open List Data Program Store ByoriDB.Graph

variable {env : Env} {space : String} {kv : KV}

/-- The edge that a row makes, between the representatives that its ends have so far. -/
def Makes (space : String) (kv kv' : KV) (row : EdgeInsert) (edge : EdgeData) : Prop :=
  ∃ src dst, Names space kv' (row.src, row.dst) src dst ∧
    edge = ⟨repAt space kv src, repAt space kv dst, row.edgeType, row.ranking, row.props⟩

/-- A store with edges written into it, one after the other. -/
def withEdges (space : String) (kv : KV) (edges : List EdgeData) : KV := kv.putAll (edges.flatMap (edgePair space))

theorem asserts_congr (same : ∀ key, key.kind space = some "edge" →
      (kv'.get key).filter Val.isAsserted = (kv.get key).filter Val.isAsserted) :
    Asserts space kv' edge ↔ Asserts space kv edge := by
  have filtered : ∀ table : KV, Asserts space table edge ↔
      (table.get (edge.key space)).filter Val.isAsserted = some (.edge edge) := by
    intro table
    rw [Option.filter_eq_some_iff, Asserts]
    simp [Val.isAsserted]
  rw [filtered, filtered, same _ (kind_edgeKey space edge)]

theorem Image.asserted {rep : Int → Int} {before after : KV} (image : Image space rep kv kv')
    (first : ∀ edge, Asserts space before edge ↔ Asserts space kv edge)
    (second : ∀ edge, Asserts space after edge ↔ Asserts space kv' edge) : Image space rep before after where
  covers edge asserts := by
    obtain ⟨found, held, same⟩ := image.covers edge ((first edge).mp asserts)
    exact ⟨found, (second found).mpr held, same⟩
  unites edge asserts := (image.unites edge ((second edge).mp asserts)).congr fun source =>
    and_congr_left fun _ => (first source).symm

theorem Merges.merged (merges : Merges space indexes tagIndexes triples kv kv') :
    ∃ count merged, MergesAll space indexes tagIndexes triples kv count merged ∧
      ∀ key, region space key ≠ Option.some .counter → kv'.get key = merged.get key := by
  cases merges with
  | none merges => exact ⟨0, kv', merges, fun _ _ => rfl⟩
  | some merges _ rest => exact ⟨_, _, merges, rest⟩

structure Inserted (space : String) (rows : List EdgeInsert) (kv kv' : KV) (edges : List EdgeData) : Prop where
  makes : Forall₂ (Makes space kv kv') rows edges
  asserted : ∀ edge ∈ edges, edge.isInferred = false
  image : Image space (repAt space kv') (withEdges space kv edges) kv'
  coarser : ∀ vid, repAt space kv' (repAt space kv vid) = repAt space kv' vid
  unaffected : ∀ (t : Triple) (rank : Int), Root space kv t.s → Root space kv t.d →
    (∀ vid, repAt space kv' vid = repAt space kv' t.s ↔ repAt space kv vid = repAt space kv t.s) →
    (∀ vid, repAt space kv' vid = repAt space kv' t.d ↔ repAt space kv vid = repAt space kv t.d) →
    t.key space rank ∉ edges.map (EdgeData.key space) → kv'.get (t.key space rank) = kv.get (t.key space rank)

theorem InsertsEdges.inserted (sound : Sound space kv)
    (record : kv'.get (.space space) = kv.get (.space space))
    (inserts : InsertsEdges env space indexes tagIndexes rows kv kv') : ∃ edges, Inserted space rows kv kv' edges := by
  obtain @⟨vidType, mapped, collected, type, mapping, lasting, collects, made, @⟨puts, fenced, merges⟩⟩ := inserts
  have declares : Declares space (.space space) := .inl rfl
  have mappedRecord := mapping (.space space) (by simp [declares.kind.1])
  have mappedSound := sound.remapped mapping
  have mappedReps : repAt space mapped = repAt space kv := repAt_congr fun vid => mapping _ (by simp)
  have countedReps : repAt space (countedStore env collected
    (insertedStore space indexes collected mapped puts)) = repAt space kv := by
    rw [← mappedReps]
    exact repAt_congr fun vid => collects.get_bystands (bystands_region (region_sameas space vid) (by simp) (by simp)) fenced
  have countedSound : Sound space (countedStore env collected (insertedStore space indexes collected mapped puts)) :=
    collects.sound_counted fenced mappedSound
  have lastingMapped : Lasting space mapped kv' := .of_same fun key inside =>
    (merges.get_mapping inside).trans (collects.get_bystands (bystands_region inside (by simp) (by simp)) fenced)
  -- Before the merges, the edges are those of the store with the new ones written into it.
  have written : ∀ key, key.kind space = some "edge" →
      (countedStore env collected (insertedStore space indexes collected mapped puts)).get key =
        (withEdges space kv collected.edges).get key := by
    intro key kind
    have unmapped : region space key ≠ some .mapping := by
      rw [region_of_kind kind]
      simp [regionOf]
    have stored : (insertedStore space indexes collected mapped puts).get key =
        ((mapped.putAll (collected.edges.flatMap (edgePair space))).eraseAll []).get key :=
      get_fencedEdges_edge [] fenced edgeEntry_edgeViewPuts (edgeEntry_insertDeletes collects) kind
    rw [get_countedStore collects (by rw [region_of_kind kind]; simp [regionOf]), stored, withEdges, Table.eraseAll_nil,
      get_putAll, get_putAll, mapping key unmapped]
  obtain ⟨count, merged, all, uncounted⟩ := merges.merged
  have finalReps : repAt space kv' = repAt space merged := repAt_congr fun vid => uncounted _ (by simp)
  have edgewise : ∀ key, key.kind space = some "edge" → kv'.get key = merged.get key := fun key kind =>
    uncounted key (by rw [region_of_kind kind]; simp [regionOf])
  refine ⟨collected.edges, ?_, collects.asserted, ?_, ?_, ?_⟩
  · refine made.imp fun row edge inserts => ?_
    obtain ⟨src, dst, first, second, source, target, edgeType, ranking, props⟩ := inserts
    have typeMapped : vidTypeAt space mapped = some vidType := (vidTypeAt_congr mappedRecord).trans type
    refine ⟨src, dst, Names.lasting ⟨vidType, typeMapped, first, second⟩ lastingMapped (record.trans mappedRecord.symm), ?_⟩
    rw [← mappedReps, ← mappedSound.flat.represents source, ← mappedSound.flat.represents target, ← edgeType, ← ranking, ← props]
  · rw [finalReps]
    refine (all.image countedSound).asserted (fun edge => asserts_congr fun key kind => ?_)
      fun edge => asserts_congr fun key kind => ?_
    · rw [written key kind]
    · rw [edgewise key kind]
  · intro vid
    rw [finalReps, ← countedReps]
    exact all.coarser countedSound vid
  · intro t rank srcRoot dstRoot src dst fresh
    rw [finalReps, ← countedReps] at src dst
    have pointers : ∀ vid, (countedStore env collected
      (insertedStore space indexes collected mapped puts)).get (sameas space vid) =
        kv.get (sameas space vid) := fun vid => by
      rw [collects.get_bystands (bystands_region (region_sameas space vid) (by simp) (by simp)) fenced, mapping _ (by simp)]
    rw [edgewise _ (t.kind_key space rank), all.unaffected countedSound rank ((root_congr pointers _).mpr srcRoot)
      ((root_congr pointers _).mpr dstRoot) src dst, written _ (t.kind_key space rank), withEdges]
    refine get_putAll_of_not_mem fun mem => fresh ?_
    obtain ⟨put, listed, same⟩ := mem_map.mp mem
    obtain ⟨edge, given, pair⟩ := mem_flatMap.mp listed
    rcases (mem_edgePair pair).2 with forward | reverse
    · exact mem_map.mpr ⟨edge, given, forward.symm.trans same⟩
    · exact absurd (same.symm.trans reverse) (by simp [edge_inKey_eq])

theorem Mutates.edgeFlags (mutates : Mutates env space terms world op) :
    edgeFlags (handler env op world).2.kv space = edgeFlags world.kv space := by
  have same : ∀ {kv : KV}, (∀ name, kv.get (Key.edge space name) = world.kv.get (Key.edge space name)) →
      Executor.edgeFlags kv space = Executor.edgeFlags world.kv space := by
    intro kv schemas
    funext name
    rw [Executor.edgeFlags, Executor.edgeFlags, schemas]
  have untyped : ∀ name, (Key.edge space name).kind space ≠ some "vtype" := by
    intro name
    rw [kind_edgeSchema]
    split
    · rename_i word
      subst word
      simp
    · simp
  cases mutates with
  | tick => rfl
  | look reads => rw [KvOp.looks_kv reads]
  | tend _ tends _ => exact tends.sameGraph.flags
  | retype _ _ => exact same fun name => get_retype (.inl rfl) (untyped name)
  | untype _ => exact same fun name => get_retype (.inr rfl) (untyped name)
  | record records => exact same fun name => records.get_eq (not_touches_edgeSchema space name)

theorem closure_map (rep : Int → Int) (maps : ∀ t, base t → image ⟨rep t.s, t.p, rep t.d⟩)
    (closure : (entailment flags).Closure base t) : (entailment flags).Closure image ⟨rep t.s, t.p, rep t.d⟩ := by
  induction closure with
  | base given => exact .base (maps _ given)
  | unary _ rule ih =>
    refine .unary ih ?_
    rcases rule with ⟨symmetric, rfl⟩ | ⟨q, inverse, rfl⟩ | ⟨q, super, rfl⟩ | ⟨q, equivalent, rfl⟩
    · exact .inl ⟨symmetric, rfl⟩
    · exact .inr (.inl ⟨q, inverse, rfl⟩)
    · exact .inr (.inr (.inl ⟨q, super, rfl⟩))
    · exact .inr (.inr (.inr ⟨q, equivalent, rfl⟩))
  | binary _ _ rule left right =>
    refine .binary left right ?_
    obtain ⟨meets, ⟨transitive, same, rfl⟩ | ⟨q, chain, rfl⟩⟩ := rule
    · exact ⟨congrArg rep meets, .inl ⟨transitive, same, rfl⟩⟩
    · exact ⟨congrArg rep meets, .inr ⟨q, chain, rfl⟩⟩

/-- Between two stores, derived facts and the marker differ at most. -/
structure Refreshes (space : String) (kv kv' : KV) : Prop where
  asserted : ∀ key, key.kind space = some "edge" → (kv'.get key).filter Val.isAsserted = (kv.get key).filter Val.isAsserted
  vertices : ∀ key, key.kind space = some "vertex" → kv'.get key = kv.get key
  regions : ∀ key part, region space key = some part → kv'.get key = kv.get key
  declares : ∀ key, Declares space key → kv'.get key = kv.get key
  flags : edgeFlags kv' space = edgeFlags kv space

theorem Finished.refreshes (finished : Finished space done final) :
    ∃ middle, done middle ∧ Refreshes space middle.kv final.kv := by
  cases finished with
  | clean holds _ => exact ⟨final, holds, fun _ _ => rfl, fun _ _ => rfl, fun _ _ _ => rfl, fun _ _ => rfl, rfl⟩
  | @settled middle rebuilt holds _ built cleared _ =>
    have other : ∀ {key : Key}, key ≠ inferenceDirty space → final.kv.get key = rebuilt.get key :=
      fun apart => by rw [cleared, get_erase, if_neg apart]
    refine ⟨middle, holds, fun key kind => ?_, fun key kind => ?_, fun key part inside => ?_, fun key declares => ?_, ?_⟩
    · rw [other (by rintro rfl; simp at kind)]
      exact built.keeps.asserted key kind
    · rw [other (by rintro rfl; simp at kind)]
      exact built.keeps.other key (by simp [kind]) (by simp [kind, derivedKinds])
    · rw [other (by rintro rfl; simp at inside)]
      exact built.keeps.get_region inside
    · rw [other declares.not_marker]
      exact built.keeps.declares declares
    · rw [← built.keeps.edgeFlags_eq, cleared, (SameGraph.unmark space rebuilt).flags]

def Unaffected (rep rep' : Int → Int) (vid : Int) : Prop := ∀ other, rep' other = rep' vid ↔ rep other = rep vid

theorem Unaffected.rep (flat : Flat space kv) (flat' : Flat space kv') (root : Root space kv vid)
    (unaffected : Unaffected (repAt space kv) (repAt space kv') vid) : repAt space kv' vid = vid := by
  have own := flat.repAt_of_root root
  have back : repAt space kv (repAt space kv' vid) = vid := by
    rw [(unaffected _).mp (flat'.repAt_of_root (flat'.root_repAt vid)), own]
  have below := flat'.repAt_le vid
  have above := flat.repAt_le (repAt space kv' vid)
  omega

section

theorem get_withEdges (kv : KV) (edge : EdgeData) : (∃ written ∈ edges, written.key space =
      edge.key space ∧ (withEdges space kv edges).get (edge.key space) = some (.edge written)) ∨
      (edge.key space ∉ edges.map (EdgeData.key space) ∧
      (withEdges space kv edges).get (edge.key space) = kv.get (edge.key space)) := by
  rw [withEdges, get_putAll]
  cases last : lastPut (edges.flatMap (edgePair space)) (edge.key space) with
  | none =>
    refine .inr ⟨fun mem => ?_, rfl⟩
    obtain ⟨written, listed, same⟩ := mem_map.mp mem
    refine lastPut_eq_none.mp last (mem_map.mpr ⟨(written.key space, .edge written), mem_flatMap.mpr ⟨written, listed, ?_⟩, same⟩)
    simp [edgePair]
  | some value =>
    obtain ⟨written, listed, pair⟩ := mem_flatMap.mp (mem_of_lastPut last)
    obtain ⟨rfl, same | same⟩ := mem_edgePair pair
    · exact .inl ⟨written, listed, same.symm, rfl⟩
    · exact absurd same (by simp [edge_key_eq, edge_inKey_eq])

theorem Asserts.written (asserts : Asserts space (withEdges space kv edges) edge) :
    Asserts space kv edge ∨ edge ∈ edges := by
  rcases get_withEdges kv edge with ⟨written, listed, -, stored⟩ | ⟨-, same⟩
  · have found := asserts.1
    rw [stored, Option.some.injEq, Val.edge.injEq] at found
    exact .inr (found ▸ listed)
  · exact .inl ⟨same ▸ asserts.1, asserts.2⟩

theorem asserts_withEdges (asserted : ∀ edge ∈ edges, edge.isInferred = false)
    (given : Asserts space kv edge ∨ edge ∈ edges) :
    ∃ held, Asserts space (withEdges space kv edges) held ∧ held.key space = edge.key space := by
  rcases get_withEdges kv edge with ⟨written, listed, same, stored⟩ | ⟨fresh, same⟩
  · exact ⟨written, ⟨same ▸ stored, asserted written listed⟩, same⟩
  · rcases given with asserts | listed
    · exact ⟨edge, ⟨same.trans asserts.1, asserts.2⟩, rfl⟩
    · exact absurd (mem_map_of_mem listed) fresh

end

/-- An edge that was derived is derived again, as long as nothing asserts it. -/
theorem Complete.stays (complete : Complete space kv) (sound : Sound space kv)
    (keyed : Keyed space kv') (complete' : Complete space kv')
    (flags : edgeFlags kv' space = edgeFlags kv space) {edges : List EdgeData}
    (ends : ∀ edge ∈ edges, Root space kv edge.srcVid ∧ Root space kv edge.dstVid)
    (identities : ∀ (t : Triple) (rank : Int), (∃ edge, Asserts space kv' edge ∧
      edge.key space = t.key space rank) ↔ ∃ edge, (Asserts space kv edge ∨ edge ∈ edges) ∧
      (mapEnds rep edge).key space = t.key space rank)
    (src : Root space kv t.s ∧ Unaffected (repAt space kv) rep t.s ∧ rep t.s = t.s)
    (dst : Root space kv t.d ∧ Unaffected (repAt space kv) rep t.d ∧ rep t.d = t.d)
    (unasserted : ¬ Asserted kv space t) (fresh : ∀ edge ∈ edges, tripleOf edge ≠ t)
    (stored : Stored kv space t) : kv'.get (t.key space 0) = some (.edge (inferredEdge t)) := by
  have maps : ∀ u, Asserted kv space u → Asserted kv' space ⟨rep u.s, u.p, rep u.d⟩ := by
    rintro u ⟨rank, value, found, asserted⟩
    obtain ⟨edge, rfl, same, rfl⟩ := sound.keyed.edge found
    subst same
    have asserts : Asserts space kv edge := ⟨found, by simpa [Val.isAsserted] using asserted⟩
    obtain ⟨image, held, key⟩ := (identities (tripleOf (mapEnds rep edge)) edge.ranking).mpr ⟨edge, .inl asserts, rfl⟩
    exact ⟨edge.ranking, .edge image, key ▸ held.1, by simp [Val.isAsserted, held.2]⟩
  have entailed := closure_map rep maps ((complete.stored t).mp stored)
  rw [src.2.2, dst.2.2, ← flags] at entailed
  obtain ⟨rank, value, found⟩ := (complete'.stored t).mpr entailed
  have unasserted' : ¬ Asserted kv' space t := by
    rintro ⟨rank, value, found, asserted⟩
    obtain ⟨held, rfl, same, rfl⟩ := keyed.edge found
    obtain ⟨edge, given, key⟩ := (identities t held.ranking).mp ⟨held,
      ⟨by rw [edge_key_eq, same, found], by simpa [Val.isAsserted] using asserted⟩, by rw [edge_key_eq, same]⟩
    have roots : Root space kv edge.srcVid ∧ Root space kv edge.dstVid :=
      given.elim (fun asserts => sound.ends asserts.1) (ends edge)
    rw [edge_key_eq, Triple.key_inj] at key
    obtain ⟨rfl, -⟩ := key
    -- The ends of the edge lie in the classes of single vertices.
    have source : edge.srcVid = rep edge.srcVid := by
      have together := (src.2.1 edge.srcVid).mp src.2.2.symm
      rwa [sound.flat.repAt_of_root roots.1, sound.flat.repAt_of_root src.1] at together
    have target : edge.dstVid = rep edge.dstVid := by
      have together := (dst.2.1 edge.dstVid).mp dst.2.2.symm
      rwa [sound.flat.repAt_of_root roots.2, sound.flat.repAt_of_root dst.1] at together
    have own : tripleOf edge = tripleOf (mapEnds rep edge) := by
      rw [tripleOf, tripleOf, mapEnds, ← source, ← target]
    rcases given with asserts | listed
    · exact unasserted ⟨edge.ranking, .edge edge, own ▸ asserts.1, by simp [Val.isAsserted, asserts.2]⟩
    · exact fresh edge listed own
  obtain ⟨rfl, rfl⟩ := complete'.derived t unasserted' rank value found
  exact found

/-- The graph after an `INSERT EDGE` that succeeds, in any run. -/
theorem insertEdge_image {start before final : World} (readable : Readable space start.kv)
    (healthy : Healthy space start.kv) (guarded : Guarded space start.kv)
    (runs : Runs env space start before)
    {fuel : Nat} {ctx : Ctx} {name : String} {rows : List EdgeInsert} {response : Response}
    (scope : inferenceScope ctx (.mutate (.insert (.edge name rows))) = some (space, true))
    (ran : (execute env.toLayout fuel ctx (.mutate (.insert (.edge name rows)))).run
      (handler env) before = (.ok response, final)) : ∃ (rep : Int → Int) (edges : List EdgeData),
      (∀ vid, (representativeOf space vid).run (handler env) final = (.ok (rep vid), final)) ∧
      Forall₂ (Makes space before.kv final.kv) rows edges ∧ (∀ (t : Triple) (rank : Int),
      (∃ edge, Asserts space final.kv edge ∧ edge.key space = t.key space rank) ↔
        ∃ edge, (Asserts space before.kv edge ∨ edge ∈ edges) ∧ (mapEnds rep edge).key space =
        t.key space rank) ∧ (∀ image, Asserts space final.kv image → Unites (fun edge =>
        Asserts space (withEdges space before.kv edges) edge ∧
        (mapEnds rep edge).key space = image.key space) image) ∧
      (∀ key value vid, final.kv.get key = some value → Mentions space vid key → rep vid = vid) ∧
      ∀ (t : Triple) (rank : Int) (value : Val), before.kv.get (t.key space rank) = some value →
        Unaffected (repAt space before.kv) rep t.s → Unaffected (repAt space before.kv) rep t.d →
        t.key space rank ∉ edges.map (EdgeData.key space) → (value.isAsserted = true ∨
        ∀ edge ∈ edges, tripleOf edge ≠ t) → final.kv.get (t.key space rank) = some value := by
  have readable' := Runs.readable runs readable
  have finished := finished_execute rfl scope readable' ran
  have step : RunStep env space (fun _ _ => True) before final := .of_run rfl scope ran
  have health := Runs.healthy readable runs healthy
  have complete := Runs.keeps kept_guarded local_guarded readable runs guarded
  have finalSound := (Runs.healthy readable (runs.tail step) healthy).sound.resolve_left finished.unmarked
  have finalComplete := (Runs.keeps kept_guarded local_guarded readable (runs.tail step) guarded).resolve_left
    finished.unmarked
  obtain ⟨middle, committed, refreshes⟩ := finished.refreshes
  have sound := health.sound.resolve_left committed.unmarked
  have clean := complete.resolve_left committed.unmarked
  have record : middle.kv.get (.space space) = before.kv.get (.space space) :=
    committed.declares (.inl rfl)
  obtain ⟨indexes, tagIndexes, -, -, changes⟩ := committed.changes
  cases changes with
  | insertEdges effect =>
  obtain ⟨edges, inserted⟩ := effect.inserted sound record
  have reps : repAt space final.kv = repAt space middle.kv :=
    repAt_congr fun vid => refreshes.regions _ _ (region_sameas space vid)
  have image : Image space (repAt space final.kv) (withEdges space before.kv edges) final.kv := by
    rw [reps]
    exact inserted.image.asserted (fun _ => Iff.rfl) fun edge => asserts_congr refreshes.asserted
  have identities : ∀ (t : Triple) (rank : Int), (∃ edge, Asserts space final.kv edge ∧ edge.key space = t.key space rank) ↔
      ∃ edge, (Asserts space before.kv edge ∨ edge ∈ edges) ∧
        (mapEnds (repAt space final.kv) edge).key space = t.key space rank := by
    intro t rank
    constructor
    · rintro ⟨edge, asserts, same⟩
      obtain ⟨source, held, mapped⟩ := (image.unites edge asserts).source
      exact ⟨source, held.written, mapped.trans same⟩
    · rintro ⟨edge, given, same⟩
      obtain ⟨held, asserts, key⟩ := asserts_withEdges inserted.asserted given
      obtain ⟨found, final, mapped⟩ := image.covers held asserts
      exact ⟨found, final, mapped.trans ((key_mapEnds key).trans same)⟩
  refine ⟨repAt space final.kv, edges, run_representativeOf finalSound.flat, ?_, identities, image.unites, ?_, ?_⟩
  · refine inserted.makes.imp fun row edge makes => ?_
    obtain ⟨src, dst, names, shape⟩ := makes
    exact ⟨src, dst, names.lasting (.of_same fun key inside => refreshes.regions key _ inside)
      (refreshes.declares _ (.inl rfl)), shape⟩
  · intro key value vid found mentions
    exact finalSound.flat.repAt_of_root (finalSound.canonical key value vid found mentions)
  · intro t rank value found src dst fresh kept
    have srcRoot : Root space before.kv t.s := sound.canonical _ _ _ found .source
    have dstRoot : Root space before.kv t.d := sound.canonical _ _ _ found .target
    by_cases asserted : value.isAsserted = true
    · have stays := inserted.unaffected t rank srcRoot dstRoot (reps ▸ src) (reps ▸ dst) fresh
      have filtered := refreshes.asserted _ (t.kind_key space rank)
      rw [stays, found, Option.filter_some, if_pos asserted] at filtered
      exact (Option.filter_eq_some_iff.mp filtered).1
    · -- A derived edge is still entailed, and nothing asserts it.
      have unasserted : ¬ Asserted before.kv space t := fun holds => asserted (clean.asserted t holds rank value found)
      obtain ⟨rfl, rfl⟩ := clean.derived t unasserted rank value found
      have flags : edgeFlags final.kv space = edgeFlags before.kv space :=
        refreshes.flags.trans (committed.keeps (fun world => edgeFlags world.kv space = edgeFlags before.kv space)
          (fun _ _ mutates same => mutates.edgeFlags.trans same) rfl)
      have ends : ∀ edge ∈ edges, Root space before.kv edge.srcVid ∧ Root space before.kv edge.dstVid := by
        intro edge mem
        obtain ⟨row, -, src, dst, -, rfl⟩ := exists_of_forall₂ inserted.makes mem
        exact ⟨sound.flat.root_repAt src, sound.flat.root_repAt dst⟩
      exact clean.stays sound finalSound.keyed finalComplete flags ends identities ⟨srcRoot,
        src, src.rep sound.flat finalSound.flat srcRoot⟩
        ⟨dstRoot, dst, dst.rep sound.flat finalSound.flat dstRoot⟩ unasserted (kept.resolve_left asserted) ⟨0, _, found⟩

def sameWith (src dst : Int) (name : String) (value : Int) : EdgeInsert :=
  ⟨.int src, .int dst, sameasEdge, 0, Table.ofList [(name, .int value)]⟩

def united : World := after freshSpace (insertEdge [sameWith 1 2 "since" 1])

def reunited : World := after united (insertEdge [sameWith 1 2 "until" 2, sameWith 3 4 "until" 2])

def renamed : World := after reunited (insertEdge [sameAs 1 0])

theorem exists_asserted {check : EdgeData → Bool} (checked : (match kv.get key with
      | some (.edge edge) => !edge.isInferred && edge.key "g" == key && check edge
      | _ => false) = true) :
    ∃ edge, Asserts "g" kv edge ∧ edge.key "g" = key ∧ check edge = true := by
  split at checked
  · rename_i edge found
    simp only [Bool.and_eq_true, Bool.not_eq_true', beq_iff_eq] at checked
    obtain ⟨⟨asserted, same⟩, checked⟩ := checked
    exact ⟨edge, ⟨same ▸ found, asserted⟩, same, checked⟩
  · cases checked

/-- Nothing names the merged vertex any more, which stood for another one. -/
theorem insertEdge_image_renamed : ((representativeOf "g" 1).run (handler graphEnv) renamed).1 = .ok 0 ∧
    ∀ key value, renamed.kv.get key = some value → ¬ Mentions "g" 1 key := by
  have runs : Runs graphEnv "g" freshSpace reunited := runs_after _ rfl rfl (runs_after _ rfl rfl .refl)
  obtain ⟨response, ran⟩ := @ran_after reunited (insertEdge [sameAs 1 0]) (by decide +kernel)
  rw [← renamed] at ran
  obtain ⟨rep, edges, answers, -, -, -, named, -⟩ :=
    insertEdge_image readable_fresh (.of_empty get_fresh) guarded_fresh runs rfl ran
  have zero : ((representativeOf "g" 1).run (handler graphEnv) renamed).1 = .ok 0 := by decide +kernel
  refine ⟨zero, fun key value found mentions => ?_⟩
  rw [answers 1, named key value 1 found mentions, Except.ok.injEq] at zero
  exact absurd zero (by decide)

/-- The properties of an edge that is inserted again are not united with the old ones. -/
theorem insertEdge_replaces : (∃ response, (execute recordLayout 10 graphCtx (insertEdge [sameWith 1 2 "until" 2,
      sameWith 3 4 "until" 2])).run (handler graphEnv) united = (.ok response, reunited)) ∧
    repAt "g" reunited.kv 4 = 3 ∧ ∃ image, Asserts "g" reunited.kv image ∧
      ¬ Unites (fun edge => (Asserts "g" united.kv edge ∨
        edge ∈ [(1, 2), (3, 4)].map fun ends => ⟨ends.1, ends.2, sameasEdge, 0, Table.ofList [("until", .int 2)]⟩) ∧
        (mapEnds (repAt "g" reunited.kv) edge).key "g" = image.key "g") image := by
  have old : ∃ edge, Asserts "g" united.kv edge ∧ edge.key "g" = edgeData "g" 1 sameasEdge 1 0 ∧
      (edge.properties.get "since").isSome = true := exists_asserted (by decide +kernel)
  have new : ∃ edge, Asserts "g" reunited.kv edge ∧ edge.key "g" = edgeData "g" 1 sameasEdge 1 0 ∧
      (edge.properties.get "since").isNone = true := exists_asserted (by decide +kernel)
  have one : repAt "g" reunited.kv 1 = 1 := by decide +kernel
  obtain ⟨before, asserted, key, has⟩ := old
  obtain ⟨image, asserted', key', lacks⟩ := new
  refine ⟨ran_after (by decide +kernel), by decide +kernel, image, asserted', fun unites => ?_⟩
  have moved : (mapEnds (repAt "g" reunited.kv) before).key "g" = image.key "g" := by
    rw [key', EdgeData.key]
    simp [EdgeData.key, edgeData] at key
    simp [mapEnds, key, one]
  have kept := unites.names before ⟨.inl asserted, moved⟩ "since" has
  rw [Option.isNone_iff_eq_none.mp lacks] at kept
  cases kept

end ByoriDB.Executor
