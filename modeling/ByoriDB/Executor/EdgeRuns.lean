import ByoriDB.Executor.Ownership

/-! An edge is stored under its source and under its target, and the asserted ones are counted at both ends. -/

namespace ByoriDB.Executor

open List hiding count
open Data Program Store ByoriDB.Graph

variable {env : Env} {space : String} {indexes tagIndexes : List IndexDef} {kv kv' mapped : KV} {start reached : World}

theorem kept_mirrored : Kept env space fun kv => Dirty space kv ∨ Mirrored space kv where
  commits committed holds := by
    have mirrored := holds.resolve_left committed.unmarked
    exact .inr (committed.keeps (fun world => Mirrored space world.kv) (fun _ _ mutates alike => mutates.mirrored alike) mirrored)
  redefines redefines holds := by
    refine holds.imp redefines.kept fun mirrored => mirrored.congr fun key isEdge => ?_
    rcases isEdge with kind | kind <;> exact redefines.get_eq kind (by simp) (by simp)
  rebuilds marked keeps _ := .inl ((dirty_of_keeps keeps).mpr marked)
  settles built _ := by
    refine .inr (Mirrored.congr built.reverse fun key isEdge => ?_)
    rw [get_erase, if_neg]
    rintro rfl
    simp [EdgeKey] at isEdge

theorem local_mirrored : Local space fun kv => Dirty space kv ∨ Mirrored space kv := by
  intro kv kv' same holds
  refine holds.imp (dirty_congr same).mpr fun mirrored => mirrored.congr fun key isEdge => same key ?_
  rcases isEdge with kind | kind <;> exact concerns_kind kind

/-- After every statement that succeeds, in every run, both copies of each edge are
there, with the same payload, or none is. -/
theorem runs_mirrored (readable : Readable space start.kv) (mirrored : Mirrored space start.kv)
    (runs : Runs env space start reached) {fuel : Nat} {ctx : Ctx} {plan : Plan} {response : Response} {final : World}
    (changes : plan.changesGraph = true) (scope : inferenceScope ctx plan = some (space, true))
    (ran : (execute env.toLayout fuel ctx plan).run (handler env) reached = (.ok response, final))
    (src : Int) (edgeType : String) (dst rank : Int) :
    final.kv.get (inEdgeData space dst edgeType src rank) = final.kv.get (edgeData space src edgeType dst rank) := by
  have before := Runs.keeps kept_mirrored local_mirrored readable runs (.inr mirrored)
  have finished := finished_execute changes scope (Runs.readable runs readable) ran
  have after := kept_mirrored.progress (finished.progress reached) before
  exact after.resolve_left finished.unmarked ⟨src, edgeType, dst⟩ rank

theorem mirrored_fresh : Mirrored "g" freshSpace.kv := by
  intro t rank
  rw [get_fresh (t.kind_inKey "g" rank), get_fresh (t.kind_key "g" rank)]

/-- The edge from `1` to `4` is derived. -/
theorem runs_mirrored_ancestry : (after ancestry (insertEdge [ancestor 3 4])).kv.get (inEdgeData "g" 4 "anc" 1 0) =
      (after ancestry (insertEdge [ancestor 3 4])).kv.get (edgeData "g" 1 "anc" 4 0) := by
  obtain ⟨response, ran⟩ := @ran_after ancestry (insertEdge [ancestor 3 4]) (by decide +kernel)
  exact runs_mirrored readable_fresh mirrored_fresh runs_ancestry rfl rfl ran 1 "anc" 4 0

theorem degree_asserted (same : ∀ key, key.kind space = some "edge" →
      (kv'.get key).filter Val.isAsserted = (kv.get key).filter Val.isAsserted)
    (counts : EdgeData → Bool) : degree space kv' counts = degree space kv counts := by
  refine Table.count_ext fun key value counted => ?_
  rw [Bool.and_eq_true, decide_eq_true_eq] at counted
  have asserted : value.isAsserted = true := by
    cases value with
    | edge edge =>
      simp only [assertsEdge, Bool.and_eq_true] at counted
      exact counted.2.1
    | _ => cases counted.2
  have agree : ∀ table : KV, table.get key = some value ↔ (table.get key).filter Val.isAsserted = some value := by
    intro table
    rw [Option.filter_eq_some_iff]
    exact (and_iff_left asserted).symm
  rw [agree, agree, same key counted.1]

theorem Counted.congr (counted : Counted space kv) (edges : ∀ key, key.kind space = some "edge" →
      (kv'.get key).filter Val.isAsserted = (kv.get key).filter Val.isAsserted)
    (counters : ∀ key, region space key = some .counter → kv'.get key = kv.get key) :
    Counted space kv' := by
  intro side edgeType vid
  rw [counters _ (region_counter side), degree_asserted edges]
  exact counted side edgeType vid

theorem Deltas.congr {after after' : KV} {degIn degOut : Table Key Int}
    (deltas : Deltas space kv after degIn degOut) (edges : ∀ key, key.kind space = some "edge" →
      after'.get key = after.get key) : Deltas space kv after' degIn degOut where
  counters := deltas.counters
  values side edgeType vid := by rw [deltas.values, degree_congr edges]

theorem get_fencedEdges_edge {edges : List EdgeData} (gone : List EdgeData)
    (fenced : FencedPuts space mapped (edges.flatMap (edgePair space) ++ others) puts)
    (indexed : ∀ put ∈ others, EdgeEntry put.1) (removed : ∀ key ∈ entries, EdgeEntry key)
    {key : Key} (kind : key.kind space = some "edge") :
    ((kv.putAll puts).eraseAll (edgeKeys space gone ++ entries)).get key = ((kv.putAll
      (edges.flatMap (edgePair space))).eraseAll (gone.map (EdgeData.key space))).get key := by
  have same : key ∈ edgeKeys space gone ++ entries ↔ key ∈ gone.map (EdgeData.key space) := by
    rw [edgeKeys, mem_append, mem_append]
    refine ⟨?_, fun mem => .inl (.inl mem)⟩
    rintro ((forward | reverse) | entry)
    · exact forward
    · obtain ⟨edge, -, rfl⟩ := mem_map.mp reverse
      simp at kind
    · exact absurd kind (kind_ne_of_region ((removed key entry).region space) rfl)
  have unlisted : key ∉ others.map Prod.fst := by
    intro mem
    obtain ⟨put, listed, rfl⟩ := mem_map.mp mem
    exact kind_ne_of_region ((indexed put listed).region space) rfl kind
  have unmarked : key ≠ inferenceDirty space := by
    rintro rfl
    simp at kind
  rw [get_eraseAll, get_eraseAll, fenced.get unmarked, putAll_append, get_putAll_of_not_mem unlisted]
  simp [same]

theorem MergesAll.eq_of_none (merges : MergesAll space indexes tagIndexes triples kv count kv')
    (none : count = 0) : kv' = kv := by
  induction merges with
  | nil => rfl
  | skip _ _ ih => exact ih none
  | merge => cases none

theorem deltas_promotion (stored : kv.get (old.key space) = some (.edge old)) :
    Deltas space kv (kv.putAll ([updatedEdge old updates].flatMap (edgePair space)))
      (promotion old (indegCounter space old.edgeType old.dstVid))
      (promotion old (outdegCounter space old.edgeType old.srcVid)) := by
  have lands : Lands space kv (updatedEdge old updates) := by
    intro value found
    rw [key_updatedEdge, stored, Option.some.injEq] at found
    exact ⟨old, found.symm, rfl⟩
  have grows := degree_edgePair (isInferred_updatedEdge updates) lands
  simp only [flatMap_cons, flatMap_nil, append_nil]
  rw [key_updatedEdge, stored] at grows
  unfold promotion
  split
  · rename_i inferred
    refine (Deltas.none space kv).add old 1 fun side edgeType vid => ?_
    have alike : (updatedEdge old updates).key space = old.key space := rfl
    rw [grows, at_of_key alike]
    simp [Val.isAsserted, inferred]
  · rename_i asserted
    refine ⟨(Deltas.none space kv).counters, fun side edgeType vid => ?_⟩
    have same := grows side edgeType vid
    simp only [Option.any_some, Val.isAsserted, asserted] at same
    rw [(Deltas.none space kv).values]
    simp [same]

section

variable (exactly : CountsExactly env) (counted : Counted space kv)
include exactly counted

theorem Counted.insertEdges (inserted : InsertsEdges env space indexes tagIndexes inserts kv kv') :
    Counted space kv' := by
  obtain @⟨vidType, mapped, rows, type, mapping, lasting, collected, made, ⟨fenced, merges⟩⟩ := inserted
  have mappedCounted : Counted space mapped := counted.congr
    (fun key kind => by rw [mapping key (by rw [region_of_kind kind]; simp [regionOf])])
      fun key inside => mapping key (by simp [inside])
  have deltas : Deltas space mapped (insertedStore space indexes rows mapped _) rows.degIn rows.degOut :=
    collected.deltas.congr fun key kind =>
      get_fencedEdges_edge [] fenced edgeEntry_edgeViewPuts (edgeEntry_insertDeletes collected) kind
  cases merges with
  | some _ recounted _ => exact recounted
  | none merges =>
    rw [merges.eq_of_none rfl]
    refine mappedCounted.apply exactly deltas fun key inside => ?_
    exact get_fencedEdges [] fenced edgeEntry_edgeViewPuts (edgeEntry_insertDeletes collected) (not_edgeKey_of_region inside)
      (not_unnamed_of_region inside (by simp))

theorem Counted.updateEdge (updated : UpdatesEdge env space indexes kv kv') : Counted space kv' := by
  cases updated with
  | idle => exact counted
  | @rewritten old updates puts stored _ fenced =>
    refine counted.apply exactly ((deltas_promotion stored).congr fun key kind =>
      get_fencedEdges_edge [] fenced edgeEntry_movedTo edgeEntry_movedFrom kind) fun key inside => ?_
    exact get_fencedEdges [] fenced edgeEntry_movedTo edgeEntry_movedFrom (not_edgeKey_of_region inside)
      (not_unnamed_of_region inside (by simp))

theorem Counted.deleteEdges (deleted : DeletesEdges env space indexes kv kv') : Counted space kv' := by
  obtain @⟨deletion, puts, removing, fenced⟩ := deleted
  have none : FencedPuts space kv (([] : List EdgeData).flatMap (edgePair space) ++ []) puts := fenced
  refine counted.apply exactly (removing.deltas.congr fun key kind =>
    get_fencedEdges_edge _ none (by simp) (edgeEntry_indexKeys removing) kind) fun key inside => ?_
  exact get_fencedEdges _ none (by simp) (edgeEntry_indexKeys removing) (not_edgeKey_of_region inside)
    (not_unnamed_of_region inside (by simp))

omit exactly in
theorem Counted.aloof (same : ∀ key, Aloof space key → kv'.get key = kv.get key) : Counted space kv' :=
  counted.congr (fun key kind => by rw [same key (aloof_edge (.inl kind))])
    fun key inside => same key (aloof_region inside (by simp) (by simp) (by simp))

theorem Counted.changes (effects : Changes env space indexes tagIndexes mutation kv kv') : Counted space kv' := by
  cases effects with
  | insertVertices effect => exact counted.aloof fun _ aloof => effect.get_aloof aloof
  | insertEdges effect => exact counted.insertEdges exactly effect
  | updateEdge _ effect => exact counted.updateEdge exactly effect
  | updateVertex _ effect => exact counted.aloof fun _ aloof => effect.get_aloof aloof
  | delete effect => exact counted.aloof fun _ aloof => effect.get_aloof aloof
  | deleteEdge effect => exact counted.deleteEdges exactly effect

end

theorem kept_counted (exactly : CountsExactly env) : Kept env space (Counted space) where
  commits committed counted := by
    obtain ⟨indexes, tagIndexes, -, -, changes⟩ := committed.changes
    exact counted.changes exactly changes
  redefines redefines counted := by
    refine counted.congr (fun key kind => by rw [redefines.get_eq kind (by simp) (by simp)]) fun key inside => ?_
    obtain ⟨kind, has, part⟩ := region_eq_some inside (by simp)
    exact redefines.get_eq has (by rintro rfl; simp [regionOf] at part) (by rintro rfl; simp [regionOf] at part)
  rebuilds _ keeps counted := counted.congr keeps.asserted fun key inside => keeps.get_region inside
  settles {kv kv'} built counted := by
    have unmark : ∀ {key : Key}, key ≠ inferenceDirty space →
        (kv'.erase (inferenceDirty space)).get key = kv'.get key := fun other => by rw [get_erase, if_neg other]
    refine counted.congr (fun key kind => ?_) fun key inside => ?_
    · rw [unmark (by rintro rfl; simp at kind)]
      exact built.keeps.asserted key kind
    · rw [unmark (by rintro rfl; simp at inside)]
      exact built.keeps.get_region inside

theorem local_counted : Local space (Counted space) := by
  intro kv kv' same counted
  refine counted.congr (fun key kind => by rw [same key (concerns_kind kind)]) fun key inside => same key ?_
  obtain ⟨kind, has, -⟩ := region_eq_some inside (by simp)
  exact concerns_kind has

/-- Wherever a run gets to, every counter holds the number of asserted edges of its
type at its end, and is absent where there are none. -/
theorem runs_counted (exactly : CountsExactly env) (readable : Readable space start.kv)
    (counted : Counted space start.kv) (runs : Runs env space start reached) (edgeType : String) (vid : Int) :
    reached.kv.get (indegCounter space edgeType vid) =
        stored (degree space reached.kv fun edge => decide (edge.edgeType = edgeType ∧ edge.dstVid = vid)) ∧
      reached.kv.get (outdegCounter space edgeType vid) =
        stored (degree space reached.kv fun edge => decide (edge.edgeType = edgeType ∧ edge.srcVid = vid)) := by
  have final := Runs.keeps (kept_counted exactly) local_counted readable runs counted
  exact ⟨final .incoming edgeType vid, final .outgoing edgeType vid⟩

theorem counted_fresh : Counted "g" freshSpace.kv := by
  intro side edgeType vid
  have none : degree "g" freshSpace.kv (side.at edgeType vid) = 0 := by
    refine countP_eq_zero.mpr fun entry mem => ?_
    rw [Bool.and_eq_true, decide_eq_true_eq]
    rintro ⟨kind, -⟩
    rw [mem_toList, get_fresh kind] at mem
    cases mem
  obtain ⟨kind, has, -⟩ := region_eq_some (region_counter side) (by simp)
  rw [none, get_fresh has]
  rfl

theorem runs_counted_knows :
    (after freshSpace (insertEdge [knows 1 2, knows 3 2, knows 1 2])).kv.get
      (indegCounter "g" "knows" 2) = some (.count 2) := by
  have runs := @runs_after freshSpace _ (insertEdge [knows 1 2, knows 3 2, knows 1 2]) rfl rfl .refl
  have counts := (runs_counted (fun _ => ⟨rfl, rfl⟩) readable_fresh counted_fresh runs "knows" 2).1
  have two : degree "g" (after freshSpace (insertEdge [knows 1 2, knows 3 2, knows 1 2])).kv
      (fun edge => decide (edge.edgeType = "knows" ∧ edge.dstVid = 2)) = 2 := by decide +kernel
  rw [counts, two]
  rfl

end ByoriDB.Executor
