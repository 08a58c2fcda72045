import ByoriDB.Executor.MergeEdges

/-! The asserted edges of each type are counted at both ends; a counter that would be zero is not stored. -/

namespace ByoriDB.Executor

open List hiding count
open Data Program Store ByoriDB.Graph

section

variable (space : String) (kv : KV) (counts : EdgeData → Bool)

def assertsEdge : Val → Bool
  | .edge edge => !edge.isInferred && counts edge
  | _ => false

def degree : Nat :=
  kv.count fun key value => decide (key.kind space = some "edge") && assertsEdge counts value

inductive End where
  | incoming
  | outgoing
  deriving DecidableEq

def End.vid : End → EdgeData → Int
  | .incoming, edge => edge.dstVid
  | .outgoing, edge => edge.srcVid

def End.counter : End → String → Int → Key
  | .incoming => indegCounter space
  | .outgoing => outdegCounter space

/-- An edge of this type has this vertex at this end. -/
def End.at (side : End) (edgeType : String) (vid : Int) (edge : EdgeData) : Bool :=
  decide (edge.edgeType = edgeType ∧ side.vid edge = vid)

def stored (count : Nat) : Option Val := if count = 0 then none else some (.count count)

/-- Every counter holds the number of asserted edges it stands for. -/
def Counted : Prop :=
  ∀ (side : End) edgeType vid, kv.get (side.counter space edgeType vid) = stored (degree space kv (side.at edgeType vid))

end

@[simp] theorem region_counter (side : End) : region space (side.counter space edgeType vid) = some .counter := by
  cases side <;> simp [End.counter]

theorem counter_inj {side other : End} : side.counter space edgeType vid =
      other.counter space edgeType' vid' ↔ side = other ∧ edgeType = edgeType' ∧ vid = vid' := by
  cases side <;> cases other <;> simp [End.counter, indegCounter, outdegCounter]

theorem degree_eq_countP (counts : EdgeData → Bool) : degree space kv counts =
    (kv.select (edgeDataSpacePrefix space).covers).countP fun entry => assertsEdge counts entry.2 := by
  rw [degree, Table.count, Table.select, countP_filter]
  refine countP_congr fun entry _ => ?_
  have covered : (edgeDataSpacePrefix space).covers entry.1 = decide (entry.1.kind space = some "edge") := by
    rw [Bool.eq_iff_iff, decide_eq_true_eq]
    exact covers_kind
  rw [covered, Bool.and_comm]

theorem degree_congr (same : ∀ key, key.kind space = some "edge" → kv'.get key = kv.get key)
    (counts : EdgeData → Bool) : degree space kv' counts = degree space kv counts := by
  have selected : kv'.select (edgeDataSpacePrefix space).covers = kv.select (edgeDataSpacePrefix space).covers :=
    select_congr fun key covered => same key (covers_kind.mp covered)
  rw [degree_eq_countP, degree_eq_countP, selected]

def grown (count : Option Int) (more : Nat) : Option Int := if more = 0 then count else some (count.getD 0 + more)

theorem get_countEdge (counts : Table Key Int) (edge : EdgeData) (side : End) (edgeType : String) (vid : Int) :
    (countEdge space counts edge).get (side.counter space edgeType vid) =
      grown (counts.get (side.counter space edgeType vid)) (if !edge.isInferred && side.at edgeType vid edge then 1 else 0) := by
  unfold countEdge
  split
  · rename_i inferred
    simp [inferred, grown]
  · rename_i asserted
    have incoming : indegCounter space edge.edgeType edge.dstVid = End.incoming.counter space edge.edgeType edge.dstVid := rfl
    have outgoing : outdegCounter space edge.edgeType edge.srcVid = End.outgoing.counter space edge.edgeType edge.srcVid := rfl
    simp only [incoming, outgoing, get_insert, counter_inj, asserted, Bool.not_false, Bool.true_and, End.at,
      decide_eq_true_eq, grown]
    cases side with
    | incoming =>
      by_cases here : edgeType = edge.edgeType ∧ vid = edge.dstVid
      · obtain ⟨rfl, rfl⟩ := here
        simp [End.vid]
      · have elsewhere : ¬ (edge.edgeType = edgeType ∧ edge.dstVid = vid) := fun same => here ⟨same.1.symm, same.2.symm⟩
        simp [here, elsewhere, End.vid]
    | outgoing =>
      by_cases here : edgeType = edge.edgeType ∧ vid = edge.srcVid
      · obtain ⟨rfl, rfl⟩ := here
        simp [End.vid]
      · have elsewhere : ¬ (edge.edgeType = edgeType ∧ edge.srcVid = vid) := fun same => here ⟨same.1.symm, same.2.symm⟩
        simp [here, elsewhere, End.vid]

theorem get_countEdges (edges : List EdgeData) (counts : Table Key Int)
    (side : End) (edgeType : String) (vid : Int) : (edges.foldl (countEdge space) counts).get
      (side.counter space edgeType vid) = grown (counts.get (side.counter space edgeType vid))
        (edges.countP fun edge => !edge.isInferred && side.at edgeType vid edge) := by
  induction edges generalizing counts with
  | nil => simp [grown]
  | cons edge rest ih =>
    rw [foldl_cons, ih, get_countEdge, countP_cons]
    by_cases here : (!edge.isInferred && side.at edgeType vid edge) = true
    · rw [if_pos here]
      by_cases later : (rest.countP fun edge => !edge.isInferred && side.at edgeType vid edge) = 0
      · simp [grown, later]
      · simp [grown, later]
        omega
    · rw [if_neg here]
      simp [grown]

theorem region_countEdges (edges : List EdgeData)
    (inside : ∀ key count, counts.get key = some count → region space key = some .counter)
    (found : (edges.foldl (countEdge space) counts).get key = some count) : region space key = some .counter := by
  induction edges generalizing counts with
  | nil => exact inside key count found
  | cons edge rest ih =>
    refine ih ?_ found
    intro other number stored
    unfold countEdge at stored
    split at stored
    · exact inside other number stored
    · rw [get_insert] at stored
      split at stored
      · rename_i here
        rw [here, region_outdegCounter]
      · rw [get_insert] at stored
        split at stored
        · rename_i here
          rw [here, region_indegCounter]
        · exact inside other number stored

theorem countP_decoded (entries : List (Key × Val))
    (decoded : entries.mapM (fun entry => decodeQueryEdge entry.1 entry.2) = Except.ok edges) :
    (edges.countP fun edge => !edge.isInferred && counts edge) = entries.countP fun entry => assertsEdge counts entry.2 := by
  induction entries generalizing edges with
  | nil =>
    cases decoded
    rfl
  | cons entry rest ih =>
    rw [mapM_cons] at decoded
    obtain ⟨edge, first, decoded⟩ := bind_eq_ok decoded
    obtain ⟨others, later, decoded⟩ := bind_eq_ok decoded
    cases decoded
    rw [countP_cons, countP_cons, ih later, (decodeQueryEdge_ok first).1]
    rfl

theorem wp_rebuildAssertedDegreeCounters (within : terms.tended .counter) :
    (rebuildAssertedDegreeCounters space).wp (handler env) (Mutates env space terms)
      (fun _ world' => Counted space world'.kv ∧ Tended space .counter world world') world := by
  rw [rebuildAssertedDegreeCounters, wp_bind, wp_scanPrefix]
  refine ⟨.look rfl, ?_⟩
  rw [wp_bind, wp_ofExcept]
  intro edges decoded
  rw [wp_bind, wp_scanPrefix]
  refine ⟨.look rfl, ?_⟩
  rw [wp_bind, wp_scanPrefix]
  refine ⟨.look rfl, ?_⟩
  have degrees : ∀ (side : End) edgeType vid, (edges.foldl (countEdge space) .empty).get (side.counter space edgeType vid) =
      grown none (degree space world.kv (side.at edgeType vid)) := by
    intro side edgeType vid
    rw [get_countEdges, get_empty, countP_decoded _ decoded, degree_eq_countP]
    congr 1
    exact (env.arrange_perm _).countP_eq _
  have inside : ∀ {key : Key} {count : Int}, (edges.foldl (countEdge space) .empty).get key = some count →
      region space key = some .counter := region_countEdges edges (by simp)
  generalize edges.foldl (countEdge space) .empty = counts at degrees inside
  have scanned : ∀ {scope : Prefix} {entry : Key × Val}, entry ∈ env.arrange (world.kv.select scope.covers) ↔
      world.kv.get entry.1 = some entry.2 ∧ scope.covers entry.1 = true := mem_scan
  set stale := List.filter (fun key => (counts.get key).isNone) (List.map Prod.fst
    (env.arrange (world.kv.select (indegPrefix space).covers) ++
      env.arrange (world.kv.select (outdegPrefix space).covers))) with stale_eq
  have mem_stale : ∀ key, key ∈ stale ↔ counts.get key = none ∧ (world.kv.get key).isSome = true ∧
      (key.kind space = some "indeg" ∨ key.kind space = some "outdeg") := by
    intro key
    rw [stale_eq, mem_filter, map_append, mem_append, Option.isNone_iff_eq_none, and_comm]
    refine and_congr_right fun _ => ?_
    simp only [mem_map, Prod.exists, exists_and_right, exists_eq_right, scanned, Option.isSome_iff_exists,
      indegPrefix, outdegPrefix, covers_kind]
    tauto
  have lastPut : ∀ key, lastPut (counts.toList.map fun entry => (entry.1, Val.count entry.2)) key =
      (counts.get key).map Val.count := by
    intro key
    rw [Table.lastPut_map, lastPut_toList]
  have tends : Tends space .counter []
    (KvOp.batchApply (counts.toList.map fun entry => (entry.1, Val.count entry.2)) stale []) := by
    refine ⟨rfl, rfl, ?_, ?_, by simp⟩
    · rw [KvOp.touched_batchApply]
      intro key mem
      rcases mem_append.mp mem with put | deleted
      · obtain ⟨_, listed, rfl⟩ := mem_map.mp put
        obtain ⟨⟨key, count⟩, found, rfl⟩ := mem_map.mp listed
        exact inside (mem_toList.mp found)
      · rcases ((mem_stale key).mp deleted).2.2 with kind | kind <;> exact region_of_kind kind
    · intro key value written vid mentions
      simp only [KvOp.written, mem_append, mem_map, Prod.mk.injEq, Option.some.injEq, reduceCtorEq, and_false,
        exists_false, or_false] at written
      obtain ⟨_, ⟨⟨_, count⟩, found, rfl⟩, rfl, -⟩ := written
      exact absurd mentions (not_mentions_of_region (inside (mem_toList.mp found)) (by simp))
  set after := (world.kv.putAll (counts.toList.map fun entry => (entry.1, Val.count entry.2))).eraseAll stale with after_eq
  have kept : ∀ key, region space key ≠ some .counter → after.get key = world.kv.get key := fun key other => by
    have same : (handler env (.kv (.batchApply
      (counts.toList.map fun entry => (entry.1, Val.count entry.2)) stale [])) world).2.kv.get
      key = world.kv.get key := tends.get_eq other
    exact same
  refine ⟨.tend within tends (by simp), ?_, kept⟩
  intro side edgeType vid
  change after.get _ = stored (degree space after _)
  rw [degree_congr fun key kind => kept key (by rw [region_of_kind kind]; simp [regionOf]), after_eq]
  rw [get_eraseAll, get_putAll, lastPut]
  simp only [mem_stale, degrees]
  have kind : (side.counter space edgeType vid).kind space = some "indeg" ∨
    (side.counter space edgeType vid).kind space = some "outdeg" := by
    cases side <;> simp [End.counter, indegCounter, outdegCounter, Key.kind]
  by_cases none : degree space world.kv (side.at edgeType vid) = 0
  · cases found : world.kv.get (side.counter space edgeType vid) <;> simp [none, grown, stored, kind]
  · simp [none, grown, stored]

/-- Counters are stored and read as the numbers they are. -/
def CountsExactly (env : Env) : Prop :=
  ∀ number, env.counter number = .count number ∧ env.looseCounter (.count number) = number

def End.deltas (degIn degOut : Table Key Int) : End → Table Key Int
  | .incoming => degIn
  | .outgoing => degOut

/-- Deltas that lead from the degrees of one store to those of another. -/
structure Deltas (space : String) (kv kv' : KV) (degIn degOut : Table Key Int) : Prop where
  counters : ∀ (side : End) key delta, (side.deltas degIn degOut).get key = some delta →
    ∃ edgeType vid, key = side.counter space edgeType vid
  values : ∀ (side : End) edgeType vid, ((side.deltas degIn degOut).get (side.counter space edgeType vid)).getD 0 =
    (degree space kv' (side.at edgeType vid) : Int) - degree space kv (side.at edgeType vid)

theorem Deltas.none (space : String) (kv : KV) : Deltas space kv kv .empty .empty where
  counters side key delta found := by cases side <;> simp [End.deltas] at found
  values side edgeType vid := by cases side <;> simp [End.deltas]

theorem mem_deltas : (key, delta) ∈ degIn.toList ++ degOut.toList ↔
      ∃ side : End, (side.deltas degIn degOut).get key = some delta := by
  rw [mem_append, mem_toList, mem_toList]
  constructor
  · rintro (incoming | outgoing)
    · exact ⟨.incoming, incoming⟩
    · exact ⟨.outgoing, outgoing⟩
  · rintro ⟨side, found⟩
    cases side with
    | incoming => exact .inl found
    | outgoing => exact .inr found

theorem Deltas.inside (deltas : Deltas space kv kv' degIn degOut) :
    ∀ delta ∈ degIn.toList ++ degOut.toList, region space delta.1 = some .counter := by
  rintro ⟨key, delta⟩ mem
  obtain ⟨side, found⟩ := mem_deltas.mp mem
  obtain ⟨edgeType, vid, rfl⟩ := deltas.counters side key delta found
  exact region_counter side

theorem Deltas.distinct (deltas : Deltas space kv kv' degIn degOut) :
    ((degIn.toList ++ degOut.toList).map Prod.fst).Nodup := by
  have keys : ∀ table : Table Key Int, (table.toList.map Prod.fst).Nodup := fun table => by
    rw [← select_toList]
    exact nodup_select table _
  rw [map_append, nodup_append]
  refine ⟨keys degIn, keys degOut, ?_⟩
  intro left first right second same
  obtain ⟨⟨_, delta⟩, listed, rfl⟩ := mem_map.mp first
  obtain ⟨⟨_, delta'⟩, listed', rfl⟩ := mem_map.mp second
  obtain ⟨_, _, incoming⟩ := deltas.counters .incoming _ _ (mem_toList.mp listed)
  obtain ⟨_, _, outgoing⟩ := deltas.counters .outgoing _ _ (mem_toList.mp listed')
  have mixed := incoming.symm.trans (same.trans outgoing)
  rw [counter_inj] at mixed
  cases mixed.1

theorem getD_addDelta :
    ((addDelta table key delta).get other).getD 0 = (table.get other).getD 0 + if other = key then delta else 0 := by
  rw [addDelta, get_insert]
  by_cases here : other = key <;> simp [here]

theorem Deltas.add (deltas : Deltas space kv kv' degIn degOut) (edge : EdgeData) (delta : Int)
    (changes : ∀ (side : End) edgeType vid,
      (degree space kv'' (side.at edgeType vid) : Int) = degree space kv' (side.at edgeType vid) +
        if side.at edgeType vid edge then delta else 0) :
    Deltas space kv kv'' (addDelta degIn (indegCounter space edge.edgeType edge.dstVid) delta)
      (addDelta degOut (outdegCounter space edge.edgeType edge.srcVid) delta) := by
  have split : ∀ side : End, side.deltas (addDelta degIn (indegCounter space edge.edgeType edge.dstVid) delta)
      (addDelta degOut (outdegCounter space edge.edgeType edge.srcVid) delta) =
      addDelta (side.deltas degIn degOut) (side.counter space edge.edgeType (side.vid edge)) delta := by
    intro side
    cases side <;> rfl
  constructor
  · intro side key amount found
    rw [split, addDelta, get_insert] at found
    split at found
    · rename_i here
      exact ⟨_, _, here⟩
    · exact deltas.counters side key amount found
  · intro side edgeType vid
    have same : (side.counter space edgeType vid = side.counter space edge.edgeType (side.vid edge)) ↔
        side.at edgeType vid edge = true := by
      rw [counter_inj, End.at, decide_eq_true_eq]
      exact ⟨fun equal => ⟨equal.2.1.symm, equal.2.2.symm⟩, fun equal => ⟨rfl, equal.1.symm, equal.2.symm⟩⟩
    rw [split, getD_addDelta, deltas.values, changes]
    simp only [same]
    omega

theorem Counted.apply (counted : Counted space kv) (exactly : CountsExactly env)
    (deltas : Deltas space kv kv' degIn degOut)
    (same : ∀ key, region space key = some .counter → kv'.get key = kv.get key) :
    Counted space ((degIn.toList ++ degOut.toList).foldl env.addCounter kv') := by
  intro side edgeType vid
  have edges : degree space ((degIn.toList ++ degOut.toList).foldl env.addCounter kv') (side.at edgeType vid) =
      degree space kv' (side.at edgeType vid) := by
    refine degree_congr (fun key kind => Content.get_addCounters fun mem => ?_) _
    obtain ⟨delta, listed, rfl⟩ := mem_map.mp mem
    exact kind_ne_of_region (deltas.inside delta listed) rfl kind
  have value := deltas.values side edgeType vid
  have held := counted side edgeType vid
  cases found : (side.deltas degIn degOut).get (side.counter space edgeType vid) with
  | none =>
    have unlisted : side.counter space edgeType vid ∉ (degIn.toList ++ degOut.toList).map Prod.fst := by
      intro mem
      obtain ⟨⟨_, delta⟩, listed, rfl⟩ := mem_map.mp mem
      obtain ⟨other, held⟩ := mem_deltas.mp listed
      obtain ⟨_, _, shape⟩ := deltas.counters other _ _ held
      rw [counter_inj] at shape
      rw [← shape.1, found] at held
      cases held
    rw [found, Option.getD_none] at value
    rw [Content.get_addCounters unlisted, same _ (region_counter ..), held]
    congr 1
    omega
  | some delta =>
    rw [found, Option.getD_some] at value
    rw [Content.get_addCounters_distinct deltas.distinct (mem_deltas.mpr ⟨side, found⟩), same _ (region_counter ..), held]
    have count : ((stored (degree space kv (side.at edgeType vid))).map env.looseCounter).getD 0 =
        degree space kv (side.at edgeType vid) := by
      unfold stored
      split
      · rename_i zero
        simp [zero]
      · simp [(exactly _).2]
    rw [count, stored]
    split
    · rw [if_pos (by omega)]
    · rw [if_neg (by omega), (exactly _).1]
      congr 2
      omega

theorem at_of_key (same : left.key space = right.key space) (side : End)
    (edgeType : String) (vid : Int) : side.at edgeType vid left = side.at edgeType vid right := by
  obtain ⟨src, type, dst, -⟩ := edgeKey_inj.mp same
  rw [End.at, End.at, decide_eq_decide]
  cases side <;> simp [End.vid, src, type, dst]

theorem degree_erase (kv : KV) (kind : key.kind space = some "edge") (counts : EdgeData → Bool) :
    degree space kv counts = degree space (kv.erase key) counts + if (kv.get key).any (assertsEdge counts) then 1 else 0 := by
  rw [degree, Table.count_erase kv key]
  simp [degree, kind]

theorem degree_insert (kv : KV) (kind : key.kind space = some "edge") (value : Val)
    (counts : EdgeData → Bool) : degree space (kv.insert key value) counts =
      degree space (kv.erase key) counts + if assertsEdge counts value then 1 else 0 := by
  rw [degree, Table.count_insert]
  simp [degree, kind]

theorem degree_edgePair (asserted : edge.isInferred = false) (lands : Lands space kv edge) (side : End)
    (edgeType : String) (vid : Int) :
    (degree space (kv.putAll (edgePair space edge)) (side.at edgeType vid) : Int) = degree space kv (side.at edgeType vid) +
      if side.at edgeType vid edge then (if (kv.get (edge.key space)).any Val.isAsserted then 0 else 1) else 0 := by
  have reverse : degree space (kv.putAll (edgePair space edge)) (side.at edgeType vid) =
      degree space (kv.insert (edge.key space) (.edge edge)) (side.at edgeType vid) := by
    refine degree_congr (fun key kind => ?_) _
    have apart : key ≠ edge.inKey space := by
      rintro rfl
      simp at kind
    simp [edgePair, apart]
  have counts : assertsEdge (side.at edgeType vid) (.edge edge) = side.at edgeType vid edge := by
    simp [assertsEdge, asserted]
  rw [reverse, degree_insert kv (kind_edgeKey space edge), degree_erase kv (kind_edgeKey space edge), counts]
  cases found : kv.get (edge.key space) with
  | none => by_cases here : side.at edgeType vid edge = true <;> simp [here]
  | some value =>
    obtain ⟨old, rfl, same⟩ := lands value found
    have alike := at_of_key same side edgeType vid
    by_cases here : side.at edgeType vid edge = true <;> by_cases inferred : old.isInferred = true <;>
      simp [assertsEdge, Val.isAsserted, alike, here, inferred]

end ByoriDB.Executor
