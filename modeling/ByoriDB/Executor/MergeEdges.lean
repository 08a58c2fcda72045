import ByoriDB.Executor.Batch
import ByoriDB.Executor.Declared
import Mathlib.Data.List.Perm.Subperm

namespace ByoriDB.Executor

open List Data Program Store ByoriDB.Graph

variable {space : String} {put : Key × Val}

section

variable (space : String) (indexes : List IndexDef)

section

variable (kv : KV) (edge : EdgeData)

def retiredKeys : List Key := edgeEntries indexes edge ++ [edge.key space, edge.inKey space]

def retired : KV := kv.eraseAll (retiredKeys space indexes edge)

def landing : EdgeData :=
  match kv.get (edge.key space) with
  | some (.edge existing) => combineEdges existing edge
  | _ => edge

/-- The index entries of the edge that is already there. -/
def staleEntries : List Key :=
  match kv.get (edge.key space) with
  | some (.edge existing) => edgeEntries indexes existing
  | _ => []

def edgePuts : List (Key × Val) :=
  edgePair space edge ++ (edgeEntries indexes edge).map fun key => (key, .empty)

def landingDeletes : List Key :=
  (staleEntries space indexes kv edge).filter fun key =>
    !((edgePuts space indexes (landing space kv edge)).map Prod.fst).contains key

def landed : KV :=
  (kv.putAll (edgePuts space indexes (landing space kv edge))).eraseAll (landingDeletes space indexes kv edge)

end

/-- The store with a list of edges moved from one vertex to another. -/
def movedEdges (winner loser : Int) (kv : KV) (edges : List EdgeData) : KV :=
  (edges.map (moveEnds loser winner)).foldl (landed space indexes) (edges.foldl (retired space indexes) kv)

end

@[simp] theorem isEntity_vertex : (Key.vertex space vid).isEntity = true := by
  simp [Key.vertex, Key.isEntity]

@[simp] theorem isEntity_edge (space : String) (edge : EdgeData) : (edge.key space).isEntity = true := by
  simp [EdgeData.key, edgeData, Key.isEntity]

@[simp] theorem isEntity_inEdge (space : String) (edge : EdgeData) : (edge.inKey space).isEntity = false := by
  simp [EdgeData.inKey, inEdgeData, Key.isEntity]

@[simp] theorem isEntity_dirty : (inferenceDirty space).isEntity = false := rfl

theorem isEntity_of_region (inside : region space key = some part) : key.isEntity = false := by
  cases entity : key.isEntity with
  | false => rfl
  | true =>
    rw [region_entity entity] at inside
    cases inside

@[simp] theorem touches_vertex : Touches space (.vertex space vid) :=
  .inr (.inl (by simp))

@[simp] theorem touches_edge (space : String) (edge : EdgeData) : Touches space (edge.key space) :=
  .inr (.inl (by simp))

@[simp] theorem touches_inEdge (space : String) (edge : EdgeData) : Touches space (edge.inKey space) :=
  .inr (.inl (by simp))

@[simp] theorem touches_dirty : Touches space (inferenceDirty space) := .inr (.inr rfl)

theorem touches_index (inside : region space key = some .index) : Touches space key := .inl (by simp [inside])

theorem touches_view (inside : region space key = some .view) : Touches space key := .inl (by simp [inside])

theorem ne_dirty_of_region (inside : region space key = some part) : inferenceDirty space ≠ key := by
  rintro rfl
  simp at inside

@[simp] theorem dirty_ne_edge (space : String) (edge : EdgeData) : inferenceDirty space ≠ edge.key space := by
  intro same
  simpa using congrArg (Key.kind space) same

@[simp] theorem dirty_ne_inEdge (space : String) (edge : EdgeData) : inferenceDirty space ≠ edge.inKey space := by
  intro same
  simpa using congrArg (Key.kind space) same

theorem decodeQueryEdge_key
    (decoded : decodeQueryEdge (edgeData space src edgeType dst rank) value = .ok edge) :
    value = .edge edge ∧ edge.key space = edgeData space src edgeType dst rank := by
  obtain ⟨rfl, owner, same | same⟩ := decodeQueryEdge_ok decoded
  · obtain ⟨_, rfl, rfl, rfl, rfl⟩ := same
    exact ⟨rfl, rfl⟩
  · simp [edgeData, inEdgeData] at same

/-- Edges that agree have the same properties, so both are marked or none is. -/
theorem same_isInferred {left right : EdgeData} (same : left.same right = true) : left.isInferred = right.isInferred := by
  simp only [EdgeData.same, Bool.and_eq_true, Props.same, beq_iff_eq, all_eq_true] at same
  obtain ⟨-, length, found⟩ := same
  have stored : ∀ (props : Props) name, name ∈ props.toList.map Prod.fst ↔ (props.get name).isSome = true := by
    intro props name
    simp [mem_toList, Option.isSome_iff_exists]
  have within : left.properties.toList.map Prod.fst ⊆ right.properties.toList.map Prod.fst := by
    intro name mem
    obtain ⟨entry, listed, rfl⟩ := mem_map.mp mem
    rw [stored]
    have kept := found entry listed
    cases get : right.properties.get entry.1 with
    | none => simp [get] at kept
    | some value => rfl
  have distinct : (left.properties.toList.map Prod.fst).Nodup := by
    simpa [select_toList] using left.properties.nodup_select fun _ => true
  have equal := (subperm_of_subset distinct within).perm_of_length_le (by simp [length])
  rw [EdgeData.isInferred, EdgeData.isInferred, Bool.eq_iff_iff, ← stored, ← stored]
  exact equal.mem_iff

/-- The edge belongs under this key, where the store has it as well. -/
structure StoredAs (space : String) (kv : KV) (key : Key) (edge : EdgeData) : Prop where
  own : key = edge.key space
  forward : ∃ forward : EdgeData, kv.get key = some (.edge forward) ∧ forward.isInferred = edge.isInferred
  exact : Mirrored space kv → kv.get key = some (.edge edge)

/-- The edges found at a vertex: they are stored, and every entry that was looked
at is among them. -/
structure Incident (space : String) (kv : KV) (vid : Int) (looked : Key × Val → Prop)
    (edges : Table Key EdgeData) : Prop where
  stored : ∀ key edge, edges.get key = some edge → StoredAs space kv key edge
  ends : ∀ key edge, edges.get key = some edge → edge.srcVid = vid ∨ edge.dstVid = vid
  complete : ∀ entry, looked entry → ∃ edge, decodeQueryEdge entry.1 entry.2 = .ok edge ∧
    (edges.get (edge.key space)).isSome = true

/-- The entries that are looked at: the edges from a vertex, and the reverse
entries of the edges to it. -/
def AtVertex (space : String) (kv : KV) (vid : Int) (entry : Key × Val) : Prop :=
  kv.get entry.1 = some entry.2 ∧ ((edgeDataSrcPrefix space vid).covers entry.1 = true ∨
    (inEdgeDataDstPrefix space vid).covers entry.1 = true)

theorem AtVertex.decoded (at_ : AtVertex space kv vid entry)
    (decoded : decodeQueryEdge entry.1 entry.2 = .ok edge) : (edge.srcVid = vid ∨
      edge.dstVid = vid) ∧ (Mirrored space kv → kv.get (edge.key space) = some (.edge edge)) := by
  obtain ⟨found, covered⟩ := at_
  obtain ⟨same, owner, key⟩ := decodeQueryEdge_ok decoded
  rw [same] at found
  rcases covered with covered | covered
  · obtain ⟨rest, -, prefixed⟩ := covers_text.mp covered
    rw [prefixed] at key found
    rcases key with key | key
    · simp only [edgeData, cons_append, nil_append, Key.text.injEq, List.cons.injEq, Seg.word.injEq,
        Seg.num.injEq] at key
      obtain ⟨rfl, -, rfl, rfl⟩ := key
      exact ⟨.inl rfl, fun _ => found⟩
    · simp [inEdgeData] at key
  · obtain ⟨rest, -, prefixed⟩ := covers_text.mp covered
    rw [prefixed] at key found
    rcases key with key | key
    · simp [edgeData] at key
    · simp only [inEdgeData, cons_append, nil_append, Key.text.injEq, List.cons.injEq, Seg.word.injEq,
        Seg.num.injEq] at key
      obtain ⟨rfl, -, rfl, rfl⟩ := key
      refine ⟨.inr rfl, fun mirrored => ?_⟩
      rw [edge_key_eq, ← mirrored]
      exact found

theorem wp_confirmEdge (at_ : AtVertex space world.kv vid entry)
    (incident : Incident space world.kv vid looked edges) :
    (confirmEdge space edges entry).wp (handler env) (Mutates env space terms)
      (fun edges' world' => world' = world ∧
        Incident space world.kv vid (fun other => other = entry ∨ looked other) edges') world := by
  rw [confirmEdge, wp_bind, wp_ofExcept]
  intro edge decodedEntry
  obtain ⟨ends, exactly⟩ := at_.decoded decodedEntry
  rw [wp_bind, wp_get]
  refine ⟨.look rfl, ?_⟩
  cases stored : world.kv.get (edge.key space) with
  | none => trivial
  | some forward =>
    rw [wp_bind, wp_ofExcept]
    intro forwardEdge decoded
    obtain ⟨rfl, -⟩ := decodeQueryEdge_key decoded
    split
    · trivial
    · rename_i agrees
      have same : forwardEdge.same edge = true := by simpa using agrees
      refine ⟨rfl, ?_, ?_, ?_⟩
      · intro key found hit
        rw [get_insert] at hit
        split at hit
        · rename_i here
          cases hit
          subst here
          exact ⟨rfl, ⟨forwardEdge, stored, same_isInferred same⟩, exactly⟩
        · exact incident.stored key found hit
      · intro key found hit
        rw [get_insert] at hit
        split at hit
        · cases hit
          exact ends
        · exact incident.ends key found hit
      · rintro other (rfl | before)
        · exact ⟨edge, decodedEntry, by simp⟩
        · obtain ⟨old, oldDecoded, present⟩ := incident.complete other before
          refine ⟨old, oldDecoded, ?_⟩
          rw [get_insert]
          split
          · rfl
          · exact present

theorem wp_confirmEdges (vid : Int) (looked : Key × Val → Prop) (entries : List (Key × Val))
    (at_ : ∀ entry ∈ entries, AtVertex space world.kv vid entry)
    (incident : Incident space world.kv vid looked edges) :
    (entries.foldlM (confirmEdge space) edges).wp (handler env) (Mutates env space terms)
      (fun edges' world' => world' = world ∧
        Incident space world.kv vid (fun entry => entry ∈ entries ∨ looked entry) edges') world := by
  induction entries generalizing edges looked with
  | nil => exact ⟨rfl, by simpa using incident⟩
  | cons entry rest ih =>
    rw [forall_mem_cons] at at_
    refine wp_seq (wp_confirmEdge at_.1 incident) ?_
    rintro edges' _ ⟨rfl, found⟩
    refine wp_imp (ih _ at_.2 found) ?_
    rintro final _ ⟨rfl, found'⟩
    refine ⟨rfl, found'.stored, found'.ends, fun other listed => found'.complete other ?_⟩
    rw [mem_cons] at listed
    tauto

theorem wp_incidentEdges (vid : Int) :
    (incidentEdges space vid).wp (handler env) (Mutates env space terms) (fun edges world' =>
      world' = world ∧ Incident space world.kv vid (AtVertex space world.kv vid) edges) world := by
  rw [incidentEdges, wp_bind, wp_scanPrefix]
  refine ⟨.look rfl, wp_seq (wp_confirmEdges vid (fun _ => False) _ ?_ ?_) ?_⟩
  · intro entry mem
    obtain ⟨found, covered⟩ := mem_scan.mp mem
    exact ⟨found, .inl covered⟩
  · exact ⟨by simp, by simp, fun _ impossible => impossible.elim⟩
  rintro edges world ⟨rfl, outgoing⟩
  refine ⟨.look rfl, wp_imp (wp_confirmEdges vid _ _ ?_ outgoing) ?_⟩
  · intro entry mem
    obtain ⟨found, covered⟩ := mem_scan.mp mem
    exact ⟨found, .inr covered⟩
  rintro final _ ⟨rfl, both⟩
  refine ⟨rfl, both.stored, both.ends, ?_⟩
  rintro entry ⟨found, covered | covered⟩
  · exact both.complete entry (.inr (.inl (mem_scan.mpr ⟨found, covered⟩)))
  · exact both.complete entry (.inl (mem_scan.mpr ⟨found, covered⟩))

theorem wp_edgeVersions : (edgeVersions edge key payload).wp (handler env) (Mutates env space terms)
      (fun versions world' => Stamped env world world' versions ∧
        versions.map VersionRow.change = if edge.isInferred then [] else [(key, payload)]) world := by
  rw [edgeVersions]
  split
  · exact ⟨.nil env world, rfl⟩
  · exact wp_buildVersions _

section

variable {indexes : List IndexDef} {edge : EdgeData}

theorem mem_retiredKeys (entity : key.isEntity = true) :
    key ∈ retiredKeys space indexes edge ↔ key = edge.key space := by
  have notIndex : key ∉ edgeEntries indexes edge := by
    intro mem
    rw [isEntity_of_region (region_edgeEntries space mem)] at entity
    cases entity
  have notReverse : key ≠ edge.inKey space := by
    rintro rfl
    simp at entity
  simp [retiredKeys, notIndex, notReverse]

theorem filter_isEntity_entries (edge : EdgeData) : (edgeEntries indexes edge).filter Key.isEntity = [] := by
  rw [filter_eq_nil_iff]
  intro key mem
  simp [isEntity_of_region (region_edgeEntries "" mem)]

theorem filter_retiredKeys : (retiredKeys space indexes edge).filter Key.isEntity = [edge.key space] := by
  rw [retiredKeys, filter_append, filter_isEntity_entries]
  simp

theorem touches_retiredKeys : ∀ key ∈ retiredKeys space indexes edge, Touches space key := by
  intro key mem
  simp only [retiredKeys, mem_append, mem_cons, not_mem_nil, or_false] at mem
  rcases mem with entry | rfl | rfl
  · exact touches_index (region_edgeEntries space entry)
  · simp
  · simp

theorem dirty_not_retired : inferenceDirty space ∉ retiredKeys space indexes edge := by
  simp only [retiredKeys, mem_append, mem_cons, not_mem_nil, or_false, dirty_ne_edge, dirty_ne_inEdge, or_self]
  exact fun mem => ne_dirty_of_region (region_edgeEntries space mem) rfl

theorem paired_retiredKeys (t : Triple) (rank : Int) :
    t.inKey space rank ∈ retiredKeys space indexes edge ↔ t.key space rank ∈ retiredKeys space indexes edge := by
  have entries : ∀ {key : Key}, EdgeKey space key → key ∉ edgeEntries indexes edge := by
    intro key isEdge mem
    exact not_edgeKey_of_region (region_edgeEntries space mem) isEdge
  have forward := entries (.inl (t.kind_key space rank))
  have reverse := entries (.inr (t.kind_inKey space rank))
  simp [retiredKeys, forward, reverse, edge_key_eq, edge_inKey_eq]

/-- An edge is stored under its key, asserted if this one is. -/
def Held (space : String) (kv : KV) (edge : EdgeData) : Prop :=
  ∃ forward : EdgeData, kv.get (edge.key space) = some (.edge forward) ∧ forward.isInferred = edge.isInferred

theorem wp_retireEdge (declared : indexesAt env ctx space world.kv .edge = .ok indexes)
    (held : Held space world.kv edge) (settled : Settled env space terms world) :
    (retireEdge ctx space (edge.key space) edge).wp (handler env) (Mutates env space terms)
      (fun _ world' => world'.kv = retired space indexes world.kv edge) world := by
  obtain ⟨forward, found, marks⟩ := held
  refine wp_seq (wp_edgeIndexKeys declared) ?_
  rintro _ _ ⟨rfl, rfl⟩
  refine wp_seq wp_edgeVersions ?_
  rintro versions world' ⟨stamped, changes⟩
  have touched : ∀ key ∈ ([] : List (Key × Val)).map Prod.fst ++ retiredKeys space indexes edge, Touches space key :=
    touches_retiredKeys
  have fence : terms.closed → Fenced space ((world'.kv.putAll []).eraseAll (retiredKeys space indexes edge)) := by
    intro assumed
    rw [stamped.kv]
    exact (settled.fenced assumed).batch dirty_not_retired touched (by simp)
  have mirrored : Mirrored space world'.kv →
      Mirrored space ((world'.kv.putAll []).eraseAll (retiredKeys space indexes edge)) :=
    Mirrored.batch [] [] (by simp) paired_retiredKeys
  refine ⟨.record ?_, ?_⟩
  · by_cases inferred : edge.isInferred = true
    · have none : versions = [] := by simpa [inferred] using changes
      subst none
      have isInferred : (world'.kv.get (edge.key space)).any Val.isInferred = true := by
        rw [stamped.kv, found]
        simpa [Val.isInferred, inferred] using marks
      refine .of_silent touched dirty_not_retired fence ⟨_, stamped, settled.ahead⟩ ?_ ?_ mirrored (by simp)
      · intro key entity
        rw [factWrites_batchApply]
        split
        · rfl
        · rename_i unheld
          rw [filter_nil, filter_nil, map_nil, nil_append, map_eq_nil_iff, filter_eq_nil_iff]
          intro deleted mem
          rw [decide_eq_true_eq]
          rintro rfl
          rw [(mem_retiredKeys entity).mp mem] at unheld
          exact unheld isInferred
      · intro key entity
        rw [factAt, putAll_nil, get_eraseAll]
        split
        · rename_i mem
          rw [(mem_retiredKeys entity).mp mem, factAt, stamped.kv, found]
          simp [Option.filter, Val.isFact, Val.isAsserted, marks, inferred]
        · rfl
    · refine .of_facts touched dirty_not_retired (fun assumed => .inl (fence assumed)) ⟨_, stamped, settled.ahead⟩
        (filter_nil ..) (by simp) filter_retiredKeys ?_ ?_ mirrored (by simp)
      · simp [stamped.kv, found, Val.isInferred, marks, inferred]
      · intro key
        rw [changes, if_neg inferred]
        by_cases same : edge.key space = key <;> simp [same]
  · change (world'.kv.putAll []).eraseAll (retiredKeys space indexes edge) = _
    rw [stamped.kv]
    rfl

end

theorem get_fillProps_of_none (own : Props) (missing : others.get name = none) :
    (fillProps own others).get name = own.get name := by
  have unlisted : ∀ entry ∈ others.toList, entry.1 ≠ name := by
    rintro ⟨key, value⟩ mem rfl
    rw [mem_toList.mp mem] at missing
    cases missing
  rw [fillProps]
  generalize others.toList = entries at unlisted
  induction entries generalizing own with
  | nil => rfl
  | cons entry rest ih =>
    rw [forall_mem_cons] at unlisted
    rw [foldl_cons, ih _ unlisted.2]
    split
    · rfl
    · rw [get_insert, if_neg fun same => unlisted.1 same.symm]

theorem isInferred_combineEdges (existing incoming : EdgeData) :
    (combineEdges existing incoming).isInferred = (existing.isInferred && incoming.isInferred) := by
  unfold combineEdges
  by_cases new : incoming.isInferred = true
  · simp [new]
  · by_cases old : existing.isInferred = true
    · simp [new, old]
    · have missing : incoming.properties.get inferredMarker = none := by simpa [EdgeData.isInferred] using new
      simp only [Bool.not_eq_true] at old new
      simp only [old, new, Bool.not_false, Bool.true_or, if_true, Bool.false_and, Bool.false_eq_true, if_false]
      rw [EdgeData.isInferred, get_fillProps_of_none _ missing]
      exact old

theorem edgeKey_inj {left right : EdgeData} : left.key space = right.key space ↔
    left.srcVid = right.srcVid ∧ left.edgeType = right.edgeType ∧ left.dstVid = right.dstVid ∧
      left.ranking = right.ranking := by
  simp [EdgeData.key, edgeData]

theorem key_combineEdges (same : existing.key space = incoming.key space) :
    (combineEdges existing incoming).key space = incoming.key space := by
  unfold combineEdges
  split
  · split
    · exact same
    · exact same
  · rfl

/-- What is stored where an edge lands belongs there. -/
def Lands (space : String) (kv : KV) (edge : EdgeData) : Prop :=
  ∀ value, kv.get (edge.key space) = some value → ∃ existing, value = .edge existing ∧ existing.key space = edge.key space

section

variable {indexes : List IndexDef} {edge : EdgeData}

theorem key_landing (lands : Lands space kv edge) : (landing space kv edge).key space = edge.key space := by
  unfold landing
  cases found : kv.get (edge.key space) with
  | none => rfl
  | some value =>
    obtain ⟨existing, rfl, same⟩ := lands value found
    exact key_combineEdges same

/-- An asserted edge stays asserted, and an inferred one never takes the place of
an asserted one. -/
theorem isInferred_landing (lands : Lands space kv edge) :
    (landing space kv edge).isInferred = (edge.isInferred && (factAt kv (edge.key space)).isNone) := by
  unfold landing factAt
  cases found : kv.get (edge.key space) with
  | none => simp
  | some value =>
    obtain ⟨existing, rfl, -⟩ := lands value found
    rw [isInferred_combineEdges, Bool.and_comm]
    cases marks : existing.isInferred <;> simp [Option.filter, Val.isFact, Val.isAsserted, marks]

theorem wp_mergeWithExisting (declared : indexesAt env ctx space world.kv .edge = .ok indexes) :
    (mergeWithExisting ctx space edge).wp (handler env) (Mutates env space terms)
      (fun out world' => world' = world ∧ Lands space world.kv edge ∧
        out = (landing space world.kv edge, staleEntries space indexes world.kv edge)) world := by
  rw [mergeWithExisting, wp_bind, wp_get]
  refine ⟨.look rfl, ?_⟩
  unfold landing staleEntries
  cases found : world.kv.get (edge.key space) with
  | none => exact ⟨rfl, by simp [Lands, found], rfl⟩
  | some value =>
    rw [wp_bind, wp_ofExcept]
    intro existing decoded
    obtain ⟨rfl, sameKey⟩ := decodeQueryEdge_key decoded
    refine wp_seq (wp_edgeIndexKeys declared) ?_
    rintro _ _ ⟨rfl, rfl⟩
    refine ⟨rfl, ?_, rfl⟩
    intro value stored
    rw [found, Option.some.injEq] at stored
    exact ⟨existing, stored.symm, sameKey⟩

theorem filter_edgePuts : ((edgePuts space indexes edge).filter fun put => put.1.isEntity) = [(edge.key space, .edge edge)] := by
  have none : (((edgeEntries indexes edge).map fun key => (key, Val.empty)).filter fun put => put.1.isEntity) = [] := by
    rw [filter_map, map_eq_nil_iff]
    exact filter_isEntity_entries edge
  simp [edgePuts, edgePair, none]

theorem mem_edgePuts (mem : put ∈ edgePuts space indexes edge) : put ∈ edgePair space edge ∨ EdgeEntry put.1 := by
  rcases mem_append.mp mem with pair | entry
  · exact .inl pair
  · obtain ⟨key, listed, rfl⟩ := mem_map.mp entry
    exact .inr (edgeEntry_edgeEntries listed)

section

variable (mem : put ∈ edgePair space edge)

include mem

theorem mem_edgePair :
    put.2 = .edge edge ∧ (put.1 = edge.key space ∨ put.1 = edge.inKey space) := by
  simp only [edgePair, mem_cons, not_mem_nil, or_false] at mem
  rcases mem with rfl | rfl
  · exact ⟨rfl, .inl rfl⟩
  · exact ⟨rfl, .inr rfl⟩

theorem touches_edgePair : Touches space put.1 := by
  rcases (mem_edgePair mem).2 with same | same <;> simp [same]

theorem mentions_edgePair (mentions : Mentions space vid put.1) :
    vid = edge.srcVid ∨ vid = edge.dstVid := by
  rcases (mem_edgePair mem).2 with same | same <;> rw [same] at mentions
  · exact mentions_edgeData.mp mentions
  · exact mentions_inEdgeData.mp mentions

end

theorem touches_edgePuts : ∀ key ∈ (edgePuts space indexes edge).map Prod.fst, Touches space key := by
  intro key mem
  obtain ⟨put, listed, rfl⟩ := mem_map.mp mem
  rcases mem_edgePuts listed with pair | entry
  · exact touches_edgePair pair
  · exact touches_index (entry.region space)

theorem edgeEntry_landingDeletes (mem : key ∈ landingDeletes space indexes kv edge) : EdgeEntry key := by
  have stale := (mem_filter.mp mem).1
  unfold staleEntries at stale
  split at stale
  · exact edgeEntry_edgeEntries stale
  · cases stale

theorem region_landingDeletes (mem : key ∈ landingDeletes space indexes kv edge) : region space key = some .index :=
  (edgeEntry_landingDeletes mem).region space

theorem asserted_edgePuts (asserted : edge.isInferred = false) :
    ∀ put ∈ edgePuts space indexes edge, put.1.kind space = some "edge" → put.2.isAsserted = true := by
  intro put mem kind
  rcases mem_edgePuts mem with pair | entry
  · rw [(mem_edgePair pair).1]
    simp [Val.isAsserted, asserted]
  · exact absurd kind (kind_ne_of_region (entry.region space) rfl)

theorem mirrored_landed (mirrored : Mirrored space kv) : Mirrored space (landed space indexes kv edge) := by
  have shape : edgePuts space indexes (landing space kv edge) = [landing space kv edge].flatMap (edgePair space) ++
      (edgeEntries indexes (landing space kv edge)).map fun key => (key, .empty) := by simp [edgePuts]
  rw [landed, shape]
  refine Mirrored.batch _ _ ?_ ?_ mirrored
  · intro put mem
    obtain ⟨key, listed, rfl⟩ := mem_map.mp mem
    exact not_edgeKey_of_region (region_edgeEntries space listed)
  · intro t rank
    have absent : ∀ {key : Key}, EdgeKey space key → key ∉ landingDeletes space indexes kv edge :=
      fun isEdge mem => not_edgeKey_of_region (region_landingDeletes mem) isEdge
    have forward := absent (.inl (t.kind_key space rank))
    have reverse := absent (.inr (t.kind_inKey space rank))
    simp [forward, reverse]

end

theorem touches_append {keys others : List Key} (first : ∀ key ∈ keys, Touches space key)
    (rest : ∀ key ∈ others, Touches space key) : ∀ key ∈ keys ++ others, Touches space key := by
  intro key mem
  rcases mem_append.mp mem with mem | mem
  · exact first key mem
  · exact rest key mem

theorem records_landed (lands : Lands space world.kv edge) (settled : Settled env space terms world)
    (marked : terms.closed → Dirty space world.kv ∨ edge.isInferred = false)
    (roots : terms.rooted → Root space world.kv edge.srcVid ∧ Root space world.kv edge.dstVid)
    (stamped : Stamped env world world' versions)
    (changes : versions.map VersionRow.change = if (landing space world.kv edge).isInferred then []
      else [((landing space world.kv edge).key space, .edge (landing space world.kv edge))]) :
    Records env space terms world' (edgePuts space indexes (landing space world.kv edge))
      (landingDeletes space indexes world.kv edge) versions := by
  have deletes : ∀ key ∈ landingDeletes space indexes world.kv edge, region space key = some .index :=
    fun key mem => region_landingDeletes mem
  have kept : ∀ key : Key, key.isEntity = true → key ∉ landingDeletes space indexes world.kv edge := by
    intro key entity mem
    rw [isEntity_of_region (deletes key mem)] at entity
    cases entity
  have touched : ∀ key ∈ (edgePuts space indexes (landing space world.kv edge)).map Prod.fst ++
      landingDeletes space indexes world.kv edge, Touches space key :=
    touches_append touches_edgePuts fun key mem => touches_index (deletes key mem)
  have marker : inferenceDirty space ∉ landingDeletes space indexes world.kv edge :=
    fun mem => ne_dirty_of_region (deletes _ mem) rfl
  have fence : terms.closed → Fenced space ((world'.kv.putAll (edgePuts space indexes
      (landing space world.kv edge))).eraseAll (landingDeletes space indexes world.kv edge)) := by
    intro assumed
    rw [stamped.kv]
    rcases marked assumed with isMarked | asserted
    · exact .inl (dirty_batch marker (.inl isMarked))
    · refine (settled.fenced assumed).batch marker touched (asserted_edgePuts ?_)
      rw [isInferred_landing lands, asserted, Bool.false_and]
  have mirrored : Mirrored space world'.kv → Mirrored space ((world'.kv.putAll (edgePuts space indexes
      (landing space world.kv edge))).eraseAll (landingDeletes space indexes world.kv edge)) := by
    rw [stamped.kv]
    exact mirrored_landed
  have names : terms.rooted → ∀ put ∈ edgePuts space indexes (landing space world.kv edge), ∀ vid,
      Mentions space vid put.1 → Root space world'.kv vid := by
    intro assumed put mem vid mentions
    rw [stamped.kv]
    rcases mem_edgePuts mem with pair | entry
    · obtain ⟨sameSrc, -, sameDst, -⟩ := edgeKey_inj.mp (key_landing lands)
      have ends := mentions_edgePair pair mentions
      rw [sameSrc, sameDst] at ends
      rcases ends with rfl | rfl
      · exact (roots assumed).1
      · exact (roots assumed).2
    · exact absurd mentions (not_mentions_of_region (entry.region space) (by simp))
  by_cases inferred : (landing space world.kv edge).isInferred = true
  · have none : versions = [] := by simpa [inferred] using changes
    subst none
    have isFact : (Val.edge (landing space world.kv edge)).isFact = false := by
      simp [Val.isFact, Val.isAsserted, inferred]
    have putsAt : ∀ key : Key, key.isEntity = true →
        ((edgePuts space indexes (landing space world.kv edge)).filter fun put => decide (put.1 = key)) =
          [((landing space world.kv edge).key space, Val.edge (landing space world.kv edge))].filter
            fun put => decide (put.1 = key) := by
      intro key entity
      refine filter_eq_of_selects filter_edgePuts _ ?_
      intro put same
      rw [decide_eq_true_eq] at same
      rw [same, entity]
    refine .of_silent touched marker fence ⟨_, stamped, settled.ahead⟩ ?_ ?_ mirrored names
    · intro key entity
      have none : ((landingDeletes space indexes world.kv edge).filter fun deleted => decide (deleted = key)) = [] := by
        rw [filter_eq_nil_iff]
        intro deleted mem
        rw [decide_eq_true_eq]
        rintro rfl
        exact kept deleted entity mem
      rw [factWrites_batchApply, putsAt key entity, none]
      by_cases same : (landing space world.kv edge).key space = key <;> simp [same, isFact]
    · intro key entity
      rw [factAt, get_eraseAll, if_neg (kept key entity), get_putAll, lastPut_eq_getLast?, putsAt key entity]
      by_cases same : (landing space world.kv edge).key space = key
      · have before : factAt world'.kv key = Option.none := by
          rw [isInferred_landing lands, Bool.and_eq_true, Option.isNone_iff_eq_none] at inferred
          rw [stamped.kv, ← same, key_landing lands, inferred.2]
        simp [same, before, Option.filter, isFact]
      · simp [same, factAt]
  · have noneRetired : (landingDeletes space indexes world.kv edge).filter Key.isEntity = [] := by
      rw [filter_eq_nil_iff]
      intro key mem entity
      exact kept key entity mem
    refine .of_facts touched marker (fun assumed => .inl (fence assumed)) ⟨_, stamped, settled.ahead⟩
      filter_edgePuts ?_ noneRetired (by simp) ?_ mirrored names
    · simpa [Val.isFact, Val.isAsserted] using inferred
    · intro key
      rw [changes, if_neg inferred]
      simp

theorem wp_writeMergedEdge (declared : indexesAt env ctx space world.kv .edge = .ok indexes)
    (settled : Settled env space terms world)
    (marked : terms.closed → Dirty space world.kv ∨ edge.isInferred = false)
    (roots : terms.rooted → Root space world.kv edge.srcVid ∧ Root space world.kv edge.dstVid) :
    (writeMergedEdge ctx space edge).wp (handler env) (Mutates env space terms) (fun _ world' =>
      Lands space world.kv edge ∧ world'.kv = landed space indexes world.kv edge) world := by
  refine wp_seq (wp_mergeWithExisting declared) ?_
  rintro _ world ⟨rfl, lands, rfl⟩
  refine wp_seq (wp_edgeIndexKeys declared) ?_
  rintro _ world ⟨rfl, rfl⟩
  refine wp_seq wp_edgeVersions ?_
  rintro versions world' ⟨stamped, changes⟩
  have sameKey := key_landing lands
  rw [← sameKey] at changes
  rw [wp_batchApply, ← sameKey]
  change Mutates env space terms world' (.kv (.batchApply (edgePuts space indexes (landing space world.kv edge))
    (landingDeletes space indexes world.kv edge) versions)) ∧ _
  refine ⟨.record (records_landed lands settled marked roots stamped changes), lands, ?_⟩
  rw [landed, ← stamped.kv]
  rfl

structure Merging (env : Env) (space : String) (terms : Terms)
    (ctx : Ctx) (indexes tagIndexes : List IndexDef) (world : World) : Prop where
  settled : Settled env space terms world
  declared : indexesAt env ctx space world.kv .edge = .ok indexes
  declaredTags : indexesAt env ctx space world.kv .tag = .ok tagIndexes

theorem Mutates.merging {indexes : List IndexDef} (world : World) (op : Op Key Val)
    (mutates : Mutates env space terms world op) (merging : Merging env space terms ctx indexes tagIndexes world) :
    Merging env space terms ctx indexes tagIndexes (handler env op world).2 :=
  ⟨mutates.settled world op merging.settled, mutates.indexes ctx .edge world op merging.declared,
    mutates.indexes ctx .tag world op merging.declaredTags⟩

section

variable {indexes : List IndexDef}

theorem get_retired_of_ne (entity : key.isEntity = true) (apart : key ≠ edge.key space) :
    (retired space indexes kv edge).get key = kv.get key := by
  rw [retired, get_eraseAll, if_neg]
  rw [mem_retiredKeys entity]
  exact apart

theorem wp_retireEdges (edges : List (Key × EdgeData)) (own : ∀ entry ∈ edges, entry.1 = entry.2.key space)
    (distinct : (edges.map Prod.fst).Nodup) (held : ∀ entry ∈ edges, Held space world.kv entry.2)
    (merging : Merging env space terms ctx indexes tagIndexes world) :
    (edges.forM fun entry => retireEdge ctx space entry.1 entry.2).wp (handler env) (Mutates env space terms)
      (fun _ world' => world'.kv = (edges.map Prod.snd).foldl (retired space indexes) world.kv) world := by
  induction edges generalizing world with
  | nil => rfl
  | cons entry rest ih =>
    rw [forall_mem_cons] at own held
    rw [map_cons, nodup_cons] at distinct
    rw [forM_eq_forM, forM_cons, own.1]
    refine wp_seq_with Mutates.merging merging (wp_retireEdge merging.declared held.1 merging.settled) ?_
    intro _ world' left merging'
    rw [map_cons, foldl_cons, ← left]
    refine ih own.2 distinct.2 ?_ merging'
    intro other mem
    obtain ⟨forward, found, marks⟩ := held.2 other mem
    refine ⟨forward, ?_, marks⟩
    rw [left, get_retired_of_ne (by simp), found]
    rw [← own.2 other mem, ← own.1]
    intro same
    exact distinct.1 (same ▸ mem_map_of_mem mem)

/-- Where the ends of a list of edges may be named, and the marker is set or the
edges are asserted. -/
structure Movable (space : String) (terms : Terms) (edges : List EdgeData) (world : World) : Prop where
  marked : terms.closed → Dirty space world.kv ∨ ∀ edge ∈ edges, edge.isInferred = false
  roots : terms.rooted → ∀ edge ∈ edges, Root space world.kv edge.srcVid ∧ Root space world.kv edge.dstVid

theorem landed_root : Root space (landed space indexes kv edge) vid ↔ Root space kv vid := by
  have same : (landed space indexes kv edge).get (sameas space vid) = kv.get (sameas space vid) := by
    refine Content.get_batch ?_ ?_
    · intro mem
      exact not_touches_of_region (region_sameas space vid) (by simp) (by simp) (touches_edgePuts _ mem)
    · intro mem
      simpa using (region_landingDeletes mem : region space _ = _)
  rw [Root, Root, same]

theorem retired_root : Root space (retired space indexes kv edge) vid ↔ Root space kv vid := by
  have same : (retired space indexes kv edge).get (sameas space vid) = kv.get (sameas space vid) := by
    rw [retired, get_eraseAll, if_neg]
    intro mem
    exact not_touches_of_region (region_sameas space vid) (by simp) (by simp) (touches_retiredKeys _ mem)
  rw [Root, Root, same]

theorem retiredAll_root (edges : List EdgeData) :
    Root space (edges.foldl (retired space indexes) kv) vid ↔ Root space kv vid := by
  induction edges generalizing kv with
  | nil => rfl
  | cons edge rest ih => rw [foldl_cons, ih, retired_root]

theorem wp_writeMergedEdges (merging : Merging env space terms ctx indexes tagIndexes world)
    (movable : Movable space terms edges world) :
    (edges.forM fun edge => writeMergedEdge ctx space edge).wp (handler env) (Mutates env space terms)
      (fun _ world' => world'.kv = edges.foldl (landed space indexes) world.kv) world := by
  induction edges generalizing world with
  | nil => rfl
  | cons edge rest ih =>
    have marked : terms.closed → Dirty space world.kv ∨ edge.isInferred = false :=
      fun assumed => (movable.marked assumed).imp_right fun all => all edge mem_cons_self
    have keeps : ∀ (world : World) (op : Op Key Val), Mutates env space terms world op →
        (Merging env space terms ctx indexes tagIndexes world ∧
          (terms.closed → Dirty space world.kv ∨ ∀ other ∈ edge :: rest, other.isInferred = false)) →
        (Merging env space terms ctx indexes tagIndexes (handler env op world).2 ∧ (terms.closed →
          Dirty space (handler env op world).2.kv ∨ ∀ other ∈ edge :: rest, other.isInferred = false)) :=
      fun world op mutates both => ⟨mutates.merging world op both.1, fun assumed => (both.2 assumed).imp_left mutates.dirty⟩
    refine wp_seq_with keeps ⟨merging, movable.marked⟩
      (wp_writeMergedEdge merging.declared merging.settled marked fun assumed => movable.roots assumed edge mem_cons_self) ?_
    rintro _ world' ⟨-, left⟩ ⟨merging', marked'⟩
    rw [foldl_cons, ← left]
    refine ih merging' ⟨fun assumed => (marked' assumed).imp_right fun all other mem => all other (mem_cons_of_mem _ mem), ?_⟩
    intro assumed other mem
    rw [left, landed_root, landed_root]
    exact movable.roots assumed other (mem_cons_of_mem _ mem)

theorem mem_inTextOrder {edges : Table Key EdgeData} : entry ∈ inTextOrder edges ↔ edges.get entry.1 = some entry.2 :=
  (mem_insertionSort _).trans mem_toList

def Moves (space : String) (kv : KV) (vid : Int) (edges : List EdgeData) : Prop :=
  ∃ found : Table Key EdgeData, Incident space kv vid (AtVertex space kv vid) found ∧ edges = (inTextOrder found).map Prod.snd

theorem Moves.held (moves : Moves space kv vid edges) : ∀ edge ∈ edges, Held space kv edge := by
  obtain ⟨found, incident, rfl⟩ := moves
  intro edge mem
  obtain ⟨⟨key, _⟩, listed, rfl⟩ := mem_map.mp mem
  have stored := incident.stored key _ (mem_inTextOrder.mp listed)
  obtain ⟨forward, get, marks⟩ := stored.forward
  exact ⟨forward, stored.own ▸ get, marks⟩

theorem Held.roots (held : Held space kv edge) (canonical : Canonical space kv) :
    Root space kv edge.srcVid ∧ Root space kv edge.dstVid := by
  obtain ⟨forward, found, -⟩ := held
  exact ⟨canonical _ _ _ found .source, canonical _ _ _ found .target⟩

theorem Root.moveEnds (root : Root space kv winner)
    (ends : Root space kv edge.srcVid ∧ Root space kv edge.dstVid) : Root space kv
      (moveEnds loser winner edge).srcVid ∧ Root space kv (moveEnds loser winner edge).dstVid := by
  unfold ByoriDB.Executor.moveEnds
  dsimp only
  constructor
  · split
    · exact root
    · exact ends.1
  · split
    · exact root
    · exact ends.2

theorem wp_moveEdges (merging : Merging env space terms ctx indexes tagIndexes world)
    (canonical : terms.rooted → Canonical space world.kv)
    (root : terms.rooted → Root space world.kv winner) :
    (moveEdges ctx space winner loser).wp (handler env) (Mutates env space terms)
      (fun _ world' => ∃ edges, Moves space world.kv loser edges ∧
        world'.kv = movedEdges space indexes winner loser world.kv edges) world := by
  refine wp_seq (wp_incidentEdges loser) ?_
  rintro found world ⟨rfl, incident⟩
  have moves : Moves space world.kv loser ((inTextOrder found).map Prod.snd) := ⟨found, incident, rfl⟩
  have own : ∀ entry ∈ inTextOrder found, entry.1 = entry.2.key space :=
    fun entry mem => (incident.stored entry.1 entry.2 (mem_inTextOrder.mp mem)).own
  have distinct : ((inTextOrder found).map Prod.fst).Nodup := by
    rw [inTextOrder, ((perm_insertionSort _ found.toList).map Prod.fst).nodup_iff]
    simpa [select_toList] using found.nodup_select fun _ => true
  have keeps : ∀ (world : World) (op : Op Key Val), Mutates env space terms world op →
      (Merging env space terms ctx indexes tagIndexes world ∧
        (terms.closed → Dirty space world.kv ∨ ∀ edge ∈ (inTextOrder found).map Prod.snd, edge.isInferred = false)) →
      (Merging env space terms ctx indexes tagIndexes (handler env op world).2 ∧ (terms.closed →
        Dirty space (handler env op world).2.kv ∨ ∀ edge ∈ (inTextOrder found).map Prod.snd, edge.isInferred = false)) :=
    fun world op mutates both => ⟨mutates.merging world op both.1, fun assumed => (both.2 assumed).imp_left mutates.dirty⟩
  have marked : terms.closed → Dirty space world.kv ∨ ∀ edge ∈ (inTextOrder found).map Prod.snd, edge.isInferred = false := by
    intro assumed
    refine (merging.settled.fenced assumed).imp_right fun underived edge mem => ?_
    obtain ⟨forward, get, marks⟩ := moves.held edge mem
    have asserted := underived.edges (tripleOf edge) edge.ranking _ get
    rw [← marks]
    simpa [Val.isAsserted] using asserted
  refine wp_seq_with keeps ⟨merging, marked⟩
    (wp_retireEdges (inTextOrder found) own distinct (fun entry mem => moves.held _ (mem_map_of_mem mem)) merging) ?_
  rintro _ world' left ⟨merging', marked'⟩
  have shape : ((inTextOrder found).forM fun entry => writeMergedEdge ctx space (moveEnds loser winner entry.2)) =
      (((inTextOrder found).map Prod.snd).map (moveEnds loser winner)).forM fun edge => writeMergedEdge ctx space edge := by
    rw [forM_eq_forM, forM_eq_forM, forM_map, forM_map]
  rw [shape]
  refine wp_imp (wp_writeMergedEdges merging' ⟨?_, ?_⟩) ?_
  · refine fun assumed => (marked' assumed).imp_right fun all edge mem => ?_
    obtain ⟨edge, listed, rfl⟩ := mem_map.mp mem
    exact all edge listed
  · intro assumed edge mem
    obtain ⟨edge, listed, rfl⟩ := mem_map.mp mem
    rw [left, retiredAll_root, retiredAll_root]
    exact (root assumed).moveEnds ((moves.held edge listed).roots (canonical assumed))
  · rintro _ final final_eq
    exact ⟨_, moves, by rw [final_eq, left, movedEdges]⟩

end

end ByoriDB.Executor
