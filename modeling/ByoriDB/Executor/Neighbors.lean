import ByoriDB.Executor.Sound
import ByoriDB.Executor.Traversal

namespace ByoriDB.Executor

open List Data Program Store ByoriDB.Graph

variable {env : Env} {kv : KV} {world : World}

theorem answers_get (holds : post (world.kv.get key)) : Prog.Answers (handler env) world raise post (Store.get key) :=
  ⟨rfl, holds⟩

theorem answers_scanPrefix (holds : post (env.arrange (world.kv.select scope.covers))) :
    Prog.Answers (handler env) world raise post (scanPrefix scope) :=
  ⟨rfl, holds⟩

/-- The entry of an edge that a scan from its source, or from its target, reads. -/
def edgeEntry (space : String) (incoming : Bool) (edge : EdgeData) : Key × Val :=
  (if incoming then edge.inKey space else edge.key space, .edge edge)

/-- The end of an edge that is scanned from the other. -/
def farEnd (incoming : Bool) (edge : EdgeData) : Int := if incoming then edge.srcVid else edge.dstVid

/-- Where the edges from a vertex, or those to it, are scanned. -/
abbrev edgesAt (space : String) (incoming : Bool) (vid : Int) : Prefix :=
  if incoming then inEdgeDataDstPrefix space vid else edgeDataSrcPrefix space vid

/-- Every entry of the edges of a space, in either direction, is an edge under its own key. -/
structure Decodes (space : String) (kv : KV) : Prop where
  entry : ∀ incoming key value, key.kind space = some (if incoming then "in-edge" else "edge") →
    kv.get key = some value → ∃ edge, (key, value) = edgeEntry space incoming edge ∧ edge.edgeType ≠ ""

/-- The edges of a space can be read, and both copies of an edge agree. -/
structure Legible (space : String) (kv : KV) : Prop extends Decodes space kv where
  mirrored : Mirrored space kv

def HasEdge (space : String) (kv : KV) (edge : EdgeData) : Prop :=
  kv.get (edge.key space) = some (.edge edge)

def Leads (edge : EdgeData) (u v : Int) : EdgeDirection → Prop
  | .outgoing => edge.srcVid = u ∧ edge.dstVid = v
  | .incoming => edge.dstVid = u ∧ edge.srcVid = v
  | .undirected => (edge.srcVid = u ∧ edge.dstVid = v) ∨ (edge.dstVid = u ∧ edge.srcVid = v)

theorem leads_farEnd : Leads edge u v (if incoming then .incoming else .outgoing) ↔
    farEnd (!incoming) edge = u ∧ farEnd incoming edge = v := by
  cases incoming <;> rfl

def OfType (edgeTypes : List String) (edge : EdgeData) : Prop := edgeTypes = [] ∨ edge.edgeType ∈ edgeTypes

/-- A stored edge of one of the types leads from one vertex to the other. -/
def Allows (space : String) (kv : KV) (edgeTypes : List String) (direction : EdgeDirection) (u v : Int) : Prop :=
  ∃ edge, HasEdge space kv edge ∧ OfType edgeTypes edge ∧ Leads edge u v direction

theorem edgeTypeFromKey_edgeEntry :
    edgeTypeFromKey (edgeEntry space incoming edge).1 = some edge.edgeType := by
  cases incoming <;> rfl

theorem admitsType_edgeEntry :
    admitsType edgeTypes (edgeEntry space incoming edge).1 = true ↔ OfType edgeTypes edge := by
  simp [admitsType, edgeTypeFromKey_edgeEntry, OfType]

theorem decode_edgeEntry (incoming : Bool) (named : edge.edgeType ≠ "") :
    decodeQueryEdge (edgeEntry space incoming edge).1 (.edge edge) = .ok edge := by
  cases incoming <;>
    simp [edgeEntry, decodeQueryEdge, EdgeData.key, EdgeData.inKey, edgeData, inEdgeData, named]

theorem Mirrored.stored (mirrored : Mirrored space kv) (incoming : Bool) (edge : EdgeData) :
    kv.get (edgeEntry space incoming edge).1 = some (.edge edge) ↔ HasEdge space kv edge := by
  cases incoming with
  | false => rfl
  | true => simp [edgeEntry, edge_inKey_eq, mirrored (tripleOf edge), HasEdge, edge_key_eq]

def decodesEntry (space : String) (entry : Key × Val) : Bool :=
  match entry.2 with
  | .edge edge => edge.edgeType ≠ "" && (entry.1.kind space ≠ some "edge" || entry.1 = edge.key space) &&
    (entry.1.kind space ≠ some "in-edge" || entry.1 = edge.inKey space)
  | _ => entry.1.kind space ≠ some "edge" && entry.1.kind space ≠ some "in-edge"

theorem decodes_of_entries (entries : kv.toList.all (decodesEntry space) = true) : Decodes space kv := by
  refine ⟨fun incoming key value kind found => ?_⟩
  have checked := all_eq_true.mp entries _ (mem_toList.mpr found)
  unfold decodesEntry at checked
  split at checked
  · rename_i edge same
    cases incoming <;> simp [kind] at checked <;> exact ⟨edge, Prod.ext checked.2 same, checked.1⟩
  · cases incoming <;> simp [kind] at checked

theorem Decodes.triple (decodes : Decodes space kv) {t : Triple} (found : kv.get (t.key space rank) = some value) :
    ∃ edge, value = .edge edge ∧ t = tripleOf edge ∧ rank = edge.ranking ∧ edge.edgeType ≠ "" := by
  obtain ⟨edge, own, named⟩ := decodes.entry false _ _ (t.kind_key space rank) found
  obtain ⟨same, rfl⟩ : t.key space rank = edge.key space ∧ value = .edge edge := Prod.mk.inj own
  rw [edge_key_eq, Triple.key_inj] at same
  exact ⟨edge, rfl, same.1, same.2, named⟩

theorem Legible.named (legible : Legible space kv) (stored : HasEdge space kv edge) : edge.edgeType ≠ "" := by
  rw [HasEdge, edge_key_eq] at stored
  obtain ⟨edge', own, -, -, named⟩ := legible.triple stored
  cases own
  exact named

theorem kind_of_edgesAt (covered : (edgesAt space incoming vid).covers key = true) :
    key.kind space = some (if incoming then "in-edge" else "edge") := by
  cases incoming <;>
  · obtain ⟨rest, -, rfl⟩ := covers_text.mp covered
    exact kind_text space _ (.num vid) rest

theorem covers_edgeEntry : (edgesAt space incoming vid).covers (edgeEntry space incoming edge).1 = true ↔
    farEnd (!incoming) edge = vid := by
  rw [eq_comm (a := farEnd (!incoming) edge)]
  cases incoming <;> simp [edgesAt, edgeDataSrcPrefix, inEdgeDataDstPrefix, Prefix.covers, edgeEntry, EdgeData.key,
    EdgeData.inKey, edgeData, inEdgeData, farEnd]

/-- The entries that a scan from a vertex reads, in either direction. -/
theorem Legible.mem_edges (legible : Legible space kv) (incoming : Bool) :
    entry ∈ env.arrange (kv.select (edgesAt space incoming vid).covers) ↔
      ∃ edge, HasEdge space kv edge ∧ edge.edgeType ≠ "" ∧ farEnd (!incoming) edge = vid ∧
        entry = edgeEntry space incoming edge := by
  rw [mem_scan]
  constructor
  · rintro ⟨found, covered⟩
    obtain ⟨edge, own, named⟩ := legible.entry incoming _ _ (kind_of_edgesAt covered) found
    obtain rfl : entry = edgeEntry space incoming edge := own
    exact ⟨edge, (legible.mirrored.stored incoming edge).mp found, named, covers_edgeEntry.mp covered, rfl⟩
  · rintro ⟨edge, found, -, here, rfl⟩
    exact ⟨(legible.mirrored.stored incoming edge).mpr found, covers_edgeEntry.mpr here⟩

def storeEdges (space : String) (edges : List EdgeData) : KV :=
  edges.foldl (fun kv edge => (kv.insert (edge.key space) (.edge edge)).insert (edge.inKey space) (.edge edge)) .empty

theorem origin_storeEdges (found : (storeEdges space edges).get key = some value) :
    ∃ edge ∈ edges, value = .edge edge ∧ (key = edge.key space ∨ key = edge.inKey space) := by
  have listed : storeEdges space edges =
      .ofList (edges.flatMap fun edge => [(edge.key space, .edge edge), (edge.inKey space, .edge edge)]) := by
    simp [storeEdges, Table.ofList, Table.putAll, foldl_flatMap]
  obtain ⟨edge, mem, place⟩ := mem_flatMap.mp (mem_of_ofList (listed ▸ found))
  simp only [mem_cons, Prod.mk.injEq, not_mem_nil, or_false] at place
  exact ⟨edge, mem, place.elim And.right And.right, place.imp And.left And.left⟩

theorem mirrored_storeEdges : Mirrored space (storeEdges space edges) := by
  have grown : ∀ kv, Mirrored space kv →
      Mirrored space (edges.foldl (fun kv edge =>
        (kv.insert (edge.key space) (.edge edge)).insert (edge.inKey space) (.edge edge)) kv) := by
    induction edges with
    | nil => exact fun _ => id
    | cons edge rest ih =>
      refine fun kv mirrored => ih _ fun t rank => ?_
      have apart : t.inKey space rank ≠ (tripleOf edge).key space edge.ranking := (Triple.key_ne_inKey space _ _ _ _).symm
      simp [edge_key_eq, edge_inKey_eq, apart, mirrored t rank]
  exact grown .empty fun _ _ => by simp

theorem legible_storeEdges (named : ∀ edge ∈ edges, edge.edgeType ≠ "") : Legible space (storeEdges space edges) where
  entry incoming key value kind found := by
    obtain ⟨edge, mem, rfl, rfl | rfl⟩ := origin_storeEdges found <;> cases incoming
    · exact ⟨edge, rfl, named edge mem⟩
    · simp [EdgeData.key] at kind
    · simp [EdgeData.inKey] at kind
    · exact ⟨edge, rfl, named edge mem⟩
  mirrored := mirrored_storeEdges

theorem mem_of_storeEdges (stored : HasEdge space (storeEdges space edges) edge) : edge ∈ edges := by
  obtain ⟨edge', mem, same, -⟩ := origin_storeEdges stored
  cases same
  exact mem

theorem flat_storeEdges : Flat space (storeEdges space edges) := by
  have outside : ∀ {key : Key}, region space key = some .alias → (storeEdges space edges).get key = none := by
    intro key inside
    refine Option.eq_none_iff_forall_ne_some.mpr fun value found => ?_
    obtain ⟨edge, -, -, rfl | rfl⟩ := origin_storeEdges found <;> simp [EdgeData.key, EdgeData.inKey] at inside
  constructor
  · intro vid value found
    rw [outside (by simp)] at found
    cases found
  · intro rep vid
    rw [outside (by simp), outside (by simp)]
    simp
  · intro rep key value found covered
    obtain ⟨rest, -, rfl⟩ := covers_text.mp covered
    cases (outside (region_of_kind (kind_text space "sameas-members" (.num rep) rest))).symm.trans found

def acquaintances : World where
  content := ⟨storeEdges "g" [⟨1, 2, "knows", 0, .empty⟩, ⟨2, 3, "knows", 0, .empty⟩, ⟨3, 4, "knows", 0, .empty⟩,
    ⟨4, 1, "knows", 0, .empty⟩, ⟨1, 3, "likes", 0, .empty⟩], .empty⟩
  lastTx := 0
  readings := 0

theorem legible_acquaintances : Legible "g" acquaintances.kv :=
  legible_storeEdges (by simp)

theorem noteNeighbors (edgeTypes : List String) (neighbor : EdgeData → Int)
    {entries : List (Key × Val)} (found : List Int × TraversalMetrics)
    (readable : ∀ entry ∈ entries, ∃ edge, decodeQueryEdge entry.1 entry.2 = .ok edge)
    (distinct : found.1.Nodup) : ∃ found', entries.foldlM (noteNeighbor edgeTypes neighbor) found =
      .ok found' ∧ found'.1.Nodup ∧ found'.2.visitedVertices = found.2.visitedVertices ∧
      ∀ vid, vid ∈ found'.1 ↔ vid ∈ found.1 ∨ ∃ entry ∈ entries, admitsType edgeTypes entry.1 =
      true ∧ ∃ edge, decodeQueryEdge entry.1 entry.2 = .ok edge ∧ neighbor edge = vid := by
  induction entries generalizing found with
  | nil => exact ⟨found, rfl, distinct, rfl, by simp⟩
  | cons entry rest ih =>
    obtain ⟨edge, decoded⟩ := readable entry (.head _)
    have later : ∀ entry ∈ rest, ∃ edge, decodeQueryEdge entry.1 entry.2 = .ok edge :=
      fun other mem => readable other (.tail _ mem)
    rw [foldlM_cons]
    by_cases admitted : admitsType edgeTypes entry.1 = true
    · let next := if found.1.contains (neighbor edge) then found.1 else found.1 ++ [neighbor edge]
      have members : ∀ vid, vid ∈ next ↔ vid ∈ found.1 ∨ neighbor edge = vid := by
        intro vid
        simp only [next]
        split
        · rename_i known
          refine ⟨.inl, ?_⟩
          rintro (old | rfl)
          · exact old
          · simpa using known
        · simp [eq_comm]
      have distinct' : next.Nodup := by
        simp only [next]
        split
        · exact distinct
        · rename_i unknown
          refine nodup_append.mpr ⟨distinct, nodup_singleton _, ?_⟩
          rintro vid mem _ last rfl
          rw [mem_singleton.mp last] at mem
          simp [mem] at unknown
      simp only [noteNeighbor, admitted, if_true, decoded, bind, Except.bind, pure, Except.pure]
      obtain ⟨found', ran, kept, same, listed⟩ := ih (next, _) later distinct'
      refine ⟨found', ran, kept, same, fun vid => ?_⟩
      simp [listed, members, admitted, decoded, or_assoc]
    · simp only [noteNeighbor, admitted, bind, Except.bind, pure, Except.pure]
      obtain ⟨found', ran, kept, same, listed⟩ := ih found later distinct
      refine ⟨found', ran, kept, same, fun vid => ?_⟩
      simp [listed, admitted]

def expansion (bidirect : Bool) : EdgeDirection := if bidirect then .undirected else .outgoing

theorem allows_undirected : Allows space kv edgeTypes .undirected u v ↔
    Allows space kv edgeTypes .outgoing u v ∨ Allows space kv edgeTypes .incoming u v := by
  simp only [Allows, Leads, and_or_left, exists_or]

theorem answers_collectNeighborVids
    (legible : Legible space world.kv) (metrics : TraversalMetrics) :
    (collectNeighborVids space vid edgeTypes bidirect metrics).Answers (handler env) world raise
      fun found => found.1.Nodup ∧ found.2.visitedVertices = metrics.visitedVertices ∧ ∀ other,
        other ∈ found.1 ↔ Allows space world.kv edgeTypes (expansion bidirect) vid other := by
  have decodes : ∀ incoming, ∀ entry ∈ env.arrange (world.kv.select (edgesAt space incoming vid).covers),
      ∃ edge, decodeQueryEdge entry.1 entry.2 = .ok edge := by
    intro incoming entry mem
    obtain ⟨edge, -, named, -, rfl⟩ := (legible.mem_edges incoming).mp mem
    exact ⟨edge, decode_edgeEntry incoming named⟩
  have leads : ∀ incoming other, (∃ entry ∈ env.arrange (world.kv.select
    (edgesAt space incoming vid).covers), admitsType edgeTypes entry.1 = true ∧
        ∃ edge, decodeQueryEdge entry.1 entry.2 = .ok edge ∧ farEnd incoming edge = other) ↔
      Allows space world.kv edgeTypes (if incoming then .incoming else .outgoing) vid other := by
    intro incoming other
    simp only [Allows, leads_farEnd]
    constructor
    · rintro ⟨entry, mem, admitted, edge, decoded, there⟩
      obtain ⟨edge', stored, named, here, rfl⟩ := (legible.mem_edges incoming).mp mem
      cases (decode_edgeEntry incoming named).symm.trans decoded
      exact ⟨edge, stored, admitsType_edgeEntry.mp admitted, here, there⟩
    · rintro ⟨edge, stored, typed, here, there⟩
      have named := legible.named stored
      exact ⟨_, (legible.mem_edges incoming).mpr ⟨edge, stored, named, here, rfl⟩, admitsType_edgeEntry.mpr typed, edge,
        decode_edgeEntry incoming named, there⟩
  refine answers_bind (answers_scanPrefix ?_)
  obtain ⟨found, ran, distinct, same, listed⟩ := noteNeighbors edgeTypes EdgeData.dstVid ([], metrics)
    (show ∀ entry ∈ env.arrange (world.kv.select (edgeDataSrcPrefix space vid).covers), _ from decodes false) .nil
  rw [ran]
  refine answers_bind (answers_ofExcept (Prog.returns_ok.mpr ?_))
  have outgoing : ∀ other, other ∈ found.1 ↔ Allows space world.kv edgeTypes .outgoing vid other := by
    intro other
    simpa using (listed other).trans (or_congr_right (leads false other))
  cases bidirect with
  | false => exact answers_pure ⟨distinct, same, outgoing⟩
  | true =>
    refine answers_bind (answers_scanPrefix ?_)
    obtain ⟨found', ran', distinct', same', listed'⟩ := noteNeighbors edgeTypes EdgeData.srcVid found
      (show ∀ entry ∈ env.arrange (world.kv.select (inEdgeDataDstPrefix space vid).covers), _ from decodes true) distinct
    rw [ran']
    refine answers_ofExcept <| Prog.returns_ok.mpr ⟨distinct', same'.trans same, fun other => ?_⟩
    rw [expansion, if_pos rfl, allows_undirected, ← outgoing]
    exact (listed' other).trans (or_congr_right (leads true other))

end ByoriDB.Executor
