import ByoriDB.Executor.GoRows
import ByoriDB.Executor.Match

namespace ByoriDB.Executor

open List Data Program
open Prog (Answers Returns)
open Store ByoriDB.Graph
open EdgeData (identity)

variable {env : Env} {world : World} {kv : KV} {raise : ExecutionError → Prop}

/-- Every entry of the vertices, of their tags and of the edges of a space stands
under its own key, and the lists of the tags are complete. -/
structure Tidy (space : String) (kv : KV) : Prop where
  edges : Legible space kv
  vertices : ∀ key value, key.kind space = some "vertex" → kv.get key = some value →
    ∃ vertex, value = .vertex vertex ∧ key = SchemaKey.vertex space vertex.vid
  tagvids : ∀ key value, key.kind space = some "tagvid" → kv.get key = some value → ∃ tag vid, key = tagvid space tag vid
  tags : ∀ vid tag, (kv.get (tagvid space tag vid)).isSome = true ↔ HasTag space kv vid tag

theorem Tidy.vertex (tidy : Tidy space kv) (found : kv.get (.vertex space vid) = some value) :
    ∃ vertex, value = .vertex vertex ∧ vertex.vid = vid := by
  obtain ⟨vertex, rfl, same⟩ := tidy.vertices _ _ (kind_vertex space vid) found
  simp only [Key.vertex, Key.text.injEq, List.cons.injEq, Seg.num.injEq, and_true, true_and] at same
  exact ⟨vertex, rfl, same.symm⟩

theorem answers_batchGet {keys : List Key} (holds : post (keys.map world.kv.get)) :
    Answers (handler env) world raise post (batchGet keys) :=
  ⟨rfl, holds⟩

def PropsFit (found : String → Value → Bool) (props : List (String × Expression)) : Prop :=
  ∀ prop ∈ props, ∃ value, expressionAsValue prop.2 = some value ∧ found prop.1 value = true

def unsupportedLiteral (site name : String) : ExecutionError :=
  .invalidOperation s!"Unsupported literal in {site} property '{name}'"

theorem matchesProps_returns (literal : ∀ prop ∈ props, expressionAsValue prop.2 = none →
      raise (unsupportedLiteral site prop.1)) : Returns raise
      (fun result => result = true ↔ PropsFit found props) (matchesProps site found props) := by
  induction props with
  | nil => simp [matchesProps, PropsFit]
  | cons prop rest ih =>
    have later := ih fun other listed => literal other (.tail _ listed)
    obtain ⟨name, expected⟩ := prop
    unfold matchesProps
    cases value : expressionAsValue expected with
    | none => exact literal _ (.head _) value
    | some value' =>
      dsimp only
      split
      · rename_i here
        refine later.mono fun result same => ?_
        simp [same, PropsFit, value, here]
      · rename_i missing
        simp [PropsFit, value, missing]

def NodeFits (space : String) (kv : KV) (node : NodePattern) (vid : Int) : Prop :=
  ∃ vertex, kv.get (SchemaKey.vertex space vid) = some (.vertex vertex) ∧ node.admitsTags vertex.tags = true ∧
    PropsFit (fun name value => vertex.tags.any fun tag => TagData.holds tag name value) node.props

/-- What a node may be called, and the errors it may raise. -/
structure NodeAllowed (raise : ExecutionError → Prop) (vertexNames : String → Prop) (node : NodePattern) : Prop where
  named : ∀ name, node.variableName = some name → vertexNames name
  literal : ∀ prop ∈ node.props, expressionAsValue prop.2 = none → raise (unsupportedLiteral "pattern" prop.1)

structure EdgeAllowed (raise : ExecutionError → Prop) (edgeNames : String → Prop) (edge : EdgePattern) : Prop where
  named : ∀ name, edge.variableName = some name → edgeNames name
  literal : ∀ prop ∈ edge.props, expressionAsValue prop.2 = none → raise (unsupportedLiteral "edge" prop.1)
  ranged : edge.range.isSome = true → ∀ reason, raise reason

section

variable {edgeNames : String → Prop}

theorem returns_kept {test : Except ExecutionError Bool} {item : γ}
    (returns : Returns raise (fun result => result = true ↔ fits) test) :
    Returns raise (fun kept => kept = some item ∧ fits ∨ kept = none ∧ ¬ fits)
      (do pure (if ← test then some item else none)) := by
  refine returns.bind fun result same => ?_
  cases result with
  | true => exact .inl ⟨rfl, same.mp rfl⟩
  | false => exact .inr ⟨rfl, fun fits => by simpa using same.mpr fits⟩

theorem matchesNode_returns (tidy : Tidy space kv) (allowed : NodeAllowed raise vertexNames node)
    (found : kv.get (.vertex space vid) = some value) :
    Returns raise (fun result => result = true ↔ NodeFits space kv node vid) (matchesNode vid value node) := by
  obtain ⟨vertex, rfl, rfl⟩ := tidy.vertex found
  simp only [matchesNode, decodeVertex, if_true, bind, Except.bind]
  split
  · rename_i admitted
    refine (matchesProps_returns allowed.literal).mono fun result same => ?_
    simp [same, NodeFits, found, admitted]
  · rename_i refused
    simp [NodeFits, found, refused]

/-- Entering a vertex: it fits, and then the bindings are those that follow. -/
theorem enterNode_returns (tidy : Tidy space kv) (allowed : NodeAllowed raise vertexNames node)
    (binds : Returns raise post bound) : Returns raise (fun next => NodeFits space kv node vid ∧
      bound = .ok next ∨ ¬ NodeFits space kv node vid ∧ next = none)
      (enterNode node vid (kv.get (.vertex space vid)) bound) := by
  cases found : kv.get (.vertex space vid) with
  | none => exact .inr ⟨by simp [NodeFits, found], rfl⟩
  | some value =>
    refine (matchesNode_returns tidy allowed found).bind fun result same => ?_
    split
    · rename_i fits
      cases bound with
      | ok next => exact .inl ⟨same.mp fits, rfl⟩
      | error reason => exact binds.raised rfl
    · rename_i unfit
      exact .inr ⟨fun fits => unfit (same.mpr fits), rfl⟩

theorem surviving_answers (allowed : EdgeAllowed raise edgeNames edge)
    (neighbors : List GraphNeighbor) :
    Answers (handler env) world raise (fun kept => kept.Sublist neighbors ∧ ∀ neighbor,
        neighbor ∈ kept ↔ neighbor ∈ neighbors ∧ PropsFit (EdgeData.holds neighbor.edge) edge.props)
      (ofExcept (surviving edge neighbors)) := by
  refine answers_imp (answers_filterMapM id (fun neighbor => PropsFit (EdgeData.holds neighbor.edge) edge.props) ?_) ?_
  · intro neighbor _
    exact returns_kept (matchesProps_returns allowed.literal)
  · rintro _ ⟨kept, inside, mem, rfl⟩
    rw [map_id]
    exact ⟨inside, mem⟩

end

theorem identity_eq (first : HasEdge space kv left) (second : HasEdge space kv right)
    (same : identity left = identity right) : left = right := by
  simp only [identity, Prod.mk.injEq] at same
  obtain ⟨source, target, type, rank⟩ := same
  have keys : left.key space = right.key space := by simp [EdgeData.key, source, target, type, rank]
  rw [HasEdge, keys, second] at first
  cases first
  rfl

theorem mapM_eq_ok {ε α β : Type} {f : α → Except ε β} {g : α → β} {items : List α}
    (each : ∀ item ∈ items, f item = .ok (g item)) : items.mapM f = .ok (items.map g) := by
  induction items with
  | nil => rfl
  | cons item rest ih =>
    obtain ⟨first, later⟩ := forall_mem_cons.mp each
    rw [mapM_cons, first, ih later]
    rfl

theorem excludesType_eq (typed : edgeTypeFromKey key = some edgeType) :
    excludesType edgeTypes key = !admitsType edgeTypes key := by
  cases edgeTypes <;> simp [excludesType, admitsType, typed]

theorem nodup_scan (scope : Key → Bool) : (env.arrange (kv.select scope)).Nodup :=
  (env.arrange_perm _).nodup_iff.mpr (List.Nodup.of_map Prod.fst (nodup_select kv scope))

def neighborOf (incoming : Bool) (entry : Key × Val) : GraphNeighbor :=
  match entry.2 with
  | .edge edge => ⟨farEnd incoming edge, edge⟩
  | _ => ⟨0, ⟨0, 0, "", 0, .empty⟩⟩

/-- The entries that a scan in one of the two directions does not pass over. -/
theorem Legible.mem_scanned (legible : Legible space kv) :
    entry ∈ (env.arrange (kv.select (edgesAt space incoming vid).covers)).filter
        (fun entry => !excludesType edgeTypes entry.1) ↔
      ∃ edge, HasEdge space kv edge ∧ OfType edgeTypes edge ∧ farEnd (!incoming) edge = vid ∧
        entry = edgeEntry space incoming edge := by
  rw [mem_filter, legible.mem_edges incoming]
  have admits : ∀ edge, (!excludesType edgeTypes (edgeEntry space incoming edge).1) = true ↔ OfType edgeTypes edge := by
    intro edge
    rw [excludesType_eq edgeTypeFromKey_edgeEntry, Bool.not_not, admitsType_edgeEntry]
  constructor
  · rintro ⟨⟨edge, stored, -, here, rfl⟩, admitted⟩
    exact ⟨edge, stored, (admits edge).mp admitted, here, rfl⟩
  · rintro ⟨edge, stored, typed, here, rfl⟩
    exact ⟨⟨edge, stored, legible.named stored, here, rfl⟩, (admits edge).mpr typed⟩

theorem answers_strictNeighbors (legible : Legible space world.kv) :
    (strictNeighbors space vid edgeTypes incoming).Answers (handler env) world raise fun neighbors =>
      Enumerates neighbors (IsNeighbor space world.kv edgeTypes (if incoming then .incoming else .outgoing) vid) := by
  refine answers_bind (answers_scanPrefix (answers_ofExcept ?_))
  rw [mapM_eq_ok (g := neighborOf incoming) fun entry mem => ?decodes]
  case decodes =>
    obtain ⟨edge, stored, -, -, rfl⟩ := legible.mem_scanned.mp mem
    rw [show decodeQueryEdge _ (edgeEntry space incoming edge).2 = _ from decode_edgeEntry incoming (legible.named stored)]
    rfl
  refine ⟨List.Nodup.map_on ?_ ((nodup_scan _).filter _), fun neighbor => ?_⟩
  · intro left mem right mem' same
    obtain ⟨edge, -, -, -, rfl⟩ := legible.mem_scanned.mp mem
    obtain ⟨edge', -, -, -, rfl⟩ := legible.mem_scanned.mp mem'
    have edges : edge = edge' := congrArg GraphNeighbor.edge same
    rw [edges]
  · rw [mem_map, IsNeighbor, leads_farEnd]
    constructor
    · rintro ⟨entry, mem, rfl⟩
      obtain ⟨edge, stored, typed, here, rfl⟩ := legible.mem_scanned.mp mem
      exact ⟨stored, typed, here, rfl⟩
    · rintro ⟨stored, typed, here, there⟩
      refine ⟨_, legible.mem_scanned.mpr ⟨neighbor.edge, stored, typed, here, rfl⟩, ?_⟩
      simp [neighborOf, edgeEntry, there]

/-- Where an edge tells its neighbour, the first neighbour by each edge is the only one. -/
theorem distinctEdges_enumerates
    (tells : ∀ left ∈ neighbors, ∀ right ∈ neighbors, identity left.edge = identity right.edge → left = right) :
    Enumerates (distinctEdges neighbors) (· ∈ neighbors) := by
  have loop : ∀ (rest kept : List GraphNeighbor), (∀ other ∈ kept ++ rest, other ∈ neighbors) → kept.Nodup →
      Enumerates (rest.foldl (fun kept neighbor =>
        if kept.any fun other => identity other.edge = identity neighbor.edge then kept else kept ++ [neighbor]) kept)
        (· ∈ kept ++ rest) := by
    intro rest
    induction rest with
    | nil => exact fun kept _ once => ⟨once, by simp⟩
    | cons neighbor rest ih =>
      intro kept inside once
      have seen : (kept.any fun other => identity other.edge = identity neighbor.edge) = true ↔ neighbor ∈ kept := by
        rw [any_eq_true]
        constructor
        · rintro ⟨other, mem, same⟩
          rw [← tells other (inside other (by simp [mem])) neighbor (inside neighbor (by simp)) (by simpa using same)]
          exact mem
        · exact fun mem => ⟨neighbor, mem, by simp⟩
      rw [foldl_cons]
      split
      · have next := ih kept (fun other listed => inside other (by simp at listed ⊢; tauto)) once
        refine ⟨next.nodup, fun other => (next.mem other).trans ?_⟩
        simp only [mem_append, mem_cons]
        constructor
        · tauto
        · rintro (early | rfl | late) <;> tauto
      · rename_i fresh
        have new : neighbor ∉ kept := fun mem => fresh (seen.mpr mem)
        have next := ih (kept ++ [neighbor]) (fun other listed => inside other (by simpa using listed))
          (once.append (nodup_singleton _) (by simpa using new))
        exact ⟨next.nodup, fun other => (next.mem other).trans (by simp)⟩
  simpa [distinctEdges] using loop neighbors [] (by simp) .nil

theorem answers_neighborsForDirection (legible : Legible space world.kv) (vid : Int) (edgeTypes : List String)
    (direction : EdgeDirection) :
    (neighborsForDirection space vid edgeTypes direction).Answers (handler env) world raise fun neighbors =>
      Enumerates neighbors (IsNeighbor space world.kv edgeTypes direction vid) := by
  cases direction with
  | outgoing => exact answers_strictNeighbors legible
  | incoming => exact answers_strictNeighbors legible
  | undirected =>
    refine answers_seq (answers_strictNeighbors legible) fun out outgoing => ?_
    refine answers_seq (answers_strictNeighbors legible) fun inc incoming => ?_
    have mem : ∀ neighbor, neighbor ∈ out ++ inc ↔ IsNeighbor space world.kv edgeTypes .undirected vid neighbor := by
      intro neighbor
      rw [mem_append, outgoing.mem, incoming.mem]
      simp only [IsNeighbor, Leads, Bool.false_eq_true, if_false, if_true]
      tauto
    -- A self-loop is read in both directions, but leads to the one vertex.
    have tells : ∀ left ∈ out ++ inc, ∀ right ∈ out ++ inc, identity left.edge = identity right.edge → left = right := by
      rintro ⟨u, edge⟩ first ⟨v, edge'⟩ second same
      obtain ⟨stored, -, leads⟩ := (mem _).mp first
      obtain ⟨stored', -, leads'⟩ := (mem _).mp second
      obtain rfl : edge = edge' := identity_eq stored stored' same
      simp only [Leads] at leads leads'
      have ends : u = v := by omega
      rw [ends]
    have distinct := distinctEdges_enumerates tells
    exact answers_pure ⟨distinct.nodup, fun neighbor => (distinct.mem neighbor).trans (mem neighbor)⟩

end ByoriDB.Executor
