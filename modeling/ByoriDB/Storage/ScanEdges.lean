import ByoriDB.Data.Bytes
import ByoriDB.Meta.Partitions

/-! `ScanEdges` hands out the edges of a partition page by page, and a cursor is meant to continue. -/

namespace ByoriDB.Storage

open List Data

structure ScanEdgesRequest where
  spaceId : Nat
  partId : Nat
  edgeType : Bytes
  cursor : Bytes
  limit : Nat

structure ScanEdgesResponse (ε : Type) where
  edges : List ε
  nextCursor : Bytes
  hasMore : Bool

structure StorageNode (ε : Type) where
  store : Table Bytes Bytes
  owns : Nat → Bool
  partitionNum : Nat
  decodeEdge : Bytes → Option ε

def parseI64 (text : Bytes) : Option Int64 :=
  let digits := if text.head? = some 43 ∨ text.head? = some 45 then text.tail else text
  let size : Int := digits.foldl (fun number digit => number * 10 + (digit.toNat - 48)) 0
  let value := if text.head? = some 45 then -size else size
  if digits ≠ [] ∧ (digits.all fun digit => 48 ≤ digit && digit ≤ 57) ∧ -2 ^ 63 ≤ value ∧ value < 2 ^ 63 then some (.ofInt value)
  else none

def asciiBytes (text : String) : Bytes := text.toList.map fun char => .ofNat char.toNat

def edgeKeyPrefix (spaceId : Nat) : Bytes := asciiBytes s!"{spaceId}:edge:"

def scanWithFilter (store : Table Bytes Bytes) (scope : Bytes)
    (filter : Bytes → Bool) (limit : Nat) : List (Bytes × Bytes) :=
  (((store.rangeFrom scope).takeWhile fun entry => scope.isPrefixOf entry.1).filter fun entry => filter entry.1).take limit

namespace StorageNode

variable {ε : Type} (node : StorageNode ε) (req : ScanEdgesRequest)

def edgeFilter (key : Bytes) : Bool :=
  match key.splitOn 58 with
  | _ :: _ :: source :: edgeType :: _ => match parseI64 source with
    | some srcVid => Meta.computePartition srcVid node.partitionNum == req.partId &&
      (req.edgeType.isEmpty || edgeType == req.edgeType)
    | none => false
  | _ => false

def startKey (cursor : Bytes) : Bytes :=
  if cursor.isEmpty then edgeKeyPrefix req.spaceId else cursor

def scanEdges : ScanEdgesResponse ε :=
  if node.owns req.partId then
    let limit := if 0 < req.limit then req.limit else 1000
    let results := scanWithFilter node.store (startKey req req.cursor) (node.edgeFilter req) (limit + 1)
    let hasMore := decide (limit < results.length)
    let actual := results.take limit
    -- an edge that cannot be decoded is left out
    ⟨actual.filterMap fun entry => node.decodeEdge entry.2,
      if hasMore then (actual.getLast?.map fun entry => entry.1 ++ [0]).getD [] else [], hasMore⟩
  else ⟨[], [], false⟩

/-- The responses to a client that follows the cursors until there is no more. -/
inductive Follows : Bytes → List (ScanEdgesResponse ε) → Prop where
  | last (done : (node.scanEdges { req with cursor }).hasMore = false) : Follows cursor [node.scanEdges { req with cursor }]
  | next (more : (node.scanEdges { req with cursor }).hasMore = true)
    (rest : Follows (node.scanEdges { req with cursor }).nextCursor pages) :
      Follows cursor (node.scanEdges { req with cursor } :: pages)

def under (scope : Bytes) : List (Bytes × Bytes) :=
  (node.store.select scope.isPrefixOf).filter fun entry => node.edgeFilter req entry.1

def Accurate : Nat → List (ScanEdgesResponse ε) → Prop
  | _, [] => True
  | left, page :: pages => (page.hasMore = true ↔ page.edges.length < left) ∧ Accurate (left - page.edges.length) pages

def Complete : Prop :=
  ∃ pages, Follows node req [] pages ∧ (pages.flatMap ScanEdgesResponse.edges).map some =
      (node.under req (edgeKeyPrefix req.spaceId)).map (fun entry => node.decodeEdge entry.2) ∧
    Accurate (node.under req (edgeKeyPrefix req.spaceId)).length pages

def OnePage : Prop :=
  (node.under req (edgeKeyPrefix req.spaceId)).length ≤ req.limit ∧
    ∀ entry ∈ node.under req (edgeKeyPrefix req.spaceId), (node.decodeEdge entry.2).isSome = true

variable {node req} (owned : node.owns req.partId = true) (asked : 0 < req.limit)

include owned asked

theorem scanEdges_eq (cursor : Bytes) (here : node.under req (startKey req cursor) = entries) :
    node.scanEdges { req with cursor } =
    ⟨(entries.take req.limit).filterMap fun entry => node.decodeEdge entry.2,
      if req.limit < entries.length then ((entries.take req.limit).getLast?.map fun entry => entry.1 ++ [0]).getD [] else [],
      decide (req.limit < entries.length)⟩ := by
  have results : scanWithFilter node.store (startKey req cursor) (node.edgeFilter { req with cursor }) (req.limit + 1) =
      entries.take (req.limit + 1) := by
    rw [scanWithFilter, Table.rangeFrom_takeWhile_isPrefix, ← here]
    rfl
  have more : req.limit < min (req.limit + 1) entries.length ↔ req.limit < entries.length := by omega
  simp only [scanEdges, owned, asked, if_true]
  rw [show startKey { req with cursor } cursor = startKey req cursor from rfl, results]
  simp [take_take]

/-- No key of text extends the last one of a page by a zero byte. -/
theorem second_page (here : node.under req (edgeKeyPrefix req.spaceId) = entries) (textual : ∀ entry ∈ entries, 0 ∉ entry.1)
    (more : req.limit < entries.length) (follows : Follows node req (node.scanEdges { req with cursor := [] }).nextCursor pages) :
    pages.flatMap ScanEdgesResponse.edges = [] := by
  obtain ⟨last, full⟩ : ∃ last, (entries.take req.limit).getLast? = some last := by
    rw [← Option.isSome_iff_exists, getLast?_isSome, ← length_pos_iff, length_take]
    omega
  have cursor : (node.scanEdges { req with cursor := [] }).nextCursor = last.1 ++ [0] := by
    rw [scanEdges_eq owned asked [] here, if_pos more, full]
    rfl
  subst here
  have within : edgeKeyPrefix req.spaceId <+: last.1 := by
    simpa using (Table.mem_select.mp (mem_filter.mp (mem_of_mem_take (mem_of_getLast? full))).1).2
  have nothing : node.under req (startKey req (last.1 ++ [0])) = [] := by
    refine eq_nil_iff_forall_not_mem.mpr fun entry mem => ?_
    obtain ⟨found, matched⟩ := mem_filter.mp mem
    obtain ⟨stored, starts⟩ := Table.mem_select.mp found
    replace starts : last.1 ++ [0] <+: entry.1 := by simpa [startKey] using starts
    refine textual entry (mem_filter.mpr ⟨Table.mem_select.mpr ⟨stored, ?_⟩, matched⟩) (starts.subset (by simp))
    simpa using within.trans ((prefix_append _ _).trans starts)
  rw [cursor] at follows
  cases follows with
  | last => simp [scanEdges_eq owned asked _ nothing]
  | next more => simp [scanEdges_eq owned asked _ nothing] at more

theorem Complete.fits (complete : Complete node req) (here : node.under req (edgeKeyPrefix req.spaceId) = entries)
    (textual : ∀ entry ∈ entries, 0 ∉ entry.1) : entries.length ≤ req.limit := by
  obtain ⟨pages, follows, each, -⟩ := complete
  have first := scanEdges_eq owned asked [] here
  refine Nat.not_lt.mp fun more => ?_
  cases follows with
  | last done => simp [first, more] at done
  | next _ rest =>
    have counted := congrArg length each
    have taken := length_filterMap_le (fun entry => node.decodeEdge entry.2) (entries.take req.limit)
    rw [flatMap_cons, second_page owned asked here textual more rest, append_nil, first, length_map, length_map, here] at counted
    rw [counted, length_take] at taken
    omega

omit owned asked

/-- A cursor is scanned as a prefix, so that all edges have to fit into one page. -/
theorem scanEdges_complete (owned : node.owns req.partId = true) (asked : 0 < req.limit) :
    (OnePage node req → Complete node req) ∧ ((∀ entry ∈ node.under req (edgeKeyPrefix req.spaceId),
      0 ∉ entry.1) → Complete node req → OnePage node req) := by
  constructor
  · rintro ⟨fits, decodes⟩
    have first := scanEdges_eq owned asked [] rfl
    rw [show startKey req [] = edgeKeyPrefix req.spaceId from rfl,
      take_of_length_le fits, decide_eq_false (Nat.not_lt.mpr fits)] at first
    have all : ∀ {entries : List (Bytes × Bytes)}, (∀ entry ∈ entries, (node.decodeEdge entry.2).isSome = true) →
        (entries.filterMap fun entry => node.decodeEdge entry.2).map some = entries.map fun entry => node.decodeEdge entry.2 := by
      intro entries decodes
      induction entries with
      | nil => rfl
      | cons entry rest ih =>
        obtain ⟨found, later⟩ := forall_mem_cons.mp decodes
        obtain ⟨edge, found⟩ := Option.isSome_iff_exists.mp found
        simp [found, ih later]
    have counted := congrArg length (all decodes)
    rw [length_map, length_map] at counted
    exact ⟨_, .last (by rw [first]), by simpa [first] using all decodes, by simp [first, counted], trivial⟩
  · intro textual complete
    refine ⟨complete.fits owned asked rfl textual, fun entry mem => ?_⟩
    obtain ⟨pages, -, each, -⟩ := complete
    have listed := mem_map_of_mem (f := fun entry => node.decodeEdge entry.2) mem
    rw [← each] at listed
    obtain ⟨edge, -, same⟩ := mem_map.mp listed
    simp [← same]

def twoEdges : StorageNode Bytes :=
  ⟨.ofList [(asciiBytes "1:edge:5:likes:6:0", [1]), (asciiBytes "1:edge:5:likes:8:7", [2])], fun _ => true, 1, some⟩

theorem scanEdges_complete_two : Complete twoEdges ⟨1, 1, [], [], 2⟩ :=
  (scanEdges_complete rfl (by decide)).1 ⟨by decide +kernel, fun _ _ => rfl⟩

theorem scanEdges_incomplete : ¬ Complete twoEdges ⟨1, 1, [], [], 1⟩ := by
  intro complete
  have fits := complete.fits rfl (by decide) rfl (by decide +kernel)
  revert fits
  decide +kernel

end StorageNode

end ByoriDB.Storage
