import ByoriDB.Executor.MatchHops
import ByoriDB.Store.Representation

namespace ByoriDB.Executor

open List hiding count
open Data Program
open Prog (Answers Returns)
open Store ByoriDB.Graph
open SchemaKey (vertex)
open IndexValue (encode)
open Prefix (text)

variable {env : Env} {world : World} {kv : KV}

def TooLong (ctx : QueryCtx) (space : String) (kv : KV) : Prop :=
  0 < ctx.maxScanLimit ∧ ctx.maxScanLimit < (kv.select (text (vertexScope space)).covers).length

def Capped (raise : ExecutionError → Prop) (ctx : QueryCtx) (space : String) (kv : KV) : Prop :=
  ∀ operation, TooLong ctx space kv → raise (scanExceeded ctx operation)

theorem length_le_vertices {vids : List Int} (nodup : vids.Nodup)
    (stored : ∀ vid ∈ vids, (kv.get (vertex space vid)).isSome = true) :
    vids.length ≤ (kv.select (text (vertexScope space)).covers).length := by
  have inside : vids.map (vertex space) ⊆ (kv.select (text (vertexScope space)).covers).map Prod.fst := by
    intro key member
    obtain ⟨vid, listed, rfl⟩ := mem_map.mp member
    obtain ⟨value, found⟩ := Option.isSome_iff_exists.mp (stored vid listed)
    exact mem_map.mpr ⟨(_, value), mem_select.mpr ⟨found, covers_text.mpr ⟨[.num vid], by simp, rfl⟩⟩, rfl⟩
  have distinct : (vids.map (vertex space)).Nodup :=
    nodup.map fun left right same => by simpa [vertex] using same
  have bound := (subperm_of_subset distinct inside).length_le
  simpa using bound

/-- A scan within the limit is read as a whole, and a longer one is given up. -/
theorem limited_returns (past : 0 < ctx.maxScanLimit → ctx.maxScanLimit < entries.length →
      raise (scanExceeded ctx operation)) : Returns raise
      (fun _ => takeLimited (candidateScanLimit ctx) entries = entries) (checkCandidateScanSize
      ctx (takeLimited (candidateScanLimit ctx) entries).length operation) := by
  unfold candidateScanLimit checkCandidateScanSize takeLimited
  by_cases unlimited : ctx.maxScanLimit = 0 ∨ ctx.maxScanLimit ≥ 18446744073709551615
  · simp only [unlimited, if_true]
    split
    · rename_i long
      exact past long.1 long.2
    · trivial
  · simp only [unlimited, if_false]
    split
    · rename_i long
      refine past long.1 ?_
      rw [length_take] at long
      omega
    · rename_i short
      rw [length_take] at short
      exact take_of_length_le (by omega)

theorem answers_scanLimited {scope : Prefix} {operation : String} {α : Type} {post : α → Prop} {rest : List (Key × Val) → Exec α}
    (short : (world.kv.select scope.covers).length ≤ (world.kv.select (text (vertexScope space)).covers).length)
    (capped : TooLong ctx space world.kv → raise (scanExceeded ctx operation))
    (whole : Answers (handler env) world raise post (rest (env.arrange (world.kv.select scope.covers)))) :
    Answers (handler env) world raise post (do
      let entries ← scanPrefixLimited scope (candidateScanLimit ctx)
      ofExcept (checkCandidateScanSize ctx entries.length operation)
      rest entries) := by
  have length := (env.arrange_perm (world.kv.select scope.covers)).length_eq
  refine answers_bind (answers_bind (answers_scanPrefix (answers_pure ?_)))
  refine answers_seq (answers_ofExcept (limited_returns fun limited long => capped ⟨limited, by omega⟩)) fun _ same => ?_
  rw [same]
  exact whole

theorem answers_validCandidates (tidy : Tidy space world.kv)
    (allowed : NodeAllowed raise vertexNames node) (nodup : vids.Nodup) :
    (validCandidates space node vids).Answers (handler env) world raise
      fun kept => Enumerates kept fun vid => vid ∈ vids ∧ NodeFits space world.kv node vid := by
  refine answers_bind (answers_batchGet ?_)
  rw [map_map, ← map_prod_left_eq_zip]
  refine answers_imp (answers_filterMapM Prod.fst (fun candidate => NodeFits space world.kv node candidate.1) ?_) ?_
  · intro candidate listed
    obtain ⟨vid, -, rfl⟩ := mem_map.mp listed
    dsimp only [Function.comp_apply]
    cases found : world.kv.get (vertex space vid) with
    | none => exact .inr ⟨rfl, by simp [NodeFits, found]⟩
    | some value =>
      exact returns_kept (matchesNode_returns tidy allowed found)
  · rintro _ ⟨kept, inside, mem, rfl⟩
    have projected : (vids.map fun vid => (vid, (world.kv.get ∘ vertex space) vid)).map Prod.fst = vids := by
      rw [map_map]
      exact map_id vids
    refine ⟨nodup.sublist (projected ▸ inside.map Prod.fst), fun vid => ?_⟩
    rw [mem_map]
    constructor
    · rintro ⟨candidate, listed, rfl⟩
      obtain ⟨among, fits⟩ := (mem candidate).mp listed
      obtain ⟨vid, own, rfl⟩ := mem_map.mp among
      exact ⟨own, fits⟩
    · rintro ⟨own, fits⟩
      exact ⟨_, (mem (vid, _)).mpr ⟨mem_map.mpr ⟨vid, own, rfl⟩, fits⟩, rfl⟩

theorem Tidy.mem_vertices (tidy : Tidy space kv) :
    entry ∈ env.arrange (kv.select (text (vertexScope space)).covers) ↔
      ∃ vertex : VertexData, kv.get (.vertex space vertex.vid) = some (.vertex vertex) ∧
        entry = (.vertex space vertex.vid, .vertex vertex) := by
  rw [mem_scan]
  constructor
  · rintro ⟨found, covered⟩
    obtain ⟨vertex, value, own⟩ := tidy.vertices _ _ (covers_kind.mp covered) found
    rw [own, value] at found
    exact ⟨vertex, found, Prod.ext own value⟩
  · rintro ⟨vertex, found, rfl⟩
    exact ⟨found, covers_text.mpr ⟨[.num vertex.vid], by simp, rfl⟩⟩

theorem decodeCandidateVid_vertex : decodeCandidateVid (vertexScope space) (vertex space vid) = .ok vid := by
  simp [decodeCandidateVid, vertexScope, vertex]

theorem decodeCandidateVid_tagvid :
    decodeCandidateVid (tagvidScope space label) (tagvid space label vid) = .ok vid := by
  simp [decodeCandidateVid, tagvidScope, tagvid]

def entryVid (entry : Key × Val) : Int := lastNumber entry.1

theorem Tidy.vertices_enumerate (tidy : Tidy space kv) (env : Env) :
    Enumerates ((env.arrange (kv.select (text (vertexScope space)).covers)).map entryVid)
      fun vid => (kv.get (.vertex space vid)).isSome = true := by
  refine ⟨List.Nodup.map_on ?_ (nodup_scan _), fun vid => ?_⟩
  · intro left listed right listed' same
    obtain ⟨vertex, found, rfl⟩ := tidy.mem_vertices.mp listed
    obtain ⟨vertex', found', rfl⟩ := tidy.mem_vertices.mp listed'
    have vids : vertex.vid = vertex'.vid := same
    rw [vids, found'] at found
    cases found
    rfl
  · rw [mem_map, Option.isSome_iff_exists]
    constructor
    · rintro ⟨entry, listed, rfl⟩
      obtain ⟨vertex, found, rfl⟩ := tidy.mem_vertices.mp listed
      exact ⟨_, found⟩
    · rintro ⟨value, found⟩
      obtain ⟨vertex, rfl, rfl⟩ := tidy.vertex found
      exact ⟨_, tidy.mem_vertices.mpr ⟨vertex, found, rfl⟩, rfl⟩

theorem NodeFits.stored (fits : NodeFits space kv node vid) : (kv.get (.vertex space vid)).isSome = true := by
  obtain ⟨vertex, found, -⟩ := fits
  simp [found]

theorem answers_scanCandidates (tidy : Tidy space world.kv)
    (allowed : NodeAllowed raise vertexNames node) (capped : Capped raise ctx space world.kv) :
    (scanCandidates ctx space node).Answers (handler env) world raise
      fun vids => Enumerates vids (NodeFits space world.kv node) := by
  refine answers_scanLimited le_rfl (capped _) ?_
  refine answers_imp (answers_filterMapM entryVid (fun entry => NodeFits space world.kv node (entryVid entry)) ?_) ?_
  · intro entry listed
    obtain ⟨vertex, found, rfl⟩ := tidy.mem_vertices.mp listed
    rw [decodeCandidateVid_vertex]
    exact returns_kept (matchesNode_returns tidy allowed found)
  · rintro _ ⟨kept, inside, mem, rfl⟩
    have listed := tidy.vertices_enumerate env
    refine ⟨listed.nodup.sublist (inside.map entryVid), fun vid => ?_⟩
    rw [mem_map]
    constructor
    · rintro ⟨entry, member, rfl⟩
      exact ((mem entry).mp member).2
    · intro fits
      obtain ⟨entry, member, rfl⟩ := mem_map.mp ((listed.mem vid).mpr fits.stored)
      exact ⟨entry, (mem entry).mpr ⟨member, fits⟩, rfl⟩

theorem Tidy.mem_tagvids (tidy : Tidy space kv) :
    entry ∈ env.arrange (kv.select (text (tagvidScope space label)).covers) ↔
      ∃ vid, HasTag space kv vid label ∧ entry.1 = tagvid space label vid ∧ kv.get entry.1 = some entry.2 := by
  rw [mem_scan]
  constructor
  · rintro ⟨found, covered⟩
    obtain ⟨rest, nonempty, shape⟩ := covers_text.mp covered
    obtain ⟨head, more, rfl⟩ := exists_cons_of_ne_nil nonempty
    obtain ⟨tag, vid, own⟩ := tidy.tagvids _ _ (by rw [shape]; exact kind_text space "tagvid" (.word label) (head :: more)) found
    have same := own.symm.trans shape
    simp only [tagvid, tagvidScope, cons_append, nil_append, Key.text.injEq, List.cons.injEq, true_and,
      Seg.word.injEq] at same
    obtain ⟨rfl, -, -⟩ := same
    exact ⟨vid, (tidy.tags vid tag).mp (by rw [← own, found]; rfl), own, found⟩
  · rintro ⟨vid, -, own, found⟩
    exact ⟨found, covers_text.mpr ⟨[.num vid], by simp, own⟩⟩

theorem HasTag.stored (has : HasTag space kv vid tag) : (kv.get (.vertex space vid)).isSome = true := by
  obtain ⟨vertex, found, -⟩ := has
  simp [found]

theorem Tidy.tagvids_enumerate (tidy : Tidy space kv) (env : Env) (label : String) :
    Enumerates ((env.arrange (kv.select (text (tagvidScope space label)).covers)).map entryVid) (HasTag space kv · label) := by
  refine ⟨List.Nodup.map_on ?_ (nodup_scan _), fun vid => ?_⟩
  · rintro ⟨key, value⟩ listed ⟨key', value'⟩ listed' same
    obtain ⟨vid, -, rfl, found⟩ := tidy.mem_tagvids.mp listed
    obtain ⟨vid', -, rfl, found'⟩ := tidy.mem_tagvids.mp listed'
    obtain rfl : vid = vid' := same
    rw [found'] at found
    cases found
    rfl
  · rw [mem_map]
    constructor
    · rintro ⟨⟨key, value⟩, listed, rfl⟩
      obtain ⟨vid, has, rfl, -⟩ := tidy.mem_tagvids.mp listed
      exact has
    · intro has
      obtain ⟨value, found⟩ := Option.isSome_iff_exists.mp ((tidy.tags vid label).mpr has)
      exact ⟨(_, value), tidy.mem_tagvids.mpr ⟨vid, has, rfl, found⟩, rfl⟩

/-- What the list of a tag is relied on for: all vertices that fit, or else none. -/
def ListSelects (space : String) (kv : KV) (node : NodePattern) (label : String) (vids : Option (List Int)) : Prop :=
  match vids with
  | some vids => (∃ vid, NodeFits space kv node vid ∧ HasTag space kv vid label) ∧
      Enumerates vids fun vid => NodeFits space kv node vid ∧ HasTag space kv vid label
  | none => ∀ vid, NodeFits space kv node vid → ¬ HasTag space kv vid label

theorem answers_tagvidCandidates (tidy : Tidy space world.kv)
    (allowed : NodeAllowed raise vertexNames node) (capped : Capped raise ctx space world.kv) :
    (tagvidCandidates ctx space node label).Answers (handler env) world raise
      (ListSelects space world.kv node label) := by
  have listed := tidy.tagvids_enumerate env label
  have length := (env.arrange_perm (world.kv.select (text (tagvidScope space label)).covers)).length_eq
  have few := length_le_vertices listed.nodup fun vid member => ((listed.mem vid).mp member).stored
  rw [length_map, length] at few
  refine answers_scanLimited few (capped _) ?_
  split
  · rename_i empty
    rw [List.isEmpty_iff.mp empty] at listed
    exact answers_pure fun vid _ => listed.unmet vid
  · rw [mapM_eq_ok (g := entryVid) fun entry member => ?decodes]
    case decodes =>
      obtain ⟨vid, -, own, -⟩ := tidy.mem_tagvids.mp member
      rw [own, decodeCandidateVid_tagvid, entryVid, own]
      rfl
    refine answers_bind (answers_pure ?_)
    refine answers_seq (answers_validCandidates tidy allowed listed.nodup) fun vids kept => answers_pure ?_
    split
    · rename_i empty
      intro vid fits has
      rw [List.isEmpty_iff.mp empty] at kept
      exact kept.unmet vid ⟨(listed.mem vid).mpr has, fits⟩
    · rename_i nonempty
      have mem : ∀ vid, vid ∈ vids ↔ NodeFits space world.kv node vid ∧ HasTag space world.kv vid label := by
        intro vid
        rw [kept.mem, listed.mem, and_comm]
      obtain ⟨vid, rest, same⟩ := exists_cons_of_ne_nil (by simpa using nonempty : vids ≠ [])
      exact ⟨⟨vid, (mem vid).mp (by rw [same]; exact .head _)⟩, kept.nodup, mem⟩

theorem encodedLength_encode (value : IndexValue) (rest : Bytes) :
    encodedLength (value.encode ++ rest) = some value.encode.length := by
  cases value with
  | null => rfl
  | bool flag => rfl
  | int number => simp [encode, encodedLength]
  | float bits => simp [encode, encodedLength]
  | string text =>
    have small : (text.toUTF8.data.toList.take 255).length < 256 := by
      rw [length_take]
      omega
    simp only [encode, cons_append, encodedLength, UInt8.toNat_ofNat_of_lt' small, length_append, length_cons]
    rw [if_pos (by omega)]
    congr 1
    omega

theorem encode_append_inj {left right : IndexValue} (same : left.encode ++ lefts = right.encode ++ rights) :
    left.encode = right.encode ∧ lefts = rights := by
  have lengths : left.encode.length = right.encode.length := by
    rw [← Option.some_inj, ← encodedLength_encode left lefts, same, encodedLength_encode]
  exact append_inj same lengths

theorem holdsValues_encode (values : List IndexValue) : holdsValues values.length (values.flatMap encode) = true := by
  induction values with
  | nil => rfl
  | cons value rest ih =>
    rw [length_cons, flatMap_cons, holdsValues, encodedLength_encode]
    simpa using ih

/-- A prefix of encoded values selects those that begin with these encodings. -/
theorem encode_isPrefix {sought values : List IndexValue} (short : sought.length ≤ values.length)
    (rest : Bytes) : sought.flatMap encode <+: values.flatMap encode ++ rest ↔
      (values.take sought.length).map encode = sought.map encode := by
  induction sought generalizing values with
  | nil => simp
  | cons first more ih =>
    cases values with
    | nil => simp at short
    | cons value others =>
      have later := @ih others (by simpa using short)
      simp only [flatMap_cons, append_assoc, length_cons, take_succ_cons, map_cons, List.cons.injEq]
      constructor
      · rintro ⟨tail, whole⟩
        rw [append_assoc] at whole
        obtain ⟨same, rest'⟩ := encode_append_inj whole
        exact ⟨same.symm, later.mp ⟨tail, rest'⟩⟩
      · rintro ⟨same, rest'⟩
        rw [same, prefix_append_right_inj]
        exact later.mpr rest'

def vertexEntry (index : IndexDef) (vertex : VertexData) : Option Key :=
  (vertex.tags.find? fun tag => tag.name = index.schemaName).map fun tag =>
    tagIndexKey index.id (indexValues index tag.properties) vertex.vid

/-- The index holds the entries of the stored vertices, and nothing else. -/
def IndexExact (space : String) (kv : KV) (index : IndexDef) : Prop :=
  ∀ key, EntryOf tagIndexKind index.id key → ((kv.get key).isSome = true ↔
    ∃ vertex, kv.get (SchemaKey.vertex space vertex.vid) = some (.vertex vertex) ∧ vertexEntry index vertex = some key)

/-- The vertex has the tag of the index, with properties of these encodings. -/
def Indexed (space : String) (kv : KV) (index : IndexDef) (sought : List IndexValue) (vid : Int) : Prop :=
  ∃ vertex tag, kv.get (SchemaKey.vertex space vid) = some (.vertex vertex) ∧
    (vertex.tags.find? fun tag => tag.name = index.schemaName) = some tag ∧
    ((indexValues index tag.properties).take sought.length).map encode = sought.map encode

def VidsFit (space : String) (kv : KV) : Prop :=
  ∀ vid, (kv.get (vertex space vid)).isSome = true → fitsI64 vid = true

theorem length_before_vid : (front ++ Bytes.bigEndian 8 word).length - 8 = front.length := by
  rw [length_append, Bytes.length_bigEndian, Nat.add_sub_cancel]

theorem scannedVid_entry (length : values.length = index.fields.length)
    (fits : fitsI64 vid = true) : scannedVid index (tagIndexKey index.id values vid) = .ok vid := by
  simp only [scannedVid, tagIndexKey, KeyUtils.tagIndexKey, indexKeyPrefix]
  rw [length_before_vid, take_left, drop_left, drop_left, ← length, holdsValues_encode, if_neg, if_pos rfl,
    Bytes.ofBigEndian_bigEndian (asU64_lt vid), asI64_asU64 fits]
  simp only [length_append, Bytes.length_bigEndian, not_or, not_lt]
  omega

section

variable {index : IndexDef} {sought : List IndexValue} (exact : IndexExact space kv index)
  (short : sought.length ≤ index.fields.length)

include exact short

theorem mem_lookup :
    entry ∈ env.arrange (kv.select (Prefix.raw (indexKeyPrefix tagIndexKind index.id ++ sought.flatMap encode)).covers) ↔
      ∃ vertex tag, kv.get (.vertex space vertex.vid) = some (.vertex vertex) ∧
        (vertex.tags.find? fun tag => tag.name = index.schemaName) = some tag ∧
        ((indexValues index tag.properties).take sought.length).map encode = sought.map encode ∧
        entry.1 = tagIndexKey index.id (indexValues index tag.properties) vertex.vid ∧ kv.get entry.1 = some entry.2 := by
  have covers : ∀ (props : Props) (vid : Int), (Prefix.raw (indexKeyPrefix tagIndexKind index.id ++ sought.flatMap encode)).covers
      (tagIndexKey index.id (indexValues index props) vid) = true ↔
      ((indexValues index props).take sought.length).map encode = sought.map encode := by
    intro props vid
    rw [← encode_isPrefix (by simpa [indexValues] using short) (Bytes.bigEndian 8 (asU64 vid))]
    simp [Prefix.covers, tagIndexKey, KeyUtils.tagIndexKey]
  rw [mem_scan]
  constructor
  · rintro ⟨found, covered⟩
    obtain ⟨key, value⟩ := entry
    have isEntry : EntryOf tagIndexKind index.id key := by
      cases key with
      | text segments => simp [Prefix.covers] at covered
      | raw bytes =>
        obtain ⟨rest, whole⟩ := List.isPrefixOf_iff_prefix.mp covered
        exact ⟨sought.flatMap encode ++ rest, by rw [← append_assoc, whole]⟩
    obtain ⟨vertex, stored, own⟩ := (exact key isEntry).mp (by simp [found])
    obtain ⟨tag, has, rfl⟩ := Option.map_eq_some_iff.mp own
    exact ⟨vertex, tag, stored, has, (covers _ _).mp covered, rfl, found⟩
  · rintro ⟨vertex, tag, -, -, encoded, own, found⟩
    exact ⟨found, by rw [own]; exact (covers _ _).mpr encoded⟩

def indexedVid (entry : Key × Val) : Int :=
  match entry.1 with
  | .raw bytes => asI64 (Bytes.ofBigEndian (bytes.drop (bytes.length - 8)))
  | .text _ => 0

omit exact short in
theorem indexedVid_entry (fits : fitsI64 vid = true) : indexedVid (tagIndexKey index.id values vid, value) = vid := by
  simp only [indexedVid, tagIndexKey, KeyUtils.tagIndexKey]
  rw [length_before_vid, drop_left, Bytes.ofBigEndian_bigEndian (asU64_lt vid), asI64_asU64 fits]

theorem lookup_enumerates (tidy : Tidy space kv) (fit : VidsFit space kv) (env : Env) :
    Enumerates ((env.arrange (kv.select (Prefix.raw
      (indexKeyPrefix tagIndexKind index.id ++ sought.flatMap encode)).covers)).map indexedVid)
      (Indexed space kv index sought) := by
  refine ⟨List.Nodup.map_on ?_ (nodup_scan _), fun vid => ?_⟩
  · rintro ⟨key, value⟩ listed ⟨key', value'⟩ listed' same
    obtain ⟨vertex, tag, stored, has, -, rfl, found⟩ := (mem_lookup exact short).mp listed
    obtain ⟨vertex', tag', stored', has', -, rfl, found'⟩ := (mem_lookup exact short).mp listed'
    rw [indexedVid_entry (fit _ (by simp [stored])), indexedVid_entry (fit _ (by simp [stored']))] at same
    rw [same, stored'] at stored
    cases stored
    rw [has] at has'
    cases has'
    rw [found] at found'
    cases found'
    rfl
  · rw [mem_map]
    constructor
    · rintro ⟨⟨key, value⟩, listed, rfl⟩
      obtain ⟨vertex, tag, stored, has, encoded, rfl, -⟩ := (mem_lookup exact short).mp listed
      rw [indexedVid_entry (fit _ (by simp [stored]))]
      exact ⟨vertex, tag, stored, has, encoded⟩
    · rintro ⟨vertex, tag, stored, has, encoded⟩
      obtain ⟨_, same, rfl⟩ := tidy.vertex stored
      cases same
      have present := (exact _ entryOf_tagIndexKey).mpr
        ⟨vertex, stored, by rw [vertexEntry, has]; rfl⟩
      obtain ⟨value, found⟩ := Option.isSome_iff_exists.mp present
      exact ⟨(_, value), (mem_lookup exact short).mpr ⟨vertex, tag, stored, has, encoded, rfl, found⟩,
        indexedVid_entry (fit _ (by simp [stored]))⟩

end

theorem Indexed.stored (indexed : Indexed space kv index sought vid) : (kv.get (.vertex space vid)).isSome = true := by
  obtain ⟨vertex, -, found, -⟩ := indexed
  simp [found]

theorem mem_preferIndex {indexes : List IndexDef}
    (chosen : indexes.foldl (preferIndex props) best = some (index, covered)) :
    index ∈ indexes ∨ best = some (index, covered) := by
  induction indexes generalizing best with
  | nil => exact .inr chosen
  | cons first rest ih =>
    rcases ih chosen with later | now
    · exact .inl (.tail _ later)
    · unfold preferIndex at now
      dsimp only at now
      split at now
      · exact .inr now
      · split at now
        · cases now
          exact .inl (.head _)
        · split at now
          · cases now
            exact .inl (.head _)
          · exact .inr now

theorem pickIndexPlan_spec (picked : pickIndexPlan indexes props = some (index, sought)) :
    index ∈ indexes ∧ sought.length ≤ index.fields.length := by
  unfold pickIndexPlan at picked
  split at picked
  · rename_i whole found
    cases picked
    exact ⟨List.mem_of_find?_eq_some found, length_filterMap_le _ _⟩
  · obtain ⟨⟨best, covered⟩, chosen, same⟩ := Option.map_eq_some_iff.mp picked
    cases same
    refine ⟨(mem_preferIndex chosen).resolve_right (by simp), (length_filterMap_le _ _).trans ?_⟩
    rw [length_take]
    exact Nat.min_le_right _ _

def resolvedSpaceId (ctx : Ctx) (kv : KV) : Nat :=
  match ctx.spaceId with
  | some id => id
  | none => (ctx.space.bind fun name => (kv.get (SchemaKey.space name)).bind recordedSpaceId).getD 1

def tagIndexesOf (env : Env) (ctx : Ctx) (kv : KV) : List IndexDef :=
  ((env.arrange (kv.select indexDefsPrefix.covers)).filterMap fun entry =>
    match entry.2 with
    | .indexDef index => some index
    | _ => none).filter fun index => index.spaceId = resolvedSpaceId ctx kv ∧ index.indexType = .tag

def chosenIndex (env : Env) (ctx : Ctx) (kv : KV) (label : String) (props : List (String × Value)) :
    Option (IndexDef × List IndexValue) :=
  pickIndexPlan ((tagIndexesOf env ctx kv).filter fun index => eqIgnoreAsciiCase index.schemaName label) props

theorem answers_resolveSpaceId (ctx : Ctx) (holds : post (resolvedSpaceId ctx world.kv)) :
    (resolveSpaceId ctx).Answers (handler env) world raise post := by
  unfold resolveSpaceId
  unfold resolvedSpaceId at holds
  split
  · rename_i id given
    rw [given] at holds
    exact answers_pure holds
  · rename_i unknown
    rw [unknown] at holds
    split
    · rename_i unselected
      rw [unselected] at holds
      exact answers_pure holds
    · rename_i name selected
      rw [selected] at holds
      exact answers_bind (answers_get (answers_pure holds))

theorem mem_takeLimited (taken : entry ∈ takeLimited limit entries) : entry ∈ entries := by
  unfold takeLimited at taken
  split at taken
  · exact mem_of_mem_take taken
  · exact taken

theorem answers_lookupTag (exact : IndexExact space world.kv index)
    (short : sought.length ≤ index.fields.length) (fit : VidsFit space world.kv)
    (holds : post ((takeLimited limit (env.arrange (world.kv.select (Prefix.raw
      (indexKeyPrefix tagIndexKind index.id ++ sought.flatMap encode)).covers))).map indexedVid)) :
    (lookupTag index sought limit).Answers (handler env) world raise post := by
  refine answers_bind (answers_bind (answers_scanPrefix (answers_pure ?_)))
  rw [mapM_eq_ok (g := indexedVid) fun entry member => ?decodes]
  case decodes =>
    obtain ⟨key, value⟩ := entry
    obtain ⟨vertex, tag, stored, -, -, rfl, -⟩ := (mem_lookup exact short).mp (mem_takeLimited member)
    have fits := fit _ (Option.isSome_iff_exists.mpr ⟨_, stored⟩)
    rw [scannedVid_entry (by simp [indexValues]) fits, indexedVid_entry fits]
  exact answers_pure holds

/-- What an index is relied on for: the vertices that fit and that it holds. -/
theorem answers_indexCandidates (tidy : Tidy space world.kv) (allowed : NodeAllowed raise vertexNames node)
    (capped : Capped raise ctx space world.kv)
    (fit : tagIndexesOf env ctx.toCtx world.kv ≠ [] → VidsFit space world.kv)
    (exact : ∀ index ∈ tagIndexesOf env ctx.toCtx world.kv, IndexExact space world.kv index) :
    (indexCandidates ctx space node label props).Answers (handler env) world raise fun vids =>
      match chosenIndex env ctx.toCtx world.kv label props, vids with
      | some (index, sought), some vids => Enumerates vids fun vid =>
        NodeFits space world.kv node vid ∧ Indexed space world.kv index sought vid
      | none, none => True
      | _, _ => False := by
  refine answers_bind (answers_resolveSpaceId _ ?_)
  refine answers_bind (answers_bind (answers_bind (answers_scanPrefix (answers_pure (answers_pure ?_)))))
  generalize chosen : pickIndexPlan _ props = plan
  rw [show chosenIndex env ctx.toCtx world.kv label props = plan from chosen]
  cases plan with
  | none => exact answers_pure trivial
  | some plan =>
    obtain ⟨index, sought⟩ := plan
    obtain ⟨member, short⟩ := pickIndexPlan_spec chosen
    have own := exact index (mem_filter.mp member).1
    have fit := fit (ne_nil_of_mem (mem_filter.mp member).1)
    have listed := lookup_enumerates own short tidy fit env
    have few := length_le_vertices listed.nodup fun vid member => ((listed.mem vid).mp member).stored
    rw [length_map] at few
    refine answers_bind (answers_lookupTag own short fit ?_)
    rw [length_map]
    refine answers_seq (answers_ofExcept (limited_returns fun limited long => capped _ ⟨limited, by omega⟩)) fun _ whole => ?_
    rw [whole]
    split
    · rename_i empty
      rw [List.isEmpty_iff.mp empty] at listed
      exact answers_pure ⟨.nil, fun vid => by simp [listed.unmet vid]⟩
    · refine answers_seq (answers_validCandidates tidy allowed listed.nodup) fun vids kept =>
        answers_pure ⟨kept.nodup, fun vid => ?_⟩
      rw [kept.mem, listed.mem, and_comm]

/-- The vertex is among those that are read for the node.  With a label alone these
are the vertices of the tag, unless none of them fits; with properties and an index
for them, the vertices that the index holds. -/
def Selects (env : Env) (ctx : Ctx) (space : String) (kv : KV) (node : NodePattern) (vid : Int) : Prop :=
  node.isUnion = false → ∀ label ∈ node.labels.head?,
    ((literalProps node).isEmpty = true → (∃ other, NodeFits space kv node other ∧
      HasTag space kv other label) → HasTag space kv vid label) ∧
    ((literalProps node).isEmpty = false →
      ∀ plan ∈ chosenIndex env ctx kv label (literalProps node), Indexed space kv plan.1 plan.2 vid)

theorem answers_findNodeCandidates (tidy : Tidy space world.kv)
    (allowed : NodeAllowed raise vertexNames node) (capped : Capped raise ctx space world.kv)
    (fit : tagIndexesOf env ctx.toCtx world.kv ≠ [] → VidsFit space world.kv)
    (exact : ∀ index ∈ tagIndexesOf env ctx.toCtx world.kv, IndexExact space world.kv index) :
    (findNodeCandidates ctx space node).Answers (handler env) world raise fun vids =>
      Enumerates vids fun vid => NodeFits space world.kv node vid ∧
      Selects env ctx.toCtx space world.kv node vid := by
  have scanned : (∀ vid, Selects env ctx.toCtx space world.kv node vid) →
      (scanCandidates ctx space node).Answers (handler env) world raise fun vids =>
        Enumerates vids fun vid => NodeFits space world.kv node vid ∧ Selects env ctx.toCtx space world.kv node vid := by
    intro all
    refine answers_imp (answers_scanCandidates tidy allowed capped) fun vids listed => ⟨listed.nodup, fun vid => ?_⟩
    rw [listed.mem, and_iff_left (all vid)]
  unfold findNodeCandidates findIndexedNodeCandidates
  split
  · rename_i union
    exact scanned fun vid simple => by simp [union] at simple
  · rename_i simple
    split
    · rename_i unlabelled
      exact scanned fun vid _ label labelled => by simp [unlabelled] at labelled
    · rename_i label others labels
      have first : ∀ {holds : String → Prop}, (∀ own ∈ node.labels.head?, holds own) ↔ holds label := by
        simp [labels]
      split
      · rename_i bare
        refine answers_seq (answers_tagvidCandidates tidy allowed capped) fun vids selected => ?_
        cases vids with
        | none =>
          refine scanned fun vid _ => first.mpr ⟨?_, by simp [bare]⟩
          rintro _ ⟨other, fits, has⟩
          exact (selected other fits has).elim
        | some vids =>
          refine answers_pure ⟨selected.2.nodup, fun vid => ?_⟩
          have some' := selected.1
          simp only [selected.2.mem, Selects, simple,
            first, bare, true_implies, Bool.true_eq_false, false_implies, and_true, some']
      · rename_i propertied
        refine answers_seq (answers_indexCandidates tidy allowed capped fit exact) fun vids selected => ?_
        cases chosen : chosenIndex env ctx.toCtx world.kv label (literalProps node) with
        | none =>
          rw [chosen] at selected
          cases vids with
          | none =>
            refine scanned fun vid _ => first.mpr ⟨by simp [propertied], fun _ plan picked => ?_⟩
            simp [chosen] at picked
          | some vids => exact selected.elim
        | some plan =>
          obtain ⟨index, sought⟩ := plan
          rw [chosen] at selected
          cases vids with
          | none => exact selected.elim
          | some vids =>
            refine answers_pure ⟨selected.nodup, fun vid => ?_⟩
            rw [selected.mem]
            simp [Selects, simple, labels, propertied, chosen]

def Tally {α : Type} (fits : α → Prop) (items : List α) (count : Nat) : Prop :=
  ∃ kept : List α, kept.Sublist items ∧ (∀ item, item ∈ kept ↔ item ∈ items ∧ fits item) ∧ count = kept.length

section

variable {α : Type} {fits : α → Prop}

theorem Tally.nil : Tally fits [] 0 := ⟨[], .refl _, by simp, rfl⟩

theorem Tally.append (first : Tally fits items count) (second : Tally fits more further) :
    Tally fits (items ++ more) (count + further) := by
  obtain ⟨kept, inside, mem, rfl⟩ := first
  obtain ⟨kept', inside', mem', rfl⟩ := second
  refine ⟨kept ++ kept', inside.append inside', fun item => ?_, by simp⟩
  rw [mem_append, mem_append, mem, mem', or_and_right]

theorem Tally.one (fit : fits item) : Tally fits [item] 1 :=
  ⟨[item], .refl _, fun other => by simp only [mem_singleton]; exact ⟨fun same => ⟨same, same ▸ fit⟩, And.left⟩, rfl⟩

theorem Tally.zero (unfit : ¬ fits item) : Tally fits [item] 0 :=
  ⟨[], nil_sublist _, fun other => by
    simp only [not_mem_nil, mem_singleton, false_iff, not_and]
    rintro rfl
    exact unfit, rfl⟩

def HasCount (fits : α → Prop) (count : Nat) : Prop := ∃ items, Enumerates items fits ∧ count = items.length

theorem HasCount.congr (counts : HasCount fits count) (same : ∀ item, fits item ↔ fits' item) : HasCount fits' count := by
  obtain ⟨items, listed, rfl⟩ := counts
  exact ⟨items, ⟨listed.nodup, fun item => (listed.mem item).trans (same item)⟩, rfl⟩

theorem Tally.counts (tally : Tally fits items count) (nodup : items.Nodup) :
    HasCount (fun item => item ∈ items ∧ fits item) count := by
  obtain ⟨kept, inside, mem, same⟩ := tally
  exact ⟨kept, ⟨nodup.sublist inside, mem⟩, same⟩

end

theorem answers_spaceVidType (type : vidTypeAt space world.kv = some vidType)
    (holds : post vidType) : (spaceVidType space).Answers (handler env) world raise post := by
  refine answers_bind (answers_get ?_)
  unfold vidTypeAt at type
  cases found : world.kv.get (.space space) with
  | none =>
    rw [found] at type
    cases type
    exact answers_pure holds
  | some value =>
    rw [found] at type
    cases value with
    | space record =>
      cases declared : record.vidType <;> simp only [declared] at type ⊢ <;> cases type <;> exact answers_pure holds
    | _ => cases type

section

variable (tidy : Tidy space world.kv) (allowed : NodeAllowed raise vertexNames node)
  (shown : ∀ vid, NodeFits space world.kv node vid →
    (displayVid space vidType vid).Answers (handler env) world raise fun _ => True)

include tidy allowed shown

theorem answers_countNode (vid : Int) (count : Nat) :
    (countNode space vidType node count (vid, world.kv.get (vertex space vid))).Answers (handler env) world raise
      fun counted => ∃ here, Tally (NodeFits space world.kv node) [vid] here ∧ counted = count + here := by
  unfold countNode
  cases found : world.kv.get (vertex space vid) with
  | none => exact answers_pure ⟨0, .zero (by simp [NodeFits, found]), rfl⟩
  | some value =>
    refine answers_seq (answers_ofExcept (matchesNode_returns tidy allowed found)) fun result same => ?_
    cases result with
    | false => exact answers_pure ⟨0, .zero fun fits => by simpa using same.mpr fits, rfl⟩
    | true => exact answers_seq (shown vid (same.mp rfl)) fun _ _ => answers_pure ⟨1, .one (same.mp rfl), rfl⟩

theorem answers_countValidTagvidChunk (vids : List Int) :
    (countValidTagvidChunk space vidType node vids).Answers (handler env) world raise
      (Tally (NodeFits space world.kv node) vids) := by
  refine answers_bind (answers_batchGet ?_)
  rw [map_map, ← map_prod_left_eq_zip, foldlM_map]
  refine answers_imp (answers_foldlM (fun rest count => ∃ done, done ++ rest = vids ∧
    Tally (NodeFits space world.kv node) done count) ⟨[], rfl, .nil⟩ ?_) ?_
  · rintro vid rest count ⟨done, rfl, tally⟩
    refine answers_imp (answers_countNode tidy allowed shown vid count) ?_
    rintro _ ⟨here, single, rfl⟩
    exact ⟨done ++ [vid], by simp, tally.append single⟩
  · rintro count ⟨done, rfl, tally⟩
    rwa [append_nil]

omit tidy allowed shown in
theorem checkCounted_returns {entries : List (Key × Val)}
    (few : entries.length ≤ (world.kv.select (text (vertexScope space)).covers).length)
    (within : count ≤ entries.length)
    (capped : Capped raise ctx space world.kv) :
    Returns raise (fun _ => True) (checkCandidateScanSize ctx count operation) := by
  unfold checkCandidateScanSize
  split
  · rename_i past
    exact capped _ ⟨past.1, by omega⟩
  · trivial

variable (capped : Capped raise ctx space world.kv)

include capped

theorem answers_countTagvids {entries : List (Key × Val)}
    (own : ∀ entry ∈ entries, entry.1 = tagvid space label (entryVid entry))
    (few : entries.length ≤ (world.kv.select (text (vertexScope space)).covers).length) :
    (entries.foldlM (countTagvidEntry ctx space label vidType node) ⟨0, 0, []⟩).Answers
      (handler env) world raise fun tally => ∃ counted, entries.map entryVid =
      counted ++ tally.pending ∧ Tally (NodeFits space world.kv node) counted tally.count := by
  refine answers_imp (answers_foldlM (fun rest tally => ∃ done, done ++ rest = entries ∧ tally.rawCount = done.length ∧
    ∃ counted, done.map entryVid = counted ++ tally.pending ∧ Tally (NodeFits space world.kv node) counted tally.count)
    ⟨[], rfl, rfl, [], rfl, .nil⟩ ?_) ?_
  · rintro entry rest tally ⟨done, whole, raw, counted, vids, known⟩
    have length := congrArg List.length whole
    rw [length_append, length_cons] at length
    refine answers_seq (answers_ofExcept (checkCounted_returns few (by omega) capped)) fun _ _ => ?_
    rw [own entry (by rw [← whole]; simp), decodeCandidateVid_tagvid]
    refine answers_bind (answers_pure ?_)
    have grown : (done ++ [entry]).map entryVid = counted ++ (tally.pending ++ [entryVid entry]) := by
      rw [map_append, vids, append_assoc]
      rfl
    have next : done ++ [entry] ++ rest = entries := by rw [← whole, append_assoc]; rfl
    dsimp only
    split
    · refine answers_seq (answers_countValidTagvidChunk tidy allowed shown _) fun here tallied => answers_pure ?_
      exact ⟨done ++ [entry], next, by simp [raw], _, by rw [grown, append_nil], known.append tallied⟩
    · exact answers_pure ⟨done ++ [entry], next, by simp [raw], counted, grown, known⟩
  · rintro tally ⟨done, whole, -, counted, vids, known⟩
    rw [append_nil] at whole
    exact ⟨counted, whole ▸ vids, known⟩

theorem answers_countByTagvid (type : vidTypeAt space world.kv = some vidType) (label : String) :
    (countByTagvid ctx space label node).Answers (handler env) world raise
      (HasCount fun vid => NodeFits space world.kv node vid ∧ HasTag space world.kv vid label) := by
  have listed := tidy.tagvids_enumerate env label
  have few := length_le_vertices listed.nodup fun vid member => ((listed.mem vid).mp member).stored
  rw [length_map] at few
  have own : ∀ entry ∈ env.arrange (world.kv.select (text (tagvidScope space label)).covers),
      entry.1 = tagvid space label (entryVid entry) := by
    intro entry member
    obtain ⟨vid, -, own, -⟩ := tidy.mem_tagvids.mp member
    rw [own, entryVid, own]
    rfl
  have finish : ∀ {count : Nat}, Tally (NodeFits space world.kv node)
      ((env.arrange (world.kv.select (text (tagvidScope space label)).covers)).map entryVid) count →
      HasCount (fun vid => NodeFits space world.kv node vid ∧ HasTag space world.kv vid label) count :=
    fun tally => (tally.counts listed.nodup).congr fun vid => by rw [listed.mem, and_comm]
  refine answers_bind (answers_scanPrefix (answers_bind (answers_spaceVidType type ?_)))
  refine answers_seq (answers_countTagvids tidy allowed shown capped own
    (by rwa [(env.arrange_perm _).length_eq] at few ⊢)) fun tally counted => ?_
  obtain ⟨counted, vids, known⟩ := counted
  split
  · rename_i empty
    rw [List.isEmpty_iff.mp empty, append_nil] at vids
    exact answers_pure (finish (vids ▸ known))
  · refine answers_seq (answers_countValidTagvidChunk tidy allowed shown tally.pending) fun here tallied => answers_pure ?_
    exact finish (vids ▸ known.append tallied)

theorem answers_countByScan (type : vidTypeAt space world.kv = some vidType) :
    (countByScan ctx space node).Answers (handler env) world raise (HasCount (NodeFits space world.kv node)) := by
  refine answers_bind (answers_scanPrefix (answers_bind (answers_spaceVidType type ?_)))
  have length := (env.arrange_perm (world.kv.select (text (vertexScope space)).covers)).length_eq
  refine answers_seq (answers_foldlM (fun rest tally => ∃ done, done ++ rest =
      env.arrange (world.kv.select (text (vertexScope space)).covers) ∧ tally.1 = done.length ∧
      Tally (NodeFits space world.kv node) (done.map entryVid) tally.2) ⟨[], rfl, rfl, .nil⟩ ?_) ?_
  · rintro entry rest ⟨scanned, count⟩ ⟨done, whole, raw, known⟩
    dsimp only at raw known
    have lengths := congrArg List.length whole
    rw [length_append, length_cons] at lengths
    obtain ⟨vertex, found, rfl⟩ := tidy.mem_vertices.mp (by rw [← whole]; simp : entry ∈ _)
    refine answers_seq (answers_ofExcept (checkCounted_returns length.le (by omega) capped)) fun _ _ => ?_
    rw [decodeCandidateVid_vertex]
    refine answers_bind (answers_pure ?_)
    have counts := answers_countNode tidy allowed shown vertex.vid count
    rw [found] at counts
    refine answers_seq counts fun counted tallied => answers_pure ?_
    obtain ⟨here, single, rfl⟩ := tallied
    refine ⟨done ++ [_], by rw [append_assoc]; exact whole, by simp [raw], ?_⟩
    rw [map_append]
    exact known.append single
  · rintro ⟨scanned, count⟩ ⟨done, whole, -, known⟩
    rw [append_nil] at whole
    have listed := tidy.vertices_enumerate env
    rw [← whole] at listed
    refine answers_pure ((known.counts listed.nodup).congr fun vid => ?_)
    rw [listed.mem]
    exact ⟨And.right, fun fits => ⟨fits.stored, fits⟩⟩

def Tallies (space : String) (kv : KV) (node : NodePattern) (vid : Int) : Prop :=
  node.props = [] → node.isUnion = false → ∀ label ∈ node.labels.head?,
    (∃ other, NodeFits space kv node other ∧ HasTag space kv other label) → HasTag space kv vid label

theorem answers_countNodeMatchesBounded (type : vidTypeAt space world.kv = some vidType) :
    (countNodeMatchesBounded ctx space node).Answers (handler env) world raise
      (HasCount fun vid => NodeFits space world.kv node vid ∧ Tallies space world.kv node vid) := by
  have scanned : (∀ vid, Tallies space world.kv node vid) → (countByScan ctx space node).Answers (handler env) world raise
      (HasCount fun vid => NodeFits space world.kv node vid ∧ Tallies space world.kv node vid) := by
    intro all
    refine answers_imp (answers_countByScan tidy allowed shown capped type) ?_
    exact fun count counts => counts.congr fun vid => by rw [and_iff_left (all vid)]
  unfold countNodeMatchesBounded
  split
  · rename_i label others bare simple labels
    refine answers_seq (answers_countByTagvid tidy allowed shown capped type label) fun count counted => ?_
    obtain ⟨vids, listed, same⟩ := counted
    split
    · obtain ⟨vid, member⟩ := exists_mem_of_length_pos (by omega : 0 < vids.length)
      have found : ∃ other, NodeFits space world.kv node other ∧ HasTag space world.kv other label :=
        ⟨vid, (listed.mem vid).mp member⟩
      refine answers_pure ⟨vids, ⟨listed.nodup, fun vid => ?_⟩, same⟩
      rw [listed.mem]
      simp only [Tallies, bare, simple, labels, List.head?_cons,
        Option.mem_def, Option.some.injEq, forall_eq', true_implies, found]
    · refine scanned fun vid _ _ => ?_
      simp only [labels, List.head?_cons, Option.mem_def, Option.some.injEq, forall_eq']
      rintro ⟨other, holds⟩
      rw [eq_nil_of_length_eq_zero (by omega : vids.length = 0)] at listed
      exact (listed.unmet other holds).elim
  · rename_i other
    refine scanned fun vid bare simple label labelled => ?_
    obtain ⟨others, labels⟩ := List.head?_eq_some_iff.mp labelled
    exact (other label others bare simple labels).elim

end

end ByoriDB.Executor
