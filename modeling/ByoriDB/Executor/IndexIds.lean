import ByoriDB.Executor.IndexDdl
import ByoriDB.Executor.Runs
import ByoriDB.Executor.Sessions

namespace ByoriDB.Executor

open List Data Program Store ByoriDB.Graph

def Defines (kv : KV) (index : IndexDef) : Prop :=
  ∃ key, indexDefsPrefix.covers key = true ∧ kv.get key = some (.indexDef index)

/-- Definitions stand under their own keys and have different ids. -/
structure DistinctIds (kv : KV) : Prop where
  keyed : ∀ {key index}, indexDefsPrefix.covers key = true → kv.get key = some (.indexDef index) →
    key = indexDef index.spaceId index.id
  narrow : ∀ {index}, Defines kv index → index.id < 4294967296
  distinct : ∀ {a b}, Defines kv a → Defines kv b → a.id = b.id → a = b

/-- The largest 32-bit number is not in use. -/
def hasRoom (kv : KV) : Bool :=
  (kv.select indexDefsPrefix.covers).all fun entry =>
    match entry.2 with
    | .indexDef index => index.id + 1 < 4294967296
    | _ => true

theorem lt_of_hasRoom (room : hasRoom kv = true) (found : Defines kv index) : index.id + 1 < 4294967296 := by
  obtain ⟨key, covered, stored⟩ := found
  simpa using all_eq_true.mp room _ (mem_select.mpr ⟨stored, covered⟩)

theorem le_foldl_max (loaded : List IndexDef) (start : Nat) :
    start ≤ loaded.foldl (fun largest index => max largest index.id) start ∧ ∀ index ∈ loaded,
      index.id ≤ loaded.foldl (fun largest index => max largest index.id) start := by
  induction loaded generalizing start with
  | nil => simp
  | cons first rest ih =>
    obtain ⟨above, listed⟩ := ih (max start first.id)
    refine ⟨le_trans (Nat.le_max_left _ _) above, ?_⟩
    rintro index (_ | ⟨_, mem⟩)
    · exact le_trans (Nat.le_max_right _ _) above
    · exact listed index mem

theorem foldl_max_lt (loaded : List IndexDef) (start : Nat) (small : start < bound)
    (room : ∀ index ∈ loaded, index.id < bound) :
    loaded.foldl (fun largest index => max largest index.id) start < bound := by
  induction loaded generalizing start with
  | nil => exact small
  | cons first rest ih =>
    exact ih _ (Nat.max_lt.mpr ⟨small, room first mem_cons_self⟩) fun index mem =>
      room index (mem_cons_of_mem _ mem)

theorem nextIndexId_spec (room : ∀ index ∈ loaded, index.id + 1 < 4294967296) :
    nextIndexId loaded < 4294967296 ∧ ∀ index ∈ loaded, index.id < nextIndexId loaded := by
  unfold nextIndexId
  split
  · next empty => simp [empty]
  · have bound : maxIndexId loaded < 4294967295 :=
      foldl_max_lt loaded 0 (by omega) fun index mem => by have := room index mem; omega
    refine ⟨by omega, fun index mem => ?_⟩
    have below : index.id ≤ maxIndexId loaded := (le_foldl_max loaded 0).2 index mem
    omega

theorem indexDef_ne_inferenceDirty (spaceId id : Nat) (space : String) :
    inferenceDirty space ≠ indexDef spaceId id := by
  simp [inferenceDirty, indexDef]

/-- The number of a definition is drawn when the others are loaded, and put to use when it is stored. -/
def indexTickets : Tickets (signature Key Val) World Nat where
  number
    | .kv (.put _ (.indexDef index)) => some index.id
    | _ => none
  draws := fun _ => true
  live := fun world id => ∃ index, Defines world.kv index ∧ index.id = id
  taken := fun _ _ => False
  inv := fun world => DistinctIds world.kv
  fair := fun world => hasRoom world.kv = true
  grows := StaysClean
  grows_refl := fun _ _ => id
  grows_trans := fun first second space clean => second space (first space clean)

variable {env : Env}

theorem effect_of_removes {before after : World} (holds : DistinctIds before.kv)
    (removes : ∀ segments, after.kv.get (.text segments) = before.kv.get (.text segments) ∨
      after.kv.get (.text segments) = none) : indexTickets.Effect op before after := by
  have kept : ∀ {key : Key} {index : IndexDef}, indexDefsPrefix.covers key = true →
      after.kv.get key = some (.indexDef index) → before.kv.get key = some (.indexDef index) := by
    intro key index covered stored
    obtain ⟨rest, -, rfl⟩ := covers_text.mp covered
    rcases removes ([.word "__meta", .word "index_def"] ++ rest) with same | gone
    · rwa [same] at stored
    · rw [gone] at stored
      cases stored
  have defined : ∀ {index : IndexDef}, Defines after.kv index → Defines before.kv index :=
    fun ⟨key, covered, stored⟩ => ⟨key, covered, kept covered stored⟩
  refine ⟨⟨?_, ?_, ?_⟩, ?_, ?_, fun _ _ => .rfl⟩
  · exact fun covered stored => holds.keyed covered (kept covered stored)
  · exact fun found => holds.narrow (defined found)
  · exact fun first second => holds.distinct (defined first) (defined second)
  · intro space clean
    rcases removes [.word space, .word "inference", .word "dirty"] with same | gone
    · exact same.trans clean
    · exact gone
  · exact fun number ⟨index, found, same⟩ => .inl ⟨index, defined found, same⟩

theorem harmless_delete : Prog.Harmless indexTickets (handler env) (.kv (.delete key)) := by
  refine ⟨rfl, fun world holds => effect_of_removes holds fun segments => ?_⟩
  rw [World.handler_delete]
  rw [get_erase]
  split
  · exact .inr rfl
  · exact .inl rfl

theorem harmless_batchPut (binary : ∀ pair ∈ pairs, ∃ bytes, pair.1 = .raw bytes) :
    Prog.Harmless indexTickets (handler env) (.kv (.batchPut pairs)) := by
  refine ⟨rfl, fun world holds => effect_of_removes holds fun segments => .inl ?_⟩
  change (world.content.perform env.toLayout (.batchPut pairs)).2.kv.get _ = _
  refine Content.get_perform ?_
  simp only [KvOp.touched, KvOp.written, map_map, append_nil, mem_map, Function.comp_apply, not_exists, not_and]
  intro pair listed same
  obtain ⟨bytes, raw⟩ := binary pair listed
  cases raw.symm.trans same

theorem effect_persist (holds : DistinctIds before.kv) (narrow : index.id < 4294967296)
    (unused : ¬indexTickets.live before index.id) :
    indexTickets.Effect (.kv (.put (indexDef index.spaceId index.id) (.indexDef index))) before
      (handler env (.kv (.put (indexDef index.spaceId index.id) (.indexDef index))) before).2 := by
  rw [handler_put]
  have stored : ∀ {key : Key} {other : IndexDef}, indexDefsPrefix.covers key = true →
      (before.kv.insert (indexDef index.spaceId index.id) (.indexDef index)).get key = some (.indexDef other) →
      (key = indexDef index.spaceId index.id ∧ other = index) ∨ before.kv.get key = some (.indexDef other) := by
    intro key other covered found
    rw [get_insert] at found
    split at found
    · next same => cases found; exact .inl ⟨same, rfl⟩
    · exact .inr found
  have defined : ∀ {other : IndexDef},
      Defines (before.kv.insert (indexDef index.spaceId index.id) (.indexDef index)) other →
      other = index ∨ Defines before.kv other := by
    rintro other ⟨key, covered, found⟩
    exact (stored covered found).imp And.right fun found => ⟨key, covered, found⟩
  refine ⟨⟨?_, ?_, ?_⟩, ?_, ?_, fun _ _ => .rfl⟩
  · intro key other covered found
    rcases stored covered found with ⟨rfl, rfl⟩ | found
    · rfl
    · exact holds.keyed covered found
  · intro other found
    rcases defined found with rfl | found
    · exact narrow
    · exact holds.narrow found
  · intro a b first second same
    rcases defined first with new | old <;> rcases defined second with new' | old'
    · exact new.trans new'.symm
    · exact absurd ⟨b, old', by rw [← same, new]⟩ unused
    · exact absurd ⟨a, old, by rw [same, new']⟩ unused
    · exact holds.distinct old old' same
  · intro space clean
    rw [get_insert, if_neg (indexDef_ne_inferenceDirty _ _ _), clean]
  · rintro number ⟨other, found, rfl⟩
    rcases defined found with rfl | found
    · exact .inr rfl
    · exact .inl ⟨other, found, rfl⟩

theorem raw_of_mem_tagBackfill (listed : pair ∈ tagBackfill indexId tagName fields row) :
    ∃ bytes, pair.1 = .raw bytes := by
  revert listed
  fun_cases tagBackfill indexId tagName fields row with
  | case2 vid nonzero vertex stored =>
    intro listed
    obtain ⟨tag, -, rfl⟩ := mem_map.mp listed
    exact ⟨_, rfl⟩
  | _ => exact nofun

theorem raw_of_mem_edgeBackfill (listed : pair ∈ edgeBackfill indexId edgeName fields row) :
    ∃ bytes, pair.1 = .raw bytes := by
  unfold edgeBackfill at listed
  split at listed
  · split at listed
    · cases mem_singleton.mp listed
      exact ⟨_, rfl⟩
    · cases listed
  · cases listed

variable {world : World}

theorem draws_resolveSpaceId :
    (resolveSpaceId ctx).Draws indexTickets (handler env) (fun _ _ _ => True) held world := by
  unfold resolveSpaceId
  split
  · trivial
  · split
    · trivial
    · exact draws_read rfl (fun _ => rfl) fun _ _ _ _ => trivial

theorem draws_registerIndex (indexType : IndexType) :
    (registerIndex indexType spaceId name schemaName fields).Draws indexTickets (handler env)
      (fun _ _ _ => True) held world := by
  refine draws_bind (draws_read rfl (fun _ => rfl) fun state _ _ room => ?_)
  rw [World.handler_scanPrefix]
  generalize defs : ((env.arrange _).filterMap _ : List IndexDef) = loaded
  have listed : ∀ index, index ∈ loaded ↔ Defines state.kv index := by
    intro index
    rw [← defs, mem_filterMap]
    constructor
    · rintro ⟨⟨key, value⟩, scanned, decoded⟩
      obtain ⟨stored, covered⟩ := mem_scan.mp scanned
      cases value <;> cases decoded
      exact ⟨key, covered, stored⟩
    · rintro ⟨key, covered, stored⟩
      exact ⟨(key, .indexDef index), mem_scan.mpr ⟨stored, covered⟩, rfl⟩
  obtain ⟨narrow, fresh⟩ := nextIndexId_spec fun index mem => lt_of_hasRoom room ((listed index).mp mem)
  refine draws_pure ?_
  split
  · trivial
  · refine ⟨?_, by rintro ⟨⟩, fun later _ holds _ valid => ⟨effect_persist holds narrow (valid _ rfl).1, trivial⟩⟩
    intro number own
    cases own
    refine ⟨?_, by simp [indexTickets]⟩
    rintro ⟨index, found, same⟩
    exact absurd same (Nat.ne_of_lt (fresh index ((listed index).mpr found)))

theorem draws_backfill (binary : ∀ row, ∀ pair ∈ entriesOf row, ∃ bytes, pair.1 = .raw bytes) :
    (backfill scope entriesOf).Draws indexTickets (handler env) (fun _ _ _ => True) held world := by
  refine draws_read rfl (fun _ => rfl) fun state _ _ _ => ?_
  refine draws_of_only (only_forM _ fun chunk listed => only_perform (harmless_batchPut ?_)) fun _ _ _ _ => trivial
  intro pair mem
  obtain ⟨row, -, entry⟩ := mem_flatMap.mp (mem_of_mem_toChunks listed mem)
  exact binary row pair entry

theorem draws_dropIndexWithData
    (missing : ∀ held state, notFound.Draws indexTickets (handler env) (fun _ _ _ => True) held state) :
    (dropIndexWithData notFound spaceId name).Draws indexTickets (handler env) (fun _ _ _ => True) held world := by
  refine draws_bind (draws_read rfl (fun _ => rfl) fun state _ _ _ => ?_)
  refine draws_pure ?_
  split
  · exact missing _ _
  · refine draws_read rfl (fun _ => rfl) fun state _ _ _ => ?_
    refine draws_of_only (only_bind (only_forM _ fun _ _ => only_perform harmless_delete) fun _ => ?_)
      fun _ _ _ _ => trivial
    exact only_bind (only_perform harmless_delete) fun _ => trivial

theorem draws_program (layout : Layout Key Val) (request : IndexRequest) :
    (request.program layout fuel).Draws indexTickets (handler env) (fun _ _ _ => True) held world := by
  obtain ⟨ctx, statement⟩ := request
  have selected : ∀ (rest : String → Exec Response) (held : Option Nat) (state : World),
      (∀ space held state, (rest space).Draws indexTickets (handler env) (fun _ _ _ => True) held state) →
      (ctx.requireSpace >>= rest).Draws indexTickets (handler env) (fun _ _ _ => True) held state := by
    intro rest held state follows
    unfold Ctx.requireSpace
    cases ctx.space with
    | none => trivial
    | some space => exact follows space held state
  refine draws_execute (by cases statement <;> rfl) (by cases statement <;> rfl) (fun grown => grown) (fun _ => rfl) ?_
  intro held state
  cases statement with
  | createTagIndex name of fields | createEdgeIndex name of fields =>
    refine selected _ held state fun space held state => ?_
    refine draws_bind (draws_mono draws_resolveSpaceId fun spaceId held state _ => ?_)
    refine draws_bind (draws_mono (draws_registerIndex ..) fun indexId held state _ => ?_)
    refine draws_bind (draws_mono (draws_backfill fun row pair listed => ?_) fun _ _ _ _ => trivial)
    first | exact raw_of_mem_tagBackfill listed | exact raw_of_mem_edgeBackfill listed
  | dropTagIndex name ifExists | dropEdgeIndex name ifExists =>
    refine selected _ held state fun space held state => ?_
    refine draws_bind (draws_mono draws_resolveSpaceId fun spaceId held state _ => ?_)
    refine draws_dropIndexWithData fun held state => ?_
    cases ifExists <;> trivial

theorem indexPrefix_disjoint (narrow : a.id < 4294967296) (narrow' : b.id < 4294967296) (differ : a.id ≠ b.id)
    (key : Key) : ¬((indexPrefix a).covers key = true ∧ (indexPrefix b).covers key = true) := by
  rintro ⟨first, second⟩
  cases key with
  | text segments => cases first
  | raw own =>
    obtain ⟨rest, longer⟩ := List.isPrefixOf_iff_prefix.mp first
    obtain ⟨rest', longer'⟩ := List.isPrefixOf_iff_prefix.mp second
    obtain ⟨same, -⟩ := append_inj (longer.trans longer'.symm) (by simp [KeyUtils.indexPrefix])
    have digits := (List.cons.inj (append_cancel_left same)).2
    have numbers := congrArg Bytes.ofBigEndian digits
    rw [Bytes.ofBigEndian_bigEndian narrow, Bytes.ofBigEndian_bigEndian narrow'] at numbers
    exact differ numbers

/-- The statement has read the definitions and picked an id, and comes to store its own definition. -/
def isPersisting : Exec Response → Bool
  | .call (.kv (.put _ (.indexDef _))) _ => true
  | _ => false

/-- No two statements have picked ids at the same time, and the ids are not used up. -/
def undisturbed (sessions : Sessions IndexRequest) : Bool :=
  hasRoom sessions.state.kv && sessions.calls.Pairwise fun a b => ¬(isPersisting a.2 ∧ isPersisting b.2)

theorem isDrawing_eq (p : Exec Response) : p.isDrawing indexTickets = isPersisting p := by
  rcases p with _ | _ | ⟨op, next⟩
  · rfl
  · rfl
  · rcases op with op | _
    · cases op with
      | put key value => cases value <;> rfl
      | _ => rfl
    · rfl

/-- Index statements of any sessions, on any spaces and in any order. -/
theorem indexIds_distinct (layout : Layout Key Val) (fuel : Nat) {world : World} {sessions : Sessions IndexRequest}
    (initially : DistinctIds world.kv) (room : hasRoom world.kv = true)
    (reached : Pool.ReachesWithin (handler env) (IndexRequest.program layout fuel)
      (fun sessions => undisturbed sessions = true) ⟨world, []⟩ sessions)
    {a b : IndexDef} (first : Defines sessions.state.kv a) (second : Defines sessions.state.kv b) (differ : a ≠ b) :
    a.id ≠ b.id ∧ ∀ key, ¬((indexPrefix a).covers key = true ∧ (indexPrefix b).covers key = true) := by
  have scheduled : ∀ sessions : Sessions IndexRequest, undisturbed sessions = true →
      Pool.Scheduled indexTickets (fun _ => True) sessions := by
    intro sessions ok
    obtain ⟨room, apart⟩ := Bool.and_eq_true_iff.mp ok
    refine ⟨room, fun _ _ => trivial, (of_decide_eq_true apart).imp ?_⟩
    intro a b apart
    rwa [isDrawing_eq, isDrawing_eq]
  have empty : Pool.Orderly indexTickets (handler env) (⟨world, []⟩ : Sessions IndexRequest) :=
    ⟨initially, by simp, .nil⟩
  have orderly : Pool.Orderly indexTickets (handler env) sessions :=
    Pool.orderly_of_reachesWithin scheduled (fun request _ _ _ => draws_program layout request) empty room reached
  have holds : DistinctIds sessions.state.kv := orderly.inv
  have ids : a.id ≠ b.id := fun same => differ (holds.distinct first second same)
  exact ⟨ids, indexPrefix_disjoint (holds.narrow first) (holds.narrow second) ids⟩

def twoSpaces : World where
  content := ⟨Table.ofList [
    (SchemaKey.space "g", .space ⟨1, "g", .int64⟩),
    (SchemaKey.space "h", .space ⟨2, "h", .int64⟩)], .empty⟩
  lastTx := 0
  readings := 0

def personIndex (space name : String) : IndexRequest :=
  ⟨{ graphCtx with space := some space }, .createTagIndex name "person" ["name"]⟩

def idsInUse (world : World) : List (Nat × Nat) :=
  (world.kv.select indexDefsPrefix.covers).filterMap fun entry =>
    match entry.2 with
    | .indexDef index => some (index.spaceId, index.id)
    | _ => none

theorem exists_defines (spaceId id : Nat) (used : (spaceId, id) ∈ idsInUse world) :
    ∃ index, Defines world.kv index ∧ index.spaceId = spaceId ∧ index.id = id := by
  obtain ⟨⟨key, value⟩, selected, decoded⟩ := mem_filterMap.mp used
  obtain ⟨stored, covered⟩ := mem_select.mp selected
  cases value <;> cases decoded
  exact ⟨_, ⟨key, covered, stored⟩, rfl, rfl⟩

theorem distinctIds_twoSpaces : DistinctIds twoSpaces.kv := by
  have undefined : ∀ index, ¬Defines twoSpaces.kv index := by
    rintro index ⟨key, covered, stored⟩
    have none : twoSpaces.kv.select indexDefsPrefix.covers = [] := by decide +kernel
    have listed := mem_select.mpr ⟨stored, covered⟩
    cases listed
  exact ⟨fun covered stored => absurd ⟨_, covered, stored⟩ (undefined _), fun found => absurd found (undefined _),
    fun found => absurd found (undefined _)⟩

def indexPlay (ok : Sessions IndexRequest → Bool) (turns : List (Pool.Turn IndexRequest)) : Option (Sessions IndexRequest) :=
  Pool.play (handler graphEnv) (IndexRequest.program recordLayout 0) ok turns ⟨twoSpaces, []⟩

def personIndexes : List (Pool.Turn IndexRequest) :=
  [.begin (personIndex "g" "byName"), .begin (personIndex "h" "byName")]

/-- Two statements that overlap, but pick their ids one after the other. -/
theorem indexIds_distinct_twoSpaces :
    ∃ sessions a b, indexPlay undisturbed (personIndexes ++ [0, 1, 1, 0, 1, 1, 0, 0].map .advance) =
      some sessions ∧ Defines sessions.state.kv a ∧ Defines sessions.state.kv b ∧ a.id ≠ b.id := by
  have played : ((indexPlay undisturbed (personIndexes ++ [0, 1, 1, 0, 1, 1, 0, 0].map .advance)).map fun sessions =>
      idsInUse sessions.state) = some [(1, 1), (2, 2)] := by decide +kernel
  obtain ⟨sessions, ends, used⟩ := Option.map_eq_some_iff.mp played
  obtain ⟨a, first, space, id⟩ := exists_defines 1 1 (used ▸ by decide : (1, 1) ∈ idsInUse sessions.state)
  obtain ⟨b, second, space', id'⟩ := exists_defines 2 2 (used ▸ by decide : (2, 2) ∈ idsInUse sessions.state)
  have differ : a ≠ b := by
    rintro rfl
    omega
  refine ⟨sessions, a, b, ends, first, second, ?_⟩
  exact (indexIds_distinct recordLayout 0 distinctIds_twoSpaces (by decide +kernel) (Pool.reachesWithin_of_play ends)
    first second differ).1

/-- Two sessions that hold the locks of their own spaces: both read the definitions
before either of them stores its own. -/
theorem indexIds_collide : ∃ sessions, Pool.ReachesWithin (handler graphEnv) (IndexRequest.program recordLayout 0)
        (fun sessions => locked (fun request => request.ctx.space) sessions = true) ⟨twoSpaces, []⟩ sessions ∧
      ∃ a b, Defines sessions.state.kv a ∧ Defines sessions.state.kv b ∧ a ≠ b ∧ a.id = b.id := by
  have played : ((indexPlay (locked fun request => request.ctx.space) (personIndexes ++ [0,
    0, 0, 1, 1, 1, 0, 1].map .advance)).map fun sessions =>
      idsInUse sessions.state) = some [(1, 1), (2, 1)] := by decide +kernel
  obtain ⟨sessions, ends, used⟩ := Option.map_eq_some_iff.mp played
  refine ⟨sessions, Pool.reachesWithin_of_play ends, ?_⟩
  obtain ⟨a, first, space, id⟩ := exists_defines 1 1 (used ▸ by decide : (1, 1) ∈ idsInUse sessions.state)
  obtain ⟨b, second, space', id'⟩ := exists_defines 2 1 (used ▸ by decide : (2, 1) ∈ idsInUse sessions.state)
  refine ⟨a, b, first, second, ?_, id.trans id'.symm⟩
  rintro rfl
  omega

end ByoriDB.Executor
