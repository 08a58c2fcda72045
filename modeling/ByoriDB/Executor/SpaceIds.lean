import Mathlib
import ByoriDB.Executor.Runs
import ByoriDB.Executor.Sessions

/-! A new space takes its id from a counter that is read and written in separate operations. -/

namespace ByoriDB.Executor

open List hiding keys
open Data Program Store ByoriDB.Graph

inductive SpaceStatement where
  | createSpace (name : String) (ifNotExists : Bool) (vidType : VidTypeText)
  | dropSpace (name : String) (ifExists : Bool)

structure SpaceRequest where
  ctx : Ctx
  statement : SpaceStatement

def SpaceStatement.plan : SpaceStatement → Plan
  | .createSpace name ifNotExists vidType => .createSpace name ifNotExists vidType
  | .dropSpace name ifExists => .dropSpace name ifExists

def SpaceRequest.program (layout : Layout Key Val) (fuel : Nat) (request : SpaceRequest) : Exec Response :=
  execute layout fuel request.ctx request.statement.plan

def SpaceRequest.lock (request : SpaceRequest) : Option String :=
  (inferenceScope request.ctx request.statement.plan).map Prod.fst

/-- A space of this name would hold the counter among its data. -/
def SpaceRequest.sparesCounter (request : SpaceRequest) : Bool :=
  match request.statement with
  | .dropSpace name _ => name ≠ "__meta"
  | .createSpace _ _ _ => true

def spaceCounter (kv : KV) : Nat := storedSpaceId (kv.get nextSpaceId)

def Recorded (kv : KV) (name : String) (record : SpaceRecord) : Prop :=
  kv.get (SchemaKey.space name) = some (.space record)

/-- Spaces have different ids, and the counter has passed all of them. -/
structure DistinctSpaces (kv : KV) : Prop where
  below : ∀ {name record}, Recorded kv name record → record.id < spaceCounter kv
  distinct : ∀ {name name' record record'}, Recorded kv name record → Recorded kv name' record' → record.id = record'.id →
    name = name'

theorem storedSpaceId_text {id : Nat} (small : id < 4294967296) : storedSpaceId (some (.text (toString id))) = id := by
  simp [storedSpaceId, Nat.toNat?_repr, Option.filter, small]

/-- The id is drawn when the counter is read, marked when the counter is stored, and
put to use with the record of the space. -/
def spaceTickets : Tickets (signature Key Val) World Nat where
  number
    | .kv (.put _ (.text digits)) => some (storedSpaceId (some (.text digits)) - 1)
    | .kv (.put _ (.space record)) => some record.id
    | _ => none
  draws
    | .kv (.put _ (.text _)) => true
    | _ => false
  live := fun world id => ∃ name record, Recorded world.kv name record ∧ record.id = id
  taken := fun world id => id < spaceCounter world.kv
  inv := fun world => DistinctSpaces world.kv
  fair := fun world => spaceCounter world.kv + 1 < 4294967296
  grows := fun before after => StaysClean before after ∧ spaceCounter before.kv ≤ spaceCounter after.kv
  grows_refl := fun _ => ⟨fun _ => id, Nat.le_refl _⟩
  grows_trans := fun first second =>
    ⟨fun space clean => second.1 space (first.1 space clean), Nat.le_trans first.2 second.2⟩

variable {env : Env} {world : World} {id : Nat}

theorem spaceEffect_of_removes {before after : World} (holds : DistinctSpaces before.kv)
    (counter : after.kv.get nextSpaceId = before.kv.get nextSpaceId)
    (removes : ∀ key, after.kv.get key = before.kv.get key ∨ after.kv.get key = none) :
    spaceTickets.Effect op before after := by
  have same : spaceCounter after.kv = spaceCounter before.kv := by rw [spaceCounter, spaceCounter, counter]
  have recorded : ∀ {name record}, Recorded after.kv name record → Recorded before.kv name record := by
    intro name record stored
    rcases removes (.space name) with kept | gone
    · exact kept.symm.trans stored
    · cases gone.symm.trans stored
  refine ⟨⟨?_, ?_⟩, ⟨?_, same.ge⟩, ?_, fun number _ => ?_⟩
  · exact fun stored => same ▸ holds.below (recorded stored)
  · exact fun first second => holds.distinct (recorded first) (recorded second)
  · intro space clean
    rcases removes (inferenceDirty space) with kept | gone
    · exact kept.trans clean
    · exact gone
  · exact fun number ⟨name, record, stored, id⟩ => .inl ⟨name, record, recorded stored, id⟩
  · change number < _ ↔ number < _
    rw [same]

theorem harmless_batchDelete (spared : nextSpaceId ∉ keys) :
    Prog.Harmless spaceTickets (handler env) (.kv (.batchDelete keys)) := by
  refine ⟨rfl, fun world holds => spaceEffect_of_removes holds ?_ fun key => ?_⟩
  · exact (get_eraseAll ..).trans (if_neg spared)
  · change (world.kv.eraseAll keys).get key = _ ∨ (world.kv.eraseAll keys).get key = none
    rw [get_eraseAll]
    split
    · exact .inr rfl
    · exact .inl rfl

theorem harmless_deleteKey (spared : nextSpaceId ≠ key) :
    Prog.Harmless spaceTickets (handler env) (.kv (.delete key)) := by
  refine ⟨rfl, fun world holds => spaceEffect_of_removes holds ?_ fun other => ?_⟩
  · exact (get_erase ..).trans (if_neg spared)
  · change (world.kv.erase key).get other = _ ∨ (world.kv.erase key).get other = none
    rw [get_erase]
    split
    · exact .inr rfl
    · exact .inl rfl

theorem draws_deleteByPrefix (spared : scope.covers nextSpaceId = false) :
    (deleteByPrefix scope).Draws spaceTickets (handler env) (fun _ _ _ => True) held world := by
  refine draws_read rfl (fun _ => rfl) fun state _ _ _ => ?_
  refine draws_of_only (only_forM _ fun chunk listed => only_perform (harmless_batchDelete ?_)) fun _ _ _ _ => trivial
  intro mem
  obtain ⟨entry, scanned, same⟩ := mem_map.mp (mem_of_mem_toChunks listed mem)
  have covered : scope.covers entry.1 = true := (mem_scan.mp scanned).2
  rw [same, spared] at covered
  cases covered

theorem draws_purgeIndexes :
    (purgeIndexes spaceId).Draws spaceTickets (handler env) (fun _ _ _ => True) held world := by
  unfold purgeIndexes
  split
  · trivial
  · next id =>
    refine draws_bind (draws_read rfl (fun _ => rfl) fun state _ _ _ => draws_pure ?_)
    refine Prog.draws_forM fun index _ held state => ?_
    refine draws_bind (draws_mono (draws_deleteByPrefix rfl) fun _ _ _ _ => ?_)
    exact draws_of_only (only_perform (harmless_deleteKey (by simp [nextSpaceId, indexDef])))
      fun _ _ _ _ => trivial

theorem draws_dropSpace (spared : name ≠ "__meta") :
    (dropSpace name ifExists).Draws spaceTickets (handler env) (fun _ _ _ => True) held world := by
  refine draws_read rfl (fun _ => rfl) fun state _ _ _ => ?_
  split
  · cases ifExists <;> trivial
  · refine draws_bind (draws_mono draws_purgeIndexes fun _ _ _ _ => ?_)
    refine draws_bind (draws_mono (draws_deleteByPrefix ?_) fun _ _ _ _ => ?_)
    · simp [dataPrefix, nextSpaceId, Prefix.covers, List.isPrefixOf, spared]
    refine draws_bind (draws_mono (draws_deleteByPrefix ?_) fun _ _ _ _ => ?_)
    · simp [schemaPrefix, nextSpaceId, Prefix.covers]
    refine draws_of_only (only_bind (only_perform (harmless_deleteKey ?_)) fun _ => trivial) fun _ _ _ _ => trivial
    simp [nextSpaceId, Key.space]

theorem get_storeCounter {kv : KV} (apart : key ≠ nextSpaceId) :
    (kv.insert nextSpaceId value).get key = kv.get key := by
  rw [get_insert, if_neg apart]

theorem effect_storeCounter (holds : DistinctSpaces before.kv)
    (current : spaceCounter before.kv = id) (room : id + 1 < 4294967296) :
    spaceTickets.Effect (.kv (.put nextSpaceId (.text (toString (id + 1))))) before
      (handler env (.kv (.put nextSpaceId (.text (toString (id + 1))))) before).2 := by
  rw [handler_put]
  have counter : spaceCounter (before.kv.insert nextSpaceId (.text (toString (id + 1)))) = id + 1 := by
    rw [spaceCounter, get_insert, if_pos rfl, storedSpaceId_text room]
  have recorded : ∀ {name record}, Recorded (before.kv.insert nextSpaceId (.text (toString (id + 1)))) name record →
      Recorded before.kv name record :=
    fun stored => (get_storeCounter (by simp [Key.space, nextSpaceId])).symm.trans stored
  refine ⟨⟨?_, ?_⟩, ⟨?_, ?_⟩, ?_, ?_⟩
  · intro name record stored
    have below := holds.below (recorded stored)
    rw [World.kv_mk, counter]
    omega
  · exact fun first second => holds.distinct (recorded first) (recorded second)
  · exact fun space clean => (get_storeCounter (by simp [inferenceDirty, nextSpaceId])).trans clean
  · change spaceCounter before.kv ≤ spaceCounter (before.kv.insert _ _)
    omega
  · rintro number ⟨name, record, stored, id⟩
    exact .inl ⟨name, record, recorded stored, id⟩
  · intro number differs
    have apart : number ≠ id := by
      rintro rfl
      exact differs (congrArg some (by rw [storedSpaceId_text room, Nat.add_sub_cancel]))
    change number < spaceCounter (before.kv.insert _ _) ↔ number < spaceCounter _
    omega

theorem effect_recordSpace (holds : DistinctSpaces before.kv)
    (unused : ¬spaceTickets.live before record.id) (passed : record.id < spaceCounter before.kv) :
    spaceTickets.Effect (.kv (.put (.space name) (.space record))) before
      (handler env (.kv (.put (.space name) (.space record))) before).2 := by
  rw [handler_put]
  have other : ∀ {key : Key}, key ≠ Key.space name →
      (before.kv.insert (.space name) (.space record)).get key = before.kv.get key := by
    intro key apart
    rw [get_insert, if_neg apart]
  have counter : spaceCounter (before.kv.insert (.space name) (.space record)) = spaceCounter before.kv := by
    rw [spaceCounter, other (by simp [Key.space, nextSpaceId]), spaceCounter]
  have recorded : ∀ {name' record'}, Recorded (before.kv.insert (.space name) (.space record)) name' record' →
      (name' = name ∧ record' = record) ∨ Recorded before.kv name' record' := by
    intro name' record' stored
    rw [Recorded, get_insert] at stored
    split at stored
    · next same =>
        simp only [Key.space, Key.text.injEq, List.cons.injEq, Seg.word.injEq] at same
        cases stored
        exact .inl ⟨same.2.1, rfl⟩
    · exact .inr stored
  refine ⟨⟨?_, ?_⟩, ⟨?_, counter.ge⟩, ?_, ?_⟩
  · intro name' record' stored
    rw [World.kv_mk, counter]
    rcases recorded stored with ⟨-, rfl⟩ | stored
    · exact passed
    · exact holds.below stored
  · intro first second record' record'' stored stored' same
    rcases recorded stored with ⟨rfl, rfl⟩ | old <;> rcases recorded stored' with ⟨new, rfl⟩ | old'
    · exact new.symm
    · exact absurd ⟨second, record'', old', same.symm⟩ unused
    · exact absurd ⟨first, record', old, same⟩ unused
    · exact holds.distinct old old' same
  · exact fun space clean => (other (by simp [inferenceDirty, Key.space])).trans clean
  · rintro number ⟨name', record', stored, rfl⟩
    rcases recorded stored with ⟨-, rfl⟩ | old
    · exact .inr rfl
    · exact .inl ⟨name', record', old, rfl⟩
  · intro number _
    change number < spaceCounter (before.kv.insert _ _) ↔ number < spaceCounter _
    rw [counter]

theorem draws_storeSpace (vidType : VidTypeText) (holds : DistinctSpaces world.kv)
    (read : spaceCounter world.kv = id) (room : id + 1 < 4294967296) :
    (do
      put nextSpaceId (.text (toString ((id + 1) % 4294967296)))
      put (.space name) (.space ⟨id, name, vidType⟩)
      pure noRows : Exec Response).Draws spaceTickets (handler env) (fun _ _ _ => True) held world := by
  rw [Nat.mod_eq_of_lt room]
  have drawn : spaceTickets.number (.kv (.put nextSpaceId (.text (toString (id + 1))))) = some id := by
    change some (storedSpaceId _ - 1) = _
    rw [storedSpaceId_text room, Nat.add_sub_cancel]
  refine ⟨?_, nofun, fun later grown holds _ valid => ?_⟩
  · intro number own
    cases drawn.symm.trans own
    refine ⟨?_, ⟨fun marked => absurd marked (Nat.not_lt.mpr read.le), nofun⟩⟩
    rintro ⟨name', record, stored, same⟩
    have below := holds.below stored
    omega
  -- Nobody else has moved the counter, because the id is still unmarked.
  have unmarked : ¬id < spaceCounter later.kv := fun marked => nomatch (valid id drawn).2.mp marked
  have current : spaceCounter later.kv = id := Nat.le_antisymm (Nat.not_lt.mp unmarked) (read ▸ grown.2)
  refine ⟨effect_storeCounter holds current room, ?_, fun _ => .inl drawn.symm, fun last _ holds _ valid => ?_⟩
  · intro number own
    cases own
    refine ⟨?_, ⟨fun _ => rfl, fun _ => ?_⟩⟩
    · rintro ⟨name', record, stored, same⟩
      have kept : Recorded later.kv name' record :=
        (get_storeCounter (by simp [Key.space, nextSpaceId])).symm.trans stored
      have below := holds.below kept
      dsimp only at same
      omega
    · change id < spaceCounter _
      rw [handler_put, spaceCounter, get_insert, if_pos rfl, storedSpaceId_text room]
      omega
  · obtain ⟨unused, passed⟩ := valid id rfl
    exact ⟨effect_recordSpace holds unused (passed.mpr rfl), trivial⟩

theorem draws_createSpace (vidType : VidTypeText) :
    (createSpace name ifNotExists vidType).Draws spaceTickets (handler env) (fun _ _ _ => True) held world := by
  refine draws_read rfl (fun _ => rfl) fun _ _ _ _ => ?_
  split
  · cases ifNotExists <;> trivial
  · exact draws_read rfl (fun _ => rfl) fun state _ holds room => draws_storeSpace vidType holds rfl room

theorem draws_spaceProgram (layout : Layout Key Val) {request : SpaceRequest} (spares : request.sparesCounter = true) :
    (request.program layout fuel).Draws spaceTickets (handler env) (fun _ _ _ => True) held world := by
  obtain ⟨ctx, statement⟩ := request
  refine draws_execute (by cases statement <;> rfl) (by cases statement <;> rfl) (fun grown => grown.1) (fun _ => rfl) ?_
  intro held state
  cases statement with
  | createSpace name ifNotExists vidType => exact draws_createSpace vidType
  | dropSpace name ifExists => exact draws_dropSpace (by simpa [SpaceRequest.sparesCounter] using spares)

/-- The statement has read the counter and comes to store its successor. -/
def isCounting : Exec Response → Bool
  | .call (.kv (.put _ (.text _))) _ => true
  | _ => false

/-- No two statements have read the counter without storing it, the counter stays
below the 32-bit limit, and no statement drops the space that contains it. -/
def countedApart (sessions : Sessions SpaceRequest) : Bool :=
  spaceCounter sessions.state.kv + 1 < 4294967296 &&
    (sessions.calls.all fun call => call.1.sparesCounter) &&
    sessions.calls.Pairwise fun a b => ¬(isCounting a.2 ∧ isCounting b.2)

theorem isCounting_of_isDrawing (drawing : p.isDrawing spaceTickets = true) : isCounting p = true := by
  rcases p with _ | _ | ⟨op, next⟩
  · cases drawing
  · cases drawing
  · rcases op with op | _
    · cases op with
      | put key value => cases value <;> first | rfl | cases drawing
      | _ => cases drawing
    · cases drawing

/-- Creating and dropping spaces, in any number of sessions and in any order. -/
theorem spaceIds_distinct (layout : Layout Key Val) (fuel : Nat) {world : World} {sessions : Sessions SpaceRequest}
    (initially : DistinctSpaces world.kv) (room : spaceCounter world.kv + 1 < 4294967296)
    (reached : Pool.ReachesWithin (handler env) (SpaceRequest.program layout fuel)
      (fun sessions => countedApart sessions = true) ⟨world, []⟩ sessions)
    {name name' : String} {record record' : SpaceRecord} (first : Recorded sessions.state.kv name record)
    (second : Recorded sessions.state.kv name' record') (differ : name ≠ name') : record.id ≠ record'.id := by
  have scheduled : ∀ sessions : Sessions SpaceRequest, countedApart sessions = true →
      Pool.Scheduled spaceTickets (fun request => request.sparesCounter = true) sessions := by
    intro sessions ok
    simp only [countedApart, Bool.and_eq_true, decide_eq_true_eq, all_eq_true] at ok
    obtain ⟨⟨room, spares⟩, apart⟩ := ok
    refine ⟨room, spares, apart.imp ?_⟩
    exact fun apart both => apart ⟨isCounting_of_isDrawing both.1, isCounting_of_isDrawing both.2⟩
  have empty : Pool.Orderly spaceTickets (handler env) (⟨world, []⟩ : Sessions SpaceRequest) :=
    ⟨initially, by simp, .nil⟩
  have orderly : Pool.Orderly spaceTickets (handler env) sessions :=
    Pool.orderly_of_reachesWithin scheduled (fun request _ spares _ => draws_spaceProgram layout spares) empty room reached
  have holds : DistinctSpaces sessions.state.kv := orderly.inv
  exact fun same => differ (holds.distinct first second same)

def uncounted : World where
  content := ⟨Table.ofList [(SchemaKey.space "a", .space ⟨0, "a", .int64⟩)], .empty⟩
  lastTx := 0
  readings := 0

def creates (name : String) : Pool.Turn SpaceRequest := .begin ⟨graphCtx, .createSpace name false .int64⟩

def drops (name : String) : Pool.Turn SpaceRequest := .begin ⟨graphCtx, .dropSpace name true⟩

def spacePlay (ok : Sessions SpaceRequest → Bool) (turns : List (Pool.Turn SpaceRequest)) : Option (Sessions SpaceRequest) :=
  Pool.play (handler graphEnv) (SpaceRequest.program recordLayout 0) ok turns ⟨uncounted, []⟩

def idOf (world : World) (name : String) : Option Nat :=
  match world.kv.get (SchemaKey.space name) with
  | some (.space record) => some record.id
  | _ => none

theorem exists_recorded (found : idOf world name = some id) :
    ∃ record, Recorded world.kv name record ∧ record.id = id := by
  unfold idOf at found
  split at found
  · next record stored => exact ⟨record, stored, Option.some.inj found⟩
  · cases found

theorem distinctSpaces_uncounted : DistinctSpaces uncounted.kv := by
  have only : ∀ {name record}, Recorded uncounted.kv name record → name = "a" ∧ record = ⟨0, "a", .int64⟩ := by
    intro name record stored
    by_cases same : name = "a"
    · subst same
      cases stored.symm.trans (by rfl : uncounted.kv.get (.space "a") = some (.space ⟨0, "a", .int64⟩))
      exact ⟨rfl, rfl⟩
    · simp [Recorded, uncounted, Key.space, lastPut, same] at stored
  refine ⟨fun stored => ?_, fun first second _ => (only first).1.trans (only second).1.symm⟩
  rw [(only stored).2]
  decide +kernel

def countedOnce (sessions : Sessions SpaceRequest) : Bool :=
  (match sessions.state.kv.get nextSpaceId with
    | some (.text digits) => digits = "2"
    | _ => true) &&
    (sessions.calls.all fun call => call.1.sparesCounter) &&
    sessions.calls.Pairwise fun a b => ¬(isCounting a.2 ∧ isCounting b.2)

theorem countedApart_of_countedOnce (once : countedOnce sessions = true) : countedApart sessions = true := by
  simp only [countedOnce, countedApart, Bool.and_eq_true, decide_eq_true_eq] at once ⊢
  refine ⟨⟨?_, once.1.2⟩, once.2⟩
  have counter := once.1.1
  unfold spaceCounter
  split at counter
  · next digits stored =>
      have two : digits = toString 2 := of_decide_eq_true counter
      rw [stored, two, storedSpaceId_text (by decide)]
      decide
  · next other =>
      unfold storedSpaceId
      split
      · next digits stored => exact absurd stored (other digits)
      · decide

/-- A space is created while another session drops one. -/
theorem spaceIds_distinct_uncounted : ∃ sessions record record',
      spacePlay countedOnce ([creates "b", drops "z"] ++ [0, 1, 1, 1, 0, 1, 1, 0].map .advance) =
        some sessions ∧ Recorded sessions.state.kv "a" record ∧
        Recorded sessions.state.kv "b" record' ∧ record.id ≠ record'.id := by
  have played : ((spacePlay countedOnce ([creates "b", drops "z"] ++ [0, 1, 1, 1, 0, 1, 1, 0].map .advance)).map
      fun sessions => (idOf sessions.state "a", idOf sessions.state "b")) = some (some 0, some 1) := by decide +kernel
  obtain ⟨sessions, ends, ids⟩ := Option.map_eq_some_iff.mp played
  obtain ⟨record, first, -⟩ := exists_recorded (Prod.mk.inj ids).1
  obtain ⟨record', second, -⟩ := exists_recorded (Prod.mk.inj ids).2
  have reached : Pool.ReachesWithin (handler graphEnv) (SpaceRequest.program recordLayout 0)
      (fun sessions => countedApart sessions = true) ⟨uncounted, []⟩ sessions :=
    (Pool.reachesWithin_of_play ends).lift id fun _ _ step => ⟨step.1, countedApart_of_countedOnce step.2⟩
  exact ⟨sessions, record, record', ends, first, second,
    spaceIds_distinct recordLayout 0 distinctSpaces_uncounted (by decide +kernel) reached first second (by decide)⟩

/-- Two sessions that hold the locks of their own new spaces: both read the counter
before either of them stores it. -/
def countedTogether : List (Pool.Turn SpaceRequest) :=
  [creates "b", creates "c"] ++ [0, 0, 0, 1, 1, 1, 0, 1, 0, 1].map .advance

/-- One statement after the other: the counter is dropped with the space `__meta`. -/
def counterDropped : List (Pool.Turn SpaceRequest) :=
  [(creates "b", 6), (creates "__meta", 6), (drops "__meta", 8), (creates "c", 6)].flatMap fun turn =>
    turn.1 :: List.replicate turn.2 (.advance 0)

def CollidingSpaces (turns : List (Pool.Turn SpaceRequest)) : Prop :=
  ∃ sessions, spacePlay (locked SpaceRequest.lock) turns = some sessions ∧
    Pool.ReachesWithin (handler graphEnv) (SpaceRequest.program recordLayout 0)
      (fun sessions => locked SpaceRequest.lock sessions = true) ⟨uncounted, []⟩ sessions ∧
    ∃ record record', Recorded sessions.state.kv "b" record ∧ Recorded sessions.state.kv "c" record' ∧
      record.id = record'.id

theorem colliding_of_play (played : ((spacePlay (locked SpaceRequest.lock) turns).map fun sessions =>
      (idOf sessions.state "b", idOf sessions.state "c")) = some (some 1, some 1)) : CollidingSpaces turns := by
  obtain ⟨sessions, ends, ids⟩ := Option.map_eq_some_iff.mp played
  obtain ⟨record, first, id⟩ := exists_recorded (Prod.mk.inj ids).1
  obtain ⟨record', second, id'⟩ := exists_recorded (Prod.mk.inj ids).2
  exact ⟨sessions, ends, Pool.reachesWithin_of_play ends, record, record', first, second, id.trans id'.symm⟩

theorem spaceIds_collide : CollidingSpaces countedTogether ∧ CollidingSpaces counterDropped :=
  ⟨colliding_of_play (by decide +kernel), colliding_of_play (by decide +kernel)⟩

end ByoriDB.Executor
