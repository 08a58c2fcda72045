import ByoriDB.Store.Commit
import ByoriDB.Store.Representation

/-! Writes that are staged and then committed leave the byte-level store as if they had been made on it. -/

namespace ByoriDB.Store

open List Std
open Data Program

theorem commonPrefix_isPrefix (start stop : Bytes) :
    commonPrefix start stop <+: start ∧ commonPrefix start stop <+: stop := by
  induction start generalizing stop with
  | nil => simp [commonPrefix]
  | cons byte rest ih =>
    cases stop with
    | nil => simp [commonPrefix]
    | cons other others =>
      rw [commonPrefix]
      split
      · rename_i same
        rw [← same, prefix_cons_inj, prefix_cons_inj]
        exact ih others
      · exact ⟨List.nil_prefix, List.nil_prefix⟩

theorem commonPrefix_of_between {start stop key : Bytes} (above : compare key start ≠ .lt)
    (below : compare key stop = .lt) : commonPrefix start stop <+: key := by
  obtain ⟨starts, rest, stops⟩ := commonPrefix_isPrefix start stop
  refine Bytes.isPrefix_of_between ?_ (by rw [stops, below]; decide)
  exact Bytes.not_lt_trans starts above

def byteEnv (clock : Nat → Int) : Env Bytes Bytes := { byteLayout with clock }

/-- A byte-level process and its abstract counterpart. -/
structure Matches (process : RedbKVStore.Process) (world : World Bytes Bytes) : Prop where
  store : Represents process.store world.content
  lastTx : process.lastTx = world.lastTx
  readings : process.readings = world.readings

variable {clock : Nat → Int} {ops : List (KvOp Bytes Bytes)} {content : Content Bytes Bytes} {world : World Bytes Bytes}
  {op : KvOp Bytes Bytes}

theorem Matches.step {process : RedbKVStore.Process} (matching : Matches process world)
    {op : Op Bytes Bytes} (plain : ∀ kvOp, op = .kv kvOp → plainOp kvOp) :
    (RedbKVStore.handler clock op process).1 = (handler (byteEnv clock) op world).1 ∧
      Matches (RedbKVStore.handler clock op process).2 (handler (byteEnv clock) op world).2 := by
  cases op with
  | kv op =>
    obtain ⟨answer, represents⟩ := matching.store.perform (plain op rfl)
    exact ⟨answer, represents, matching.lastTx, matching.readings⟩
  | txNow =>
    have ticked : max (clock process.readings) (process.lastTx + 1) =
        max (clock world.readings) (world.lastTx + 1) := by
      rw [matching.lastTx, matching.readings]
    exact ⟨ticked, matching.store, ticked, congrArg (· + 1) matching.readings⟩

theorem Represents.unique {store store' : RedbKVStore}
    (first : Represents store content) (second : Represents store' content) : store = store' := by
  have sameHistory : store.history = store'.history := Table.toList_inj (first.history.trans second.history.symm)
  cases store
  cases store'
  simp only [RedbKVStore.mk.injEq]
  exact ⟨first.kv.trans second.kv.symm, sameHistory⟩

theorem Matches.unique {process process' : RedbKVStore.Process}
    (first : Matches process world) (second : Matches process' world) : process = process' := by
  have sameStore := first.store.unique second.store
  cases process
  cases process'
  simp only [RedbKVStore.Process.mk.injEq]
  exact ⟨sameStore, first.lastTx.trans second.lastTx.symm, first.readings.trans second.readings.symm⟩

theorem closed_plainOp : MutationStore.Closed plainOp :=
  ⟨fun _ => trivial, fun _ _ => trivial, fun _ _ _ plain => plain.entity⟩

theorem Represents.foldl_after {store : RedbKVStore}
    (represents : Represents store content) (plain : ∀ op ∈ ops, plainOp op) :
    Represents (ops.foldl RedbKVStore.after store) (ops.foldl (MutationStore.after byteLayout) content) := by
  induction ops generalizing store content with
  | nil => exact represents
  | cons op rest ih =>
    exact ih (represents.perform (plain op mem_cons_self)).2
      fun other mem => plain other (mem_cons_of_mem _ mem)

/-- Every row of the history encodes a version of an entity whose key has no
zero byte. -/
def RedbKVStore.Faithful (store : RedbKVStore) : Prop :=
  ∀ row ∈ store.history.toList, ∃ entry, PlainRow entry ∧ encodeRow entry = row

theorem exists_rows {rows : List (Bytes × Bytes)}
    (faithful : ∀ row ∈ rows, ∃ entry, PlainRow entry ∧ encodeRow entry = row) :
    ∃ entries : List (HistoryKey Bytes × (Int × Bytes)), (∀ entry ∈ entries, PlainRow entry) ∧
      entries.map encodeRow = rows := by
  induction rows with
  | nil => exact ⟨[], by simp, rfl⟩
  | cons row rest ih =>
    obtain ⟨entry, plain, encoded⟩ := faithful row mem_cons_self
    obtain ⟨entries, rest', listed⟩ := ih fun other mem => faithful other (mem_cons_of_mem _ mem)
    refine ⟨entry :: entries, ?_, by rw [map_cons, encoded, listed]⟩
    rintro other (_ | ⟨_, mem⟩)
    · exact plain
    · exact rest' other mem

theorem RedbKVStore.Faithful.represented {store : RedbKVStore} (faithful : store.Faithful) :
    ∃ content, Represents store content := by
  obtain ⟨entries, plain, encoded⟩ := exists_rows faithful
  have ordered : entries.Pairwise fun first second => compare first.1 second.1 = .lt := by
    have sorted := store.history.ordered_toList
    rw [← encoded, pairwise_map] at sorted
    refine sorted.imp_of_mem ?_
    intro first second firstMember secondMember before
    rw [← compare_encodeKey (plain first firstMember).key (plain second secondMember).key]
    exact before
  have listed := toList_ofList ordered
  exact ⟨⟨store.kv, Table.ofList entries⟩, rfl, by rw [listed, encoded], by rwa [listed]⟩

namespace MutationStore

variable {maxBytes : Nat} {process : RedbKVStore.Process} {world : World Bytes Bytes} {changes : Changes Bytes Bytes}

theorem staging_step (process : RedbKVStore.Process) (world : World Bytes Bytes) (op : Op Bytes Bytes)
    (matching : Matches process world) (permitted : staging plainOp world op) :
    (RedbKVStore.handler clock op process).1 = (handler (byteEnv clock) op world).1 ∧
      Matches (RedbKVStore.handler clock op process).2 (handler (byteEnv clock) op world).2 := by
  apply matching.step
  rintro kvOp rfl
  exact permitted.2

/-- A program that only reads the base runs on the bytes as it does on what they
represent, and leaves them alone. -/
theorem run_staging {α : Type} {p : Prog (signature Bytes Bytes) StagingError α}
    {post : α → World Bytes Bytes → Prop} (matching : Matches process world)
    (holds : p.wp (handler (byteEnv clock)) (staging plainOp) post world)
    (returns : ∀ value final, post value final → final = world) {value : α}
    (ran : (p.run (RedbKVStore.handler clock) process).1 = .ok value) :
    p.run (RedbKVStore.handler clock) process = (.ok value, process) ∧ post value world := by
  obtain ⟨answer, matching'⟩ := run_related holds staging_step matching
  rw [ran] at answer
  have abstract : p.run (handler (byteEnv clock)) world = (.ok value, (p.run (handler (byteEnv clock)) world).2) :=
    Prod.ext answer.symm rfl
  have reached := wp_run holds abstract
  have same := returns _ _ reached
  rw [same] at matching' reached
  exact ⟨Prod.ext ran (matching'.unique matching), reached⟩

theorem wp_scanRange (start stop : Bytes) (limit : Option Nat) (changes : Changes Bytes Bytes)
    (world : World Bytes Bytes) {store : RedbKVStore} (direct : Represents store (changes.applyTo world.content)) :
    (scanRange start stop limit changes : Prog (signature Bytes Bytes) StagingError _).wp
      (handler (byteEnv clock)) (staging plainOp)
      (fun rows world' => rows = store.scanRange start stop limit ∧ world' = world) world := by
  rw [scanRange, RedbKVStore.scanRange]
  split
  · exact ⟨rfl, rfl⟩
  · have scanned := @wp_scanPrefix _ _ _ _ _ _ StagingError (byteEnv clock) (commonPrefix start stop) plainOp _
      trivial changes world
    apply wp_seq scanned
    rintro rows world' ⟨rfl, rfl⟩
    have filtered : ((changes.applyTo world'.content).kv.select (commonPrefix start stop).isPrefixOf).filter
        (fun entry => !(compare entry.1 start == .lt) && compare entry.1 stop == .lt) =
        (store.kv.rangeFrom start).takeWhile fun entry => compare entry.1 stop == .lt := by
      rw [Table.rangeFrom_takeWhile_lt, direct.kv, Table.select, filter_filter, Table.select]
      apply filter_congr
      intro entry _
      by_cases inside : compare entry.1 start ≠ .lt ∧ compare entry.1 stop = .lt
      · have under := List.isPrefixOf_iff_prefix.mpr (commonPrefix_of_between inside.1 inside.2)
        simp [under]
      · have outside : (!(compare entry.1 start == .lt) && compare entry.1 stop == .lt) = false := by
          rw [Bool.eq_false_iff]
          intro within
          simp only [Bool.and_eq_true, Bool.not_eq_true', beq_eq_false_iff_ne, beq_iff_eq] at within
          exact inside within
        simp [outside]
    cases limit with
    | none => exact ⟨filtered, rfl⟩
    | some limit => exact ⟨congrArg (List.take limit) filtered, rfl⟩

theorem allCountersFit_represented {store : RedbKVStore}
    (represents : Represents store content) (plain : ∀ op ∈ ops, plainOp op)
    (fit : allCountersFit byteLayout RedbKVStore.kv RedbKVStore.after store ops) :
    allCountersFit byteLayout Content.kv (after byteLayout) content ops := by
  induction ops generalizing store content with
  | nil => exact trivial
  | cons op rest ih =>
    obtain ⟨first, later⟩ := fit
    rw [represents.kv] at first
    exact ⟨first, ih (represents.perform (plain op mem_cons_self)).2
      (fun other mem => plain other (mem_cons_of_mem _ mem)) later⟩

theorem plainOp_of_rows (writes : op.isRead = false)
    (plain : ∀ row ∈ op.rows, PlainRow row.entry) : plainOp op := by
  cases op <;> first | exact trivial | exact plain | cases writes

theorem trace_commit (changes : Changes Bytes Bytes) (process : RedbKVStore.Process) :
    (commit changes : Prog (signature Bytes Bytes) StagingError Unit).trace (RedbKVStore.handler clock) process =
      if (puts changes).isEmpty && (deletes changes).isEmpty && changes.versions.isEmpty then []
      else [.kv (.batchApply (puts changes) (deletes changes) changes.versions)] := by
  rw [commit]
  split <;> rfl

section

variable (matching : Matches process world) (writes : ∀ op ∈ ops, op.isRead = false) (plainOps : ∀ op ∈ ops, plainOp op)

include matching writes plainOps

theorem run_stageAll
    (counters : allCountersFit byteLayout RedbKVStore.kv RedbKVStore.after process.store ops)
    (unlimited : ((stageAll byteLayout maxBytes id .nothing ops).run
      (RedbKVStore.handler clock) process).1 ≠ .error .sizeLimit) : ∃ changes,
      (stageAll byteLayout maxBytes id .nothing ops).run (RedbKVStore.handler clock) process =
        (.ok changes, process) ∧ changes.applyTo world.content =
      ops.foldl (after byteLayout) world.content ∧ changes.versions = ops.flatMap KvOp.rows := by
  have staged := @wp_stageAll _ _ _ maxBytes _ _ _ StagingError (byteEnv clock) id plainOp ops _ closed_plainOp
    (fun op mem => ⟨plainOps op mem, writes op mem⟩) .nothing world
  have fit := allCountersFit_represented matching.store plainOps counters
  have fails := @failsOnly_stageAll _ _ _ .nothing maxBytes _ _ _ world StagingError (byteEnv clock) id ops _ writes fit
  cases result : ((stageAll byteLayout maxBytes id .nothing ops).run (RedbKVStore.handler clock) process).1 with
  | error reason =>
    have answer := (run_related staged staging_step matching).1
    have limit := fails reason _ (Prod.ext (answer.symm.trans result) rfl)
    rw [result, limit] at unlimited
    exact absurd rfl unlimited
  | ok changes =>
    obtain ⟨ran, applied, versions, -⟩ :=
      run_staging matching staged (fun _ _ reached => reached.2.2) result
    exact ⟨changes, ran, applied, by simpa [Changes.nothing] using versions⟩

theorem visited_stageAll {reached : RedbKVStore.Process}
    (mem : reached ∈ (stageAll byteLayout maxBytes id .nothing ops).visited (RedbKVStore.handler clock) process) :
    reached.store = process.store := by
  have staged := @wp_stageAll _ _ _ maxBytes _ _ _ StagingError (byteEnv clock) id plainOp ops _ closed_plainOp
    (fun op mem => ⟨plainOps op mem, writes op mem⟩) .nothing world
  obtain ⟨counterpart, listed, matching'⟩ := Prog.visited_related staged staging_step matching mem
  have keeps : ∀ before op, staging plainOp before op → before.content = world.content →
      (handler (byteEnv clock) op before).2.content = world.content := by
    intro before op permitted same
    rw [World.handler_leavesContent _, same]
    cases op with
    | kv op => exact permitted.1
    | txNow => rfl
  have unchanged := Prog.wp_visited staged keeps rfl listed
  have represents := matching'.store
  rw [unchanged] at represents
  exact represents.unique matching.store

end

section

variable {store : RedbKVStore} (matching : Matches process world) (direct : Represents store (changes.applyTo world.content))

include matching direct

theorem run_read (fresh : changes.FreshVersions world.content)
    (read : op.isRead = true) (plain : plainOp op) : (handle byteLayout maxBytes id changes op).run
      (RedbKVStore.handler clock) process = (.ok ((store.perform op).1, changes), process) := by
  have handled := @wp_handle _ _ _ changes world _ _ _ StagingError (byteEnv clock) maxBytes id op plainOp _ closed_plainOp
    plain fun _ => fresh
  have unstaged := @wp_handle_read _ _ _ _ _ _ StagingError (byteEnv clock) maxBytes id op read changes world
  have total := @failsOnly_read _ _ _ maxBytes _ _ _ world StagingError (byteEnv clock) id op (fun _ => False) read changes
  have answer := (run_related handled staging_step matching).1
  cases result : ((handle byteLayout maxBytes id changes op).run (RedbKVStore.handler clock) process).1 with
  | error reason => exact (total reason _ (Prod.ext (answer.symm.trans result) rfl)).elim
  | ok out =>
    obtain ⟨ran, performed, -, -⟩ := run_staging matching handled (fun _ _ reached => reached.2.2) result
    have kept := wp_run unstaged (Prod.ext (answer.symm.trans result) rfl)
    have answered : (store.perform op).1 = out.1 := (direct.perform plain).1.trans (congrArg Prod.fst performed)
    exact ran.trans (Prod.ext (congrArg Except.ok (Prod.ext answered.symm kept)) rfl)

theorem run_scanRange (start stop : Bytes) (limit : Option Nat) :
    (scanRange start stop limit changes : Prog (signature Bytes Bytes) StagingError _).run
      (RedbKVStore.handler clock) process = (.ok (store.scanRange start stop limit), process) := by
  have scanned := @wp_scanRange clock start stop limit changes world store direct
  cases result : ((scanRange start stop limit changes : Prog (signature Bytes Bytes) StagingError _).run
      (RedbKVStore.handler clock) process).1 with
  | error reason =>
    exfalso
    rw [scanRange] at result
    split at result
    · cases result
    · cases limit <;> cases result
  | ok rows =>
    obtain ⟨ran, rfl, -⟩ := run_staging matching scanned (fun _ _ reached => reached.2) result
    exact ran

theorem run_commit (plain : ∀ row ∈ changes.versions, PlainRow row.entry) :
    (commit changes : Prog (signature Bytes Bytes) StagingError Unit).run (RedbKVStore.handler clock) process =
      (.ok (), { process with store }) := by
  have committed := @wp_commit _ _ _ _ _ _ StagingError (byteEnv clock) _ changes world
  have step : ∀ (process : RedbKVStore.Process) (before : World Bytes Bytes) (op : Op Bytes Bytes),
      Matches process before → (before = world ∧ (handler (byteEnv clock) op world).2 = updated changes world ∧
        op = .kv (.batchApply (puts changes) (deletes changes) changes.versions)) →
      (RedbKVStore.handler clock op process).1 = (handler (byteEnv clock) op before).1 ∧
        Matches (RedbKVStore.handler clock op process).2 (handler (byteEnv clock) op before).2 := by
    rintro process before op matching ⟨-, -, rfl⟩
    apply matching.step
    rintro kvOp same
    cases same
    exact plain
  obtain ⟨answer, matching'⟩ := run_related committed step matching
  have succeeded : ((commit changes : Prog (signature Bytes Bytes) StagingError Unit).run
      (handler (byteEnv clock)) world).1 = .ok () := by
    rw [commit]
    split <;> rfl
  have final := wp_run committed (Prod.ext succeeded rfl)
  have target : Matches { process with store } (updated changes world) := ⟨direct, matching.lastTx, matching.readings⟩
  rw [← final] at target
  exact Prod.ext (answer.trans succeeded) (matching'.unique target)

end

/-- Writes that are staged on the overlay and then committed. -/
theorem staged_writes_refine {ops : List (KvOp Bytes Bytes)} (faithful : process.store.Faithful)
    (writes : ∀ op ∈ ops, op.isRead = false)
    (plain : ∀ row ∈ ops.flatMap KvOp.rows, PlainRow row.entry)
    (apart : ((ops.flatMap KvOp.rows).map VersionRow.key).Nodup)
    (unused : ∀ row ∈ ops.flatMap KvOp.rows, process.store.history.get (encodeKey row.key) = none)
    (counters : allCountersFit byteLayout RedbKVStore.kv RedbKVStore.after process.store ops)
    (unlimited : ((stageAll byteLayout maxBytes id .nothing ops).run (RedbKVStore.handler clock) process).1 ≠
      .error .sizeLimit) :
    ∃ changes : Changes Bytes Bytes,
      (stageAll byteLayout maxBytes id .nothing ops).run (RedbKVStore.handler clock) process = (.ok changes, process) ∧
      (∀ reached ∈ (stageAll byteLayout maxBytes id .nothing ops).visited (RedbKVStore.handler clock) process,
        reached.store = process.store) ∧
      (∀ op, op.isRead = true → plainOp op →
        (handle byteLayout maxBytes id changes op).run (RedbKVStore.handler clock) process =
          (.ok (((ops.foldl RedbKVStore.after process.store).perform op).1, changes), process)) ∧
      (∀ start stop limit, (scanRange start stop limit changes : Prog (signature Bytes Bytes) StagingError _).run
            (RedbKVStore.handler clock) process =
          (.ok ((ops.foldl RedbKVStore.after process.store).scanRange start stop limit), process)) ∧
      (commit changes : Prog (signature Bytes Bytes) StagingError Unit).run (RedbKVStore.handler clock) process =
        (.ok (), { process with store := ops.foldl RedbKVStore.after process.store }) ∧
      (commit changes : Prog (signature Bytes Bytes) StagingError Unit).trace (RedbKVStore.handler clock) process =
        (if (puts changes).isEmpty && (deletes changes).isEmpty && changes.versions.isEmpty then []
         else [.kv (.batchApply (puts changes) (deletes changes) changes.versions)]) := by
  obtain ⟨content, represents⟩ := faithful.represented
  have matching : Matches process ⟨content, process.lastTx, process.readings⟩ := ⟨represents, rfl, rfl⟩
  have plainOps : ∀ op ∈ ops, plainOp op := fun op mem =>
    plainOp_of_rows (writes op mem) fun row listed => plain row (mem_flatMap.mpr ⟨op, mem, listed⟩)
  obtain ⟨changes, ran, applied, versions⟩ := run_stageAll matching writes plainOps counters unlimited
  have direct := represents.foldl_after plainOps
  rw [← applied] at direct
  have fresh : changes.FreshVersions content := by
    refine ⟨by rw [versions]; exact apart, ?_⟩
    intro row listed
    rw [versions] at listed
    cases stored : content.history.get row.key with
    | none => rfl
    | some value =>
      have present := represents.mem_history.mpr ⟨(row.key, value), stored, rfl⟩
      rw [unused row listed] at present
      exact absurd present (by simp)
  have plainVersions : ∀ row ∈ changes.versions, PlainRow row.entry := by
    rw [versions]
    exact plain
  exact ⟨changes, ran, fun reached mem => visited_stageAll matching writes plainOps mem,
    fun op read plainRead => run_read matching direct fresh read plainRead,
    fun start stop limit => run_scanRange matching direct start stop limit,
    run_commit matching direct plainVersions, trace_commit changes process⟩

/-- A counter, a value and its version, staged over an empty store. -/
theorem staged_writes_refine_insert : let process : RedbKVStore.Process := ⟨⟨.empty, .empty⟩, 0, 0⟩
    let ops : List (KvOp Bytes Bytes) :=
      [.addCounters [([99], 2)], .batchApply [([97], [1])] [[98]] [⟨[97], 5, validOpen, 5, [1]⟩]]
    ∃ changes : Changes Bytes Bytes,
      (stageAll byteLayout 0 id .nothing ops).run (RedbKVStore.handler fun _ => 0) process = (.ok changes, process) ∧
      (commit changes : Prog (signature Bytes Bytes) StagingError Unit).run (RedbKVStore.handler fun _ => 0) process =
        (.ok (), { process with store := ops.foldl RedbKVStore.after process.store }) := by
  intro process ops
  have counters : allCountersFit byteLayout RedbKVStore.kv RedbKVStore.after process.store ops := by
    refine ⟨⟨?_, by decide +kernel, trivial⟩, trivial, trivial⟩
    intro value found
    have absent : process.store.kv.get [99] = none := get_empty _
    cases found
  have succeeds : ((stageAll byteLayout 0 id .nothing ops).run (RedbKVStore.handler fun _ => 0) process).1.isOk = true := by
    decide +kernel
  obtain ⟨changes, ran, -, -, -, committed, -⟩ := @staged_writes_refine (fun _ => 0) 0 process ops
    (by intro row mem; rw [mem_toList, get_empty] at mem; cases mem)
    (by decide)
    (by rintro row (_ | ⟨_, ⟨⟩⟩); exact ⟨⟨by decide, by decide, by decide⟩, by decide⟩)
    (by decide)
    (by intro row _; exact get_empty _)
    counters
    (by intro failed; rw [failed] at succeeds; cases succeeds)
  exact ⟨changes, ran, committed⟩

/-- An entity key with a zero byte: the direct scan of the entity `a` also lists
the version of the entity `a 0 b`, the overlay's scan does not.  And a statement
without writes commits without a batch. -/
theorem staged_writes_zero_byte : let process : RedbKVStore.Process := ⟨⟨.empty, .empty⟩, 0, 0⟩
    let ops : List (KvOp Bytes Bytes) := [.batchPutVersion [⟨[97, 0, 98], 5, validOpen, 5, [1]⟩]]
    ((do
        let changes ← stageAll byteLayout 0 id .nothing ops
        let (versions, _) ← handle byteLayout 0 id changes (.scanHistory [97])
        pure versions : Prog (signature Bytes Bytes) StagingError (List (VersionRecord Bytes))).run
          (RedbKVStore.handler fun _ => 0) process).1 = .ok [] ∧
      (ops.foldl RedbKVStore.after process.store).scanHistory [97] = [⟨5, validOpen, 5, [1]⟩] ∧
      ((commit .nothing : Prog (signature Bytes Bytes) StagingError Unit).trace
        (RedbKVStore.handler fun _ => 0) process).length = 0 := by
  decide +kernel

end MutationStore
end ByoriDB.Store
