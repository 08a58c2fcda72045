import ByoriDB.Store.Staging

/-! A statement that is committed does to the store what it would have done there directly. -/

namespace ByoriDB.Store.MutationStore

open List Std
open Data Program

variable {κ ν : Type} [Ord κ] {changes : Changes κ ν} {reason : StagingError} {layout : Layout κ ν} {maxBytes : Nat}

theorem checkSize_error {bytes : Nat}
    (failed : Changes.checkSize maxBytes bytes = .error reason) : reason = .sizeLimit := by
  rw [Changes.checkSize] at failed
  split at failed <;> simp_all

theorem addVersions_error {rows : List (VersionRow κ ν)}
    (failed : changes.addVersions layout maxBytes rows = .error reason) : reason = .sizeLimit := by
  rcases bind_eq_error failed with tooLarge | ⟨_, _, impossible⟩
  · exact checkSize_error tooLarge
  · cases impossible

variable [TransOrd κ]

theorem set_error {key : κ} {value : Option ν}
    (failed : changes.set layout maxBytes key value = .error reason) : reason = .sizeLimit := by
  rcases bind_eq_error failed with tooLarge | ⟨_, _, impossible⟩
  · exact checkSize_error tooLarge
  · cases impossible

theorem setAll_error {writes : List (κ × Option ν)}
    (failed : changes.setAll layout maxBytes writes = .error reason) : reason = .sizeLimit := by
  induction writes generalizing changes with
  | nil => cases failed
  | cons next rest ih =>
    rcases bind_eq_error failed with first | ⟨_, _, later⟩
    · exact set_error first
    · exact ih later

theorem applyTo_of_unchanged [LawfulEqOrd κ] [DecidableEq κ] (unchanged : ((puts changes).isEmpty &&
    (deletes changes).isEmpty && changes.versions.isEmpty) = true) :
    changes.applyTo content = content := by
  simp only [Bool.and_eq_true, List.isEmpty_iff] at unchanged
  obtain ⟨⟨noPuts, noDeletes⟩, noVersions⟩ := unchanged
  rw [← Changes.batchApply_commit, noPuts, noDeletes, noVersions]
  rfl

variable [DecidableEq κ] [Scoped κ] {allowed : World κ ν → Op κ ν → Prop} {world : World κ ν}
variable {ε α : Type} {env : Env κ ν} {refuse : StagingError → ε} {plain : KvOp κ ν → Prop}
  {post : α → World κ ν → Prop} {p : Prog (signature κ ν) ε α} {ops : List (KvOp κ ν)} {op : KvOp κ ν}

section

variable {raise : ε → Prop}

abbrev SizeOnly (refuse : StagingError → ε) (reason : ε) : Prop := reason = refuse .sizeLimit

theorem failsOnly_staged {result : Except StagingError (Changes κ ν)}
    (limit : ∀ reason, result = .error reason → reason = .sizeLimit) :
    (staged refuse result).FailsOnly (handler env) (SizeOnly refuse) world := by
  intro reason final failed
  cases result with
  | ok changes => cases failed
  | error own =>
    cases failed
    exact congrArg refuse (limit own rfl)

theorem failsOnly_get : (get key changes).FailsOnly (handler env) raise world := by
  rw [get]
  cases changes.values.get key with
  | some value => exact failsOnly_pure
  | none => exact failsOnly_perform

theorem failsOnly_batchGet {keys : List κ} : (batchGet changes keys).FailsOnly (handler env) raise world := by
  induction keys generalizing world with
  | nil => exact failsOnly_pure
  | cons key rest ih =>
    refine failsOnly_bind failsOnly_get ?_
    intro _ _ _
    refine failsOnly_bind ih ?_
    intro _ _ _
    exact failsOnly_pure

theorem failsOnly_readCounter {current : Option ν}
    (exactly : ∀ value, current = some value → (env.counterOf value).isSome) :
    (readCounter env.toLayout refuse current : Prog (signature κ ν) ε _).FailsOnly
      (handler env) (SizeOnly refuse) world := by
  cases current with
  | none => exact failsOnly_pure
  | some value =>
    obtain ⟨count, counted⟩ := Option.isSome_iff_exists.mp (exactly value rfl)
    rw [readCounter, counted]
    exact failsOnly_pure

theorem failsOnly_scanPrefix (scope : Scoped.Scope κ) :
    (scanPrefix env.toLayout scope changes).FailsOnly (handler env) raise world :=
  failsOnly_bind failsOnly_perform fun _ _ _ => failsOnly_pure

theorem failsOnly_read (read : op.isRead = true) (changes : Changes κ ν) :
    (handle env.toLayout maxBytes refuse changes op).FailsOnly (handler env) raise world := by
  have afterRead : ∀ {β γ : Type} {p : Prog (signature κ ν) ε β} {f : β → γ}, p.FailsOnly (handler env) raise world →
        (p >>= fun value => pure (f value)).FailsOnly (handler env) raise world :=
    fun first => failsOnly_bind first fun _ _ _ => failsOnly_pure
  have versions : ∀ entity, (scanHistory entity changes).FailsOnly (handler env) raise world :=
    fun entity => failsOnly_bind failsOnly_perform fun _ _ _ => failsOnly_pure
  cases op with
  | get key => exact afterRead failsOnly_get
  | batchGet keys => exact afterRead failsOnly_batchGet
  | scanPrefix scope => exact afterRead (failsOnly_scanPrefix scope)
  | countPrefix scope => exact afterRead (failsOnly_scanPrefix scope)
  | scanHistory entity => exact afterRead (versions entity)
  | scanHistoryEntityKeys scope =>
    exact afterRead (failsOnly_bind failsOnly_perform fun _ _ _ => failsOnly_pure)
  | getAsOf entity validAt txAt => exact afterRead (versions entity)
  | _ => cases read

end

variable [LawfulEqOrd κ]

/-- The world a statement would be in if its staged changes were applied. -/
def updated (changes : Changes κ ν) (world : World κ ν) : World κ ν :=
  { world with content := changes.applyTo world.content }

/-- A program on the overlay meets what it meets on the store itself, as long as
it reads no versions. -/
theorem wp_stage (closed : Closed plain)
    (direct : p.wp (handler env) allowed post (updated changes world))
    (admits : ∀ world op, allowed world (.kv op) → plain op ∧ op.readsVersions = false) :
    (stage env.toLayout maxBytes refuse p changes).wp (handler env) (staging plain)
      (fun out world' => post out.1 (updated out.2 world') ∧ world'.content = world.content) world := by
  induction p generalizing changes world with
  | pure value => exact ⟨direct, rfl⟩
  | fail reason => trivial
  | call op next ih =>
    cases op with
    | txNow =>
      obtain ⟨tx, ticked⟩ : ∃ ticked, ticked = handler env .txNow world := ⟨_, rfl⟩
      have continued := @ih tx.1 changes tx.2 (ticked ▸ direct.2)
      subst ticked
      exact ⟨trivial, continued⟩
    | kv op =>
      obtain ⟨admitted, unread⟩ := admits _ op direct.1
      apply wp_seq (wp_handle closed admitted fun reads => absurd reads (by simp [unread]))
      rintro ⟨result, changes'⟩ world' ⟨performed, -, rfl⟩
      apply ih
      have continued := direct.2
      simp only [handler, updated, performed] at continued
      exact continued

theorem wp_commit (changes : Changes κ ν) (world : World κ ν) :
    (commit changes : Prog (signature κ ν) ε Unit).wp (handler env)
      (fun before op => before = world ∧ (handler env op world).2 = updated changes world ∧
        op = .kv (.batchApply (puts changes) (deletes changes) changes.versions))
      (fun _ world' => world' = updated changes world) world := by
  rw [commit]
  split
  · rename_i unchanged
    rw [updated, applyTo_of_unchanged unchanged]
    exact rfl
  · have applied : (handler env (.kv (.batchApply (puts changes) (deletes changes) changes.versions)) world).2 =
        updated changes world := by
      rw [World.handler_batchApply, Changes.batchApply_commit]
      rfl
    exact ⟨⟨rfl, applied, rfl⟩, applied⟩

/-- Each operation of a statement on the overlay leaves the content alone or
brings about the final state of the statement. -/
theorem wp_atomically (closed : Closed plain) (direct : p.wp (handler env) allowed post world)
    (admits : ∀ world op, allowed world (.kv op) → plain op ∧ op.readsVersions = false) :
    (atomically env.toLayout maxBytes refuse p).wp (handler env) (fun before op =>
      staging plain before op ∨ ∃ value, post value (handler env op before).2) post world := by
  have start : updated .nothing world = world := by
    rw [updated, Changes.applyTo_nothing]
  apply wp_bind.mpr
  refine wp_mono (wp_stage closed direct admits) (fun _ _ permitted => .inl permitted) ?_
  rintro ⟨value, changes⟩ world' ⟨reached, -⟩
  apply wp_bind.mpr
  refine wp_mono (wp_commit changes world') ?_ ?_
  · rintro before op ⟨rfl, applied, -⟩
    exact .inr ⟨value, applied ▸ reached⟩
  · rintro _ _ rfl
    exact reached

/-- Perform the methods one after the other on the overlay, for what they write. -/
def stageAll (layout : Layout κ ν) (maxBytes : Nat) (refuse : StagingError → ε) (changes : Changes κ ν) :
    List (KvOp κ ν) → Prog (signature κ ν) ε (Changes κ ν)
  | [] => pure changes
  | op :: ops => do
    let (_, changes) ← handle layout maxBytes refuse changes op
    stageAll layout maxBytes refuse changes ops

def after (layout : Layout κ ν) (content : Content κ ν) (op : KvOp κ ν) : Content κ ν :=
  (content.perform layout op).2

theorem wp_stageAll (closed : Closed plain) (admitted : ∀ op ∈ ops, plain op ∧ op.isRead = false)
    (changes : Changes κ ν) (world : World κ ν) :
    (stageAll env.toLayout maxBytes refuse changes ops).wp (handler env) (staging plain)
      (fun changes' world' => changes'.applyTo world.content =
        ops.foldl (after env.toLayout) (changes.applyTo world.content) ∧
        changes'.versions = changes.versions ++ ops.flatMap KvOp.rows ∧ world' = world) world := by
  induction ops generalizing changes with
  | nil => exact ⟨rfl, by simp, rfl⟩
  | cons op rest ih =>
    obtain ⟨plainOp, writes⟩ := admitted op mem_cons_self
    have unread : op.readsVersions = true → changes.FreshVersions world.content := by
      intro reads
      cases op <;> simp_all [KvOp.isRead, KvOp.readsVersions]
    apply wp_seq (wp_handle closed plainOp unread)
    rintro ⟨_, changes'⟩ world' ⟨performed, versions, rfl⟩
    have stepped : after env.toLayout (changes.applyTo world'.content) op = changes'.applyTo world'.content := by
      rw [after, performed]
    rw [foldl_cons, stepped, flatMap_cons, ← append_assoc, ← versions]
    exact ih (fun op mem => admitted op (mem_cons_of_mem _ mem)) changes'

/-- The degree counters that are added to hold exact counts, and no sum leaves
the range of an `i64`. -/
def deltasFit (layout : Layout κ ν) (kv : Table κ ν) : List (κ × Int) → Prop
  | [] => True
  | (key, delta) :: deltas =>
    (∀ value, kv.get key = some value → (layout.counterOf value).isSome) ∧
      fitsI64 (((kv.get key).map layout.looseCounter).getD 0 + delta) = true ∧
      deltasFit layout (layout.addCounter kv (key, delta)) deltas

def countersFit (layout : Layout κ ν) (kv : Table κ ν) : KvOp κ ν → Prop
  | .addCounters deltas => deltasFit layout kv deltas
  | _ => True

/-- The same for every method of a sequence, each on the store it finds. -/
def allCountersFit {σ : Type} (layout : Layout κ ν) (kv : σ → Table κ ν) (step : σ → KvOp κ ν → σ)
    (store : σ) : List (KvOp κ ν) → Prop
  | [] => True
  | op :: ops => countersFit layout (kv store) op ∧ allCountersFit layout kv step (step store op) ops

section

variable {raise : ε → Prop}

theorem failsOnly_addCounters {deltas : List (κ × Int)}
    (fit : deltasFit env.toLayout (changes.applyTo world.content).kv deltas) :
    (addCounters env.toLayout maxBytes refuse changes deltas).FailsOnly (handler env) (SizeOnly refuse) world := by
  induction deltas generalizing changes world with
  | nil => exact failsOnly_pure
  | cons delta rest ih =>
    obtain ⟨key, amount⟩ := delta
    obtain ⟨exactly, inRange, later⟩ := fit
    refine failsOnly_seq failsOnly_get (wp_get closed_any key changes world) ?_
    rintro current world' ⟨rfl, rfl⟩
    refine failsOnly_seq (failsOnly_readCounter exactly) (wp_readCounter (fun _ => True) _ world') ?_
    rintro count world'' ⟨rfl, rfl⟩
    dsimp only
    rw [inRange]
    refine failsOnly_seq (failsOnly_staged fun _ => set_error) (wp_staged_ok (fun _ => True) _) ?_
    rintro ⟨_, changes'⟩ world' ⟨set, rfl⟩
    apply ih
    rw [Changes.set_applyTo set, Changes.write_counter rfl]
    exact later

theorem failsOnly_write (writes : op.isRead = false)
    (fit : countersFit env.toLayout (changes.applyTo world.content).kv op) :
    (handle env.toLayout maxBytes refuse changes op).FailsOnly (handler env) (SizeOnly refuse) world := by
  cases op with
  | put key value => exact failsOnly_staged fun _ => set_error
  | putIfAbsent key value =>
    refine failsOnly_bind failsOnly_get ?_
    intro found world' _
    cases found with
    | some existing => exact failsOnly_pure
    | none =>
      refine failsOnly_bind (failsOnly_staged fun _ => set_error) ?_
      intro _ _ _
      exact failsOnly_pure
  | delete key => exact failsOnly_staged fun _ => set_error
  | batchPut pairs => exact failsOnly_staged fun _ => setAll_error
  | batchDelete keys => exact failsOnly_staged fun _ => setAll_error
  | batchPutVersion versions => exact failsOnly_staged fun _ => addVersions_error
  | batchApply puts deletes versions =>
    apply failsOnly_staged
    intro reason failed
    rcases bind_eq_error failed with first | ⟨_, _, later⟩
    · exact setAll_error first
    · rcases bind_eq_error later with second | ⟨_, _, last⟩
      · exact setAll_error second
      · exact addVersions_error last
  | addCounters deltas => exact failsOnly_addCounters fit
  | _ => cases writes

theorem failsOnly_stageAll
    (writes : ∀ op ∈ ops, op.isRead = false)
    (fit : allCountersFit env.toLayout Content.kv (after env.toLayout)
      (changes.applyTo world.content) ops) :
    (stageAll env.toLayout maxBytes refuse changes ops).FailsOnly (handler env) (SizeOnly refuse) world := by
  induction ops generalizing changes world with
  | nil => exact failsOnly_pure
  | cons op rest ih =>
    have unread : op.readsVersions = true → changes.FreshVersions world.content := by
      intro reads
      cases op <;> simp_all [KvOp.isRead, KvOp.readsVersions]
    refine failsOnly_seq (failsOnly_write (writes op mem_cons_self) fit.1) (wp_handle closed_any trivial unread) ?_
    rintro ⟨_, changes'⟩ world' ⟨performed, -, rfl⟩
    apply ih (fun op mem => writes op (mem_cons_of_mem _ mem))
    have continued := fit.2
    simp only [after, performed] at continued
    exact continued

end
end ByoriDB.Store.MutationStore
