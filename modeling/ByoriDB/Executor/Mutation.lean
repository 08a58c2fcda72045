import ByoriDB.Executor.Facts

/-! A mutation reads, tends to auxiliary data, and hands over batches with their versions. -/

namespace ByoriDB.Executor

open List hiding after
open Data Program Store ByoriDB.Graph
open SchemaKey (edge)

/-- What a mutation may assume: that the history is older than the transaction
clock, that the derived facts of the space are complete or fenced, and that ids in
use belong to vertices that were not merged away.  `tended` are the regions it may
write to next to its batches. -/
structure Terms where
  timely : Prop
  closed : Prop
  rooted : Prop
  tended : Region → Prop

variable {env : Env} {space : String} {terms : Terms} {world : World}

/-- Every committed version is older than the next transaction time. -/
def Ahead (env : Env) (world : World) : Prop :=
  ∀ key value, world.content.history.get key = some value → key.tx < (world.txNow env).1

theorem lastTx_lt_txNow (env : Env) (world : World) : world.lastTx < (world.txNow env).1 := by
  simp only [World.txNow]
  omega

/-- Versions that were given their times between two states. -/
structure Stamped (env : Env) (before after : World) (versions : List (VersionRow Key Val)) : Prop where
  content : after.content = before.content
  last : before.lastTx ≤ after.lastTx
  next : (before.txNow env).1 ≤ (after.txNow env).1
  times : ∀ row ∈ versions, row.validFrom = row.tx ∧ row.validTo = validOpen ∧
    (before.txNow env).1 ≤ row.tx ∧ row.tx ≤ after.lastTx
  ordered : (versions.map VersionRow.tx).Pairwise (· < ·)

theorem Stamped.kv (stamped : Stamped env before after versions) : after.kv = before.kv := kv_congr stamped.content

theorem Stamped.nil (env : Env) (world : World) : Stamped env world world [] :=
  ⟨rfl, Int.le_refl _, Int.le_refl _, by simp, .nil⟩

theorem Stamped.append {first second third : World} {old new : List (VersionRow Key Val)}
    (early : Stamped env first second old) (late : Stamped env second third new) :
    Stamped env first third (old ++ new) where
  content := late.content.trans early.content
  last := Int.le_trans early.last late.last
  next := Int.le_trans early.next late.next
  times := by
    intro row mem
    rcases mem_append.mp mem with mem | mem
    · obtain ⟨opens, closes, above, below⟩ := early.times row mem
      exact ⟨opens, closes, above, Int.le_trans below late.last⟩
    · obtain ⟨opens, closes, above, below⟩ := late.times row mem
      exact ⟨opens, closes, Int.le_trans early.next above, below⟩
  ordered := by
    rw [map_append, pairwise_append]
    refine ⟨early.ordered, late.ordered, ?_⟩
    intro left leftListed right rightListed
    obtain ⟨row, mem, rfl⟩ := mem_map.mp leftListed
    obtain ⟨row', mem', rfl⟩ := mem_map.mp rightListed
    have below := (early.times row mem).2.2.2
    have above := (late.times row' mem').2.2.1
    have next := lastTx_lt_txNow env second
    omega

theorem Stamped.tick (env : Env) (world : World) (entity : Key) (payload : Val) : Stamped env world (world.txNow env).2
      [⟨entity, (world.txNow env).1, validOpen, (world.txNow env).1, payload⟩] where
  content := rfl
  last := Int.le_of_lt (lastTx_lt_txNow env world)
  next := Int.le_of_lt (lastTx_lt_txNow env (world.txNow env).2)
  times := by
    intro row mem
    rw [mem_singleton.mp mem]
    exact ⟨rfl, rfl, Int.le_refl _, Int.le_refl _⟩
  ordered := pairwise_singleton _ _

/-- The keys that a batch of assertions may write. -/
def Touches (space : String) (key : Key) : Prop :=
  region space key ∈ [some .view, some .index] ∨ key.kind space ∈ [some "vertex", some "edge", some "in-edge"] ∨
    key = inferenceDirty space

def rowsOf (entity : Key) (versions : List (VersionRow Key Val)) : List (VersionRow Key Val) :=
  versions.filter fun row => row.entity = entity

/-- Every edge has its reverse entry, with the same payload, and the other way round. -/
def Mirrored (space : String) (kv : KV) : Prop :=
  ∀ (t : Triple) (rank : Int), kv.get (t.inKey space rank) = kv.get (t.key space rank)

structure Records (env : Env) (space : String) (terms : Terms) (world : World) (puts : List (Key × Val))
    (deletes : List Key) (versions : List (VersionRow Key Val)) : Prop where
  touched : ∀ key ∈ puts.map Prod.fst ++ deletes, Touches space key
  marker : inferenceDirty space ∉ deletes
  fence : terms.closed → let after := ((world.kv.putAll puts).eraseAll deletes)
    Fenced space after ∨ ∀ (t : Triple) (rank : Int), after.get (t.key space rank) = world.kv.get (t.key space rank)
  stamped : ∃ before, Stamped env before world versions ∧ (terms.timely → Ahead env before)
  recorded : ∀ key, key.isEntity = true → (rowsOf key versions).map VersionRow.payload =
    (factWrites key world (.kv (.batchApply puts deletes versions))).map fun value => value.getD .empty
  lands : ∀ key, key.isEntity = true → factAt ((world.kv.putAll puts).eraseAll deletes) key =
    (factWrites key world (.kv (.batchApply puts deletes versions))).getLast?.getD (factAt world.kv key)
  mirrored : Mirrored space world.kv → Mirrored space ((world.kv.putAll puts).eraseAll deletes)
  names : terms.rooted → ∀ put ∈ puts, ∀ vid, Mentions space vid put.1 → Root space world.kv vid

inductive Mutates (env : Env) (space : String) (terms : Terms) (world : World) : Op Key Val → Prop where
  | tick : Mutates env space terms world .txNow
  | look {op : KvOp Key Val} (reads : op.readsCurrent = true) : Mutates env space terms world (.kv op)
  | tend {op : KvOp Key Val} {part : Region} {vids : List Int} (within : terms.tended part) (tends : Tends space part vids op)
      (roots : terms.rooted → ∀ vid ∈ vids, Root space world.kv vid) : Mutates env space terms world (.kv op)
  | retype {vid : Int} {className : String} (marked : terms.closed → Dirty space world.kv)
      (root : terms.rooted → Root space world.kv vid) :
      Mutates env space terms world (.kv (.put (vtype space vid className) .empty))
  | untype {vid : Int} {className : String} (marked : terms.closed → Dirty space world.kv) :
      Mutates env space terms world (.kv (.delete (vtype space vid className)))
  | record {puts : List (Key × Val)} {deletes : List Key} {versions : List (VersionRow Key Val)}
      (records : Records env space terms world puts deletes versions) :
      Mutates env space terms world (.kv (.batchApply puts deletes versions))

theorem KvOp.looks_kv (reads : op.readsCurrent = true) : (handler env (.kv op) world).2 = world := by
  cases op <;> first | rfl | cases reads

theorem Mutates.present (mutates : Mutates env space terms world (.kv op)) : op.readsHistory = false := by
  cases mutates with
  | look reads => cases op <;> first | rfl | cases reads
  | tend _ tends _ => exact tends.present
  | retype | untype | record => rfl

theorem ahead_of_content (ahead : Ahead env world) (history : after.content.history = world.content.history)
    (next : (world.txNow env).1 ≤ (after.txNow env).1) : Ahead env after := by
  intro key value found
  rw [history] at found
  exact Int.lt_of_lt_of_le (ahead key value found) next

theorem mem_putVersions {content : Content Key Val}
    (found : (content.putVersions versions).history.get key = some value) :
    content.history.get key = some value ∨ ∃ row ∈ versions, row.entry = (key, value) := by
  rw [Content.putVersions, get_putAll] at found
  cases last : lastPut (versions.map VersionRow.entry) key with
  | none =>
    rw [last, Option.none_or] at found
    exact .inl found
  | some stored =>
    rw [last, Option.some_or] at found
    cases found
    obtain ⟨row, mem, same⟩ := mem_map.mp (mem_of_lastPut last)
    exact .inr ⟨row, mem, same⟩

theorem Mutates.ahead (mutates : Mutates env space terms world op) (ahead : Ahead env world) :
    Ahead env (handler env op world).2 := by
  cases mutates with
  | tick => exact ahead_of_content ahead rfl (Int.le_of_lt (lastTx_lt_txNow env _))
  | look reads => exact (KvOp.looks_kv reads).symm ▸ ahead
  | tend _ tends _ => exact ahead_of_content ahead (Content.history_perform tends.unversioned) (Int.le_refl _)
  | retype | untype => exact ahead_of_content ahead rfl (Int.le_refl _)
  | record records =>
    obtain ⟨before, stamped, _⟩ := records.stamped
    intro key value found
    rcases mem_putVersions found with old | ⟨row, mem, same⟩
    · exact ahead key value old
    · have below := (stamped.times row mem).2.2.2
      have next := lastTx_lt_txNow env world
      cases same
      exact Int.lt_of_le_of_lt below next

theorem kind_edgeSchema (space name : String) :
    (edge space name).kind space = if "space" = space then some space else none := by
  simp [edge, Key.kind]

theorem not_touches_vtype : ¬ Touches space (vtype space vid className) := by
  rintro (inside | kind | same)
  · simp at inside
  · simp at kind
  · simpa using congrArg (Key.kind space) same

theorem not_touches_edgeSchema (space name : String) : ¬ Touches space (edge space name) := by
  have kind := kind_edgeSchema space name
  rintro (inside | touched | same)
  · simp only [edge, region] at inside
    rw [← edge, kind] at inside
    split at inside
    · rename_i word
      subst word
      simp [regionOf] at inside
    · simp at inside
  · rw [kind] at touched
    split at touched
    · rename_i word
      subst word
      simp at touched
    · simp at touched
  · rw [same, kind_inferenceDirty] at kind
    split at kind
    · rename_i word
      subst word
      simp at kind
    · cases kind

theorem not_touches_of_region (inside : region space key = some part)
    (view : part ≠ .view) (index : part ≠ .index) : ¬ Touches space key := by
  rintro (listed | kind | same)
  · rw [inside] at listed
    simp [view, index] at listed
  · simp only [mem_cons, not_mem_nil, or_false] at kind
    rcases kind with kind | kind | kind <;> exact kind_ne_of_region inside rfl kind
  · rw [same, region_inferenceDirty] at inside
    cases inside

theorem sameGraph_of_touches {kv kv' : KV} (rest : ∀ key, ¬ Touches space key → kv'.get key = kv.get key)
    (edges : ∀ (t : Triple) (rank : Int), kv'.get (t.key space rank) = kv.get (t.key space rank)) :
    SameGraph space kv kv' where
  edges := edges
  types vid className := rest _ not_touches_vtype
  flags := by
    funext name
    rw [edgeFlags, edgeFlags, rest _ (not_touches_edgeSchema space name)]

section

variable {op : KvOp Key Val} (tends : Tends space part vids op)
include tends

theorem Tends.get_eq (other : region space key ≠ some part) :
    (handler env (.kv op) world).2.kv.get key = world.kv.get key :=
  Content.get_perform fun touched => other (tends.within key touched)

theorem Tends.sameGraph : SameGraph space world.kv (handler env (.kv op) world).2.kv where
  edges t rank := tends.get_eq (by simp [Triple.key])
  types vid className := tends.get_eq (by simp)
  flags := by
    funext name
    rw [edgeFlags, edgeFlags, tends.get_eq]
    simp only [edge, region]
    rw [← edge, kind_edgeSchema]
    split
    · rename_i word
      subst word
      simp [regionOf]
    · simp

theorem Tends.dirty_iff : Dirty space (handler env (.kv op) world).2.kv ↔ Dirty space world.kv := by
  rw [Dirty, Dirty, tends.get_eq (by simp)]

end

section

variable (records : Records env space terms world puts deletes versions)
include records

theorem Records.dirty (marked : Dirty space world.kv) : Dirty space ((world.kv.putAll puts).eraseAll deletes) := by
  rw [Dirty, get_eraseAll, if_neg records.marker, get_putAll]
  cases lastPut puts (inferenceDirty space) with
  | none => exact marked
  | some value => rfl

theorem Records.get_eq (other : ¬ Touches space key) :
    ((world.kv.putAll puts).eraseAll deletes).get key = world.kv.get key := by
  have untouched : key ∉ puts.map Prod.fst ++ deletes := fun mem => other (records.touched key mem)
  rw [mem_append, not_or] at untouched
  exact Content.get_batch untouched.1 untouched.2

end

theorem get_retype
    (type : op = .put (vtype space vid className) .empty ∨ op = .delete (vtype space vid className))
    (other : key.kind space ≠ some "vtype") :
    (handler env (.kv op) world).2.kv.get key = world.kv.get key := by
  have apart : key ≠ vtype space vid className := by
    rintro rfl
    simp at other
  apply Content.get_perform
  rcases type with rfl | rfl <;> simpa [KvOp.touched, KvOp.written] using apart

theorem dirty_retype
    (type : op = .put (vtype space vid className) .empty ∨ op = .delete (vtype space vid className))
    (marked : Dirty space world.kv) : Dirty space (handler env (.kv op) world).2.kv := by
  rw [Dirty, get_retype type (by simp)]
  exact marked

/-- An operation of a mutation keeps every condition that the marker grants and
that depends on the graph only, if the batches that change the graph grant it. -/
theorem Mutates.keeps {grants : KV → Prop} (assumed : terms.closed)
    (mutates : Mutates env space terms world op) (marked : ∀ kv, Dirty space kv → grants kv)
    (fenced : ∀ kv, Fenced space kv → grants kv)
    (same : ∀ kv kv', SameGraph space kv kv' → (Dirty space kv → Dirty space kv') → grants kv → grants kv')
    (holds : grants world.kv) : grants (handler env op world).2.kv := by
  cases mutates with
  | tick => exact holds
  | look reads => exact (KvOp.looks_kv reads).symm ▸ holds
  | tend _ tends _ => exact same _ _ tends.sameGraph tends.dirty_iff.mpr holds
  | retype isMarked _ => exact marked _ (dirty_retype (.inl rfl) (isMarked assumed))
  | untype isMarked => exact marked _ (dirty_retype (.inr rfl) (isMarked assumed))
  | record records =>
    rcases records.fence assumed with isFenced | edges
    · exact fenced _ isFenced
    · exact same _ _ (sameGraph_of_touches (fun _ other => records.get_eq other) edges) records.dirty holds

theorem Mutates.dirty (mutates : Mutates env space terms world op) (marked : Dirty space world.kv) :
    Dirty space (handler env op world).2.kv := by
  cases mutates with
  | tick => exact marked
  | look reads => exact (KvOp.looks_kv reads).symm ▸ marked
  | tend _ tends _ => exact tends.dirty_iff.mpr marked
  | retype _ _ => exact dirty_retype (.inl rfl) marked
  | untype _ => exact dirty_retype (.inr rfl) marked
  | record records => exact records.dirty marked

theorem Mutates.guarded (assumed : terms.closed) (mutates : Mutates env space terms world op)
    (holds : Guarded space world.kv) : Guarded space (handler env op world).2.kv :=
  mutates.keeps assumed (fun _ => .inl) (fun _ => Fenced.guarded)
    (fun _ _ same dirty => Or.imp dirty same.complete) holds

theorem Mutates.fenced (assumed : terms.closed) (mutates : Mutates env space terms world op)
    (holds : Fenced space world.kv) : Fenced space (handler env op world).2.kv :=
  mutates.keeps assumed (fun _ => .inl) (fun _ => id) (fun _ _ same dirty => Or.imp dirty same.underived) holds

theorem Mutates.mirrored (mutates : Mutates env space terms world op)
    (mirrored : Mirrored space world.kv) : Mirrored space (handler env op world).2.kv := by
  have same : ∀ {kv : KV}, (∀ key, key.kind space = some "edge" ∨ key.kind space = some "in-edge" →
      kv.get key = world.kv.get key) → Mirrored space kv := by
    intro kv unchanged t rank
    rw [unchanged _ (.inr (t.kind_inKey space rank)), unchanged _ (.inl (t.kind_key space rank)), mirrored t rank]
  cases mutates with
  | tick => exact mirrored
  | look reads => exact (KvOp.looks_kv reads).symm ▸ mirrored
  | tend _ tends _ =>
    refine same fun key kind => tends.get_eq ?_
    rcases kind with kind | kind <;> rw [region_of_kind kind] <;> simp [regionOf]
  | retype _ _ => exact same fun key kind => get_retype (.inl rfl) (by rcases kind with kind | kind <;> simp [kind])
  | untype _ => exact same fun key kind => get_retype (.inr rfl) (by rcases kind with kind | kind <;> simp [kind])
  | record records => exact records.mirrored mirrored

/-- The assumptions under which the operations of a mutation are stated. -/
structure Ready (env : Env) (space : String) (terms : Terms) (world : World) : Prop where
  ahead : terms.timely → Ahead env world
  guarded : terms.closed → Guarded space world.kv

/-- The same once the assertions of a statement have been handed over. -/
structure Settled (env : Env) (space : String) (terms : Terms) (world : World) : Prop where
  ahead : terms.timely → Ahead env world
  fenced : terms.closed → Fenced space world.kv

theorem Mutates.ready (world : World) (op : Op Key Val) (mutates : Mutates env space terms world op)
    (ready : Ready env space terms world) : Ready env space terms (handler env op world).2 :=
  ⟨fun assumed => mutates.ahead (ready.ahead assumed), fun assumed => mutates.guarded assumed (ready.guarded assumed)⟩

theorem Mutates.settled (world : World) (op : Op Key Val) (mutates : Mutates env space terms world op)
    (settled : Settled env space terms world) : Settled env space terms (handler env op world).2 :=
  ⟨fun assumed => mutates.ahead (settled.ahead assumed), fun assumed => mutates.fenced assumed (settled.fenced assumed)⟩

end ByoriDB.Executor
