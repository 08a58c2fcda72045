import ByoriDB.Store.Overlay

/-! A program that succeeds on the overlay gets the same answers as on the store itself. -/

namespace ByoriDB.Store

open List Std
open Data Program
open Scoped
open MutationStore (puts)
open KvOp (rows)

variable {κ ν : Type} [Ord κ] {changes changes' : Changes κ ν} {layout : Layout κ ν} {maxBytes : Nat}
  {content : Content κ ν} {world : World κ ν} {key : κ} {versions : List (VersionRecord ν)}
  {writes : List (κ × Option ν)} {rows : List (VersionRow κ ν)} {value : Option ν}

theorem Changes.addVersions_versions (staged : changes.addVersions layout maxBytes rows = .ok changes') :
    changes'.values = changes.values ∧ changes'.versions = changes.versions ++ rows := by
  obtain ⟨_, _, added⟩ := bind_eq_ok staged
  cases added
  exact ⟨rfl, rfl⟩

theorem newerFirst_iff {left right : VersionRecord ν} : newerFirst left right = true ↔
      right.validFrom < left.validFrom ∨ (left.validFrom = right.validFrom ∧ right.tx ≤ left.tx) := by
  simp [newerFirst]

theorem HistoryKey.newerFirst_of_lt [LawfulEqOrd κ] {left right : HistoryKey κ × (Int × ν)}
    (before : compare left.1 right.1 = .lt) (same : left.1.entity = right.1.entity) :
    newerFirst (recordOf left) (recordOf right) = true := by
  rw [HistoryKey.compare_lt_iff same] at before
  rw [newerFirst_iff]
  simp only [recordOf]
  omega

variable [TransOrd κ]

namespace Changes

/-- The effect of one staged write on the content. -/
def write (content : Content κ ν) (key : κ) (value : Option ν) : Content κ ν :=
  { content with kv := match value with
      | some value => content.kv.insert key value
      | none => content.kv.erase key }

theorem set_values (staged : changes.set layout maxBytes key value = .ok changes') :
    changes'.values = changes.values.insert key value ∧ changes'.versions = changes.versions := by
  obtain ⟨_, _, written⟩ := bind_eq_ok staged
  cases written
  exact ⟨rfl, rfl⟩

theorem foldl_write_puts (pairs : List (κ × ν)) (content : Content κ ν) :
    (pairs.map fun pair => (pair.1, some pair.2)).foldl (fun content next => write content next.1 next.2) content =
      { content with kv := content.kv.putAll pairs } := by
  induction pairs generalizing content with
  | nil => rfl
  | cons pair rest ih =>
    rw [map_cons, foldl_cons, ih]
    rfl

theorem foldl_write_deletes (keys : List κ) (content : Content κ ν) :
    (keys.map fun key => (key, (none : Option ν))).foldl (fun content next => write content next.1 next.2) content =
      { content with kv := content.kv.eraseAll keys } := by
  induction keys generalizing content with
  | nil => rfl
  | cons key rest ih =>
    rw [map_cons, foldl_cons, ih]
    rfl

theorem write_counter {amount updated : Int}
    (sum : ((content.kv.get key).map layout.looseCounter).getD 0 + amount = updated) :
    write content key (if updated ≤ 0 then none else some (layout.counter updated)) =
      { content with kv := layout.addCounter content.kv (key, amount) } := by
  simp only [Layout.addCounter, sum]
  by_cases gone : updated ≤ 0 <;> simp [write, gone]

def applyTo (changes : Changes κ ν) (content : Content κ ν) : Content κ ν :=
  ⟨content.kv.applyAll changes.values.toList, content.history.putAll (changes.versions.map VersionRow.entry)⟩

theorem setAll_versions (staged : changes.setAll layout maxBytes writes = .ok changes') :
    changes'.versions = changes.versions := by
  induction writes generalizing changes with
  | nil =>
    cases staged
    rfl
  | cons next rest ih =>
    obtain ⟨between, first, later⟩ := bind_eq_ok staged
    rw [ih later, (set_values first).2]

theorem addVersions_applyTo (staged : changes.addVersions layout maxBytes rows = .ok changes')
    (content : Content κ ν) : changes'.applyTo content = (changes.applyTo content).putVersions rows := by
  obtain ⟨values, versions⟩ := addVersions_versions staged
  simp [applyTo, Content.putVersions, putAll_append, values, versions]

end Changes

section

variable [LawfulEqOrd κ]

namespace Changes

@[simp] theorem applyTo_nothing (content : Content κ ν) :
    Changes.nothing.applyTo content = content := by
  have empty : (Table.empty : Table κ (Option ν)).toList = [] := by
    apply eq_nil_iff_forall_not_mem.mpr
    rintro ⟨key, value⟩ mem
    rw [mem_toList, get_empty] at mem
    exact absurd mem (by simp)
  simp [applyTo, Changes.nothing, empty, Table.applyAll]

theorem mem_puts {value : ν} :
    (key, value) ∈ puts changes ↔ changes.values.get key = some (some value) := by
  rw [puts, mem_filterMap, ← mem_toList]
  constructor
  · rintro ⟨⟨target, _ | stored⟩, mem, ⟨⟩⟩
    exact mem
  · exact fun mem => ⟨_, mem, rfl⟩

theorem mem_deletes : key ∈ MutationStore.deletes changes ↔ changes.values.get key = some none := by
  rw [MutationStore.deletes, mem_filterMap, ← mem_toList]
  constructor
  · rintro ⟨⟨target, _ | stored⟩, mem, ⟨⟩⟩
    exact mem
  · exact fun mem => ⟨_, mem, rfl⟩

end Changes

variable [DecidableEq κ]

namespace Changes

section

variable (changes) (content)

theorem get_applyTo (key : κ) :
    (changes.applyTo content).kv.get key = (changes.values.get key).getD (content.kv.get key) := by
  rw [applyTo, get_applyAll, lastPut_toList]

end

theorem set_applyTo (staged : changes.set layout maxBytes key value = .ok changes')
    (content : Content κ ν) : changes'.applyTo content = write (changes.applyTo content) key value := by
  obtain ⟨values, versions⟩ := set_values staged
  have sameKv : (changes'.applyTo content).kv = (write (changes.applyTo content) key value).kv := by
    apply Table.ext
    intro other
    rw [get_applyTo, values, get_insert]
    cases value <;> by_cases same : other = key <;> simp [write, same, get_applyTo]
  have sameHistory : (changes'.applyTo content).history = (write (changes.applyTo content) key value).history := by
    simp [applyTo, write, versions]
  exact congrArg₂ Content.mk sameKv sameHistory

theorem setAll_applyTo (staged : changes.setAll layout maxBytes writes = .ok changes')
    (content : Content κ ν) :
    changes'.applyTo content =
      writes.foldl (fun content next => write content next.1 next.2) (changes.applyTo content) := by
  induction writes generalizing changes with
  | nil =>
    cases staged
    rfl
  | cons next rest ih =>
    obtain ⟨between, first, later⟩ := bind_eq_ok staged
    rw [foldl_cons, ← set_applyTo first]
    exact ih later

theorem batchApply_commit (changes : Changes κ ν) (content : Content κ ν) :
    content.batchApply (puts changes) (MutationStore.deletes changes) changes.versions =
      changes.applyTo content := by
  have sameKv : (content.kv.putAll (puts changes)).eraseAll (MutationStore.deletes changes) =
      content.kv.applyAll changes.values.toList := by
    apply Table.ext
    intro key
    rw [get_eraseAll, get_putAll, get_applyAll, lastPut_toList]
    cases written : changes.values.get key with
    | none =>
      have notPut : key ∉ (puts changes).map Prod.fst := by
        intro listed
        obtain ⟨⟨_, value⟩, mem, rfl⟩ := mem_map.mp listed
        have stored := mem_puts.mp mem
        rw [written] at stored
        exact absurd stored (by simp)
      rw [if_neg (by simp [mem_deletes, written]), lastPut_eq_none.mpr notPut]
      rfl
    | some value =>
      cases value with
      | none => rw [if_pos (mem_deletes.mpr written)]; rfl
      | some value =>
        rw [if_neg (by simp [mem_deletes, written])]
        cases found : lastPut (puts changes) key with
        | none =>
          have mem := mem_map_of_mem (f := Prod.fst) (mem_puts.mpr written)
          exact absurd mem (lastPut_eq_none.mp found)
        | some last =>
          have stored := mem_puts.mp (mem_of_lastPut found)
          rw [written, Option.some.injEq, Option.some.injEq] at stored
          simp [stored]
  rw [Content.batchApply, sameKv]
  rfl

/-- No staged version has the times of another version of its entity. -/
structure FreshVersions (changes : Changes κ ν) (content : Content κ ν) : Prop where
  apart : (changes.versions.map VersionRow.key).Nodup
  unused : ∀ row ∈ changes.versions, content.history.get row.key = none

end Changes

theorem newerFirst_trans (first second third : VersionRecord ν)
    (early : newerFirst first second = true) (late : newerFirst second third = true) :
    newerFirst first third = true := by
  rw [newerFirst_iff] at *
  omega

theorem newerFirst_total (first second : VersionRecord ν) :
    (newerFirst first second || newerFirst second first) = true := by
  rw [Bool.or_eq_true, newerFirst_iff, newerFirst_iff]
  omega

theorem resolveAsOf_from {chosen : VersionRecord ν} (newest : ∀ version ∈ versions, newerFirst chosen version = true) :
    versions.foldl (newerAsOf validAt txAt) (some chosen) = some chosen := by
  induction versions with
  | nil => rfl
  | cons version rest ih =>
    have before := newest version mem_cons_self
    rw [newerFirst_iff] at before
    rw [foldl_cons]
    simp only [newerAsOf, if_pos before, ite_self]
    exact ih fun version mem => newest version (mem_cons_of_mem _ mem)

theorem resolveAsOf_eq_find
    (sorted : versions.Pairwise fun first second => newerFirst first second = true) :
    resolveAsOf versions validAt txAt = versions.find? (VersionRecord.covers validAt txAt) := by
  induction versions with
  | nil => rfl
  | cons version rest ih =>
    rw [pairwise_cons] at sorted
    by_cases counts : version.covers validAt txAt = true
    · rw [List.find?_cons_of_pos counts, resolveAsOf, foldl_cons, newerAsOf, if_pos counts]
      exact resolveAsOf_from sorted.1
    · rw [List.find?_cons_of_neg counts, ← ih sorted.2, resolveAsOf, foldl_cons, newerAsOf, if_neg counts, resolveAsOf]

theorem Content.sorted_scanHistory (content : Content κ ν) (entity : κ) :
    (content.scanHistory entity).Pairwise fun first second => newerFirst first second = true := by
  rw [Content.scanHistory, pairwise_map]
  refine (content.history.ordered_select _).imp_of_mem ?_
  intro left right leftMember rightMember before
  apply HistoryKey.newerFirst_of_lt before
  have leftEntity := (mem_select.mp leftMember).2
  have rightEntity := (mem_select.mp rightMember).2
  rw [decide_eq_true_eq] at leftEntity rightEntity
  rw [leftEntity, rightEntity]

namespace Changes

section

variable (fresh : changes.FreshVersions content)

include fresh

theorem mem_history_applyTo (entry : HistoryKey κ × (Int × ν)) :
    (changes.applyTo content).history.get entry.1 = some entry.2 ↔ content.history.get entry.1 =
      some entry.2 ∨ entry ∈ changes.versions.map VersionRow.entry := by
  have distinct : ((changes.versions.map VersionRow.entry).map Prod.fst).Nodup := by
    rw [map_map]
    exact fresh.apart
  have staged : lastPut _ entry.1 = some entry.2 ↔ _ := Table.lastPut_eq_some distinct
  rw [applyTo, get_putAll]
  cases found : lastPut (changes.versions.map VersionRow.entry) entry.1 with
  | none =>
    rw [found] at staged
    have absent : entry ∉ changes.versions.map VersionRow.entry :=
      fun mem => absurd (staged.mpr mem) (by simp)
    simp [absent]
  | some value =>
    rw [found] at staged
    obtain ⟨row, listed, same⟩ := mem_map.mp (mem_of_lastPut found)
    have unused := fresh.unused row listed
    have sameKey : row.key = entry.1 := congrArg Prod.fst same
    rw [sameKey] at unused
    simp [unused, staged]

theorem perm_history_applyTo : (content.history.select (fun key => key.entity = entity) ++
        (changes.versions.filter fun row => row.entity = entity).map VersionRow.entry).Perm
      ((changes.applyTo content).history.select fun key => key.entity = entity) := by
  have nodupOf : ∀ table : Table (HistoryKey κ) (Int × ν), (table.select fun key => key.entity = entity).Nodup :=
    fun table => .of_map Prod.fst (table.nodup_select _)
  have stagedNodup : ((changes.versions.filter fun row => row.entity = entity).map VersionRow.entry).Nodup := by
    apply List.Nodup.of_map Prod.fst
    rw [map_map]
    exact fresh.apart.sublist (filter_sublist.map _)
  have apart : List.Disjoint (content.history.select fun key => key.entity = entity)
      ((changes.versions.filter fun row => row.entity = entity).map VersionRow.entry) := by
    intro entry stored staged
    obtain ⟨row, listed, rfl⟩ := mem_map.mp staged
    have unused := fresh.unused row (mem_of_mem_filter listed)
    have held := (mem_select.mp stored).1
    rw [unused] at held
    exact absurd held (by simp)
  refine (perm_ext_iff_of_nodup (nodupOf _ |>.append stagedNodup apart) (nodupOf _)).mpr ?_
  rintro ⟨key, value⟩
  rw [mem_append, mem_select, mem_select, mem_history_applyTo fresh (key, value)]
  constructor
  · rintro (⟨stored, wanted⟩ | staged)
    · exact ⟨.inl stored, wanted⟩
    · obtain ⟨row, listed, ⟨⟩⟩ := mem_map.mp staged
      obtain ⟨mem, wanted⟩ := mem_filter.mp listed
      exact ⟨.inr (mem_map_of_mem mem), wanted⟩
  · rintro ⟨stored | staged, wanted⟩
    · exact .inl ⟨stored, wanted⟩
    · obtain ⟨row, mem, ⟨⟩⟩ := mem_map.mp staged
      exact .inr (mem_map_of_mem (mem_filter.mpr ⟨mem, wanted⟩))

/-- Merging the staged versions into the base's list gives the list of the
updated store. -/
theorem scanHistory_applyTo (entity : κ) : (content.scanHistory entity ++
        (changes.versions.filter fun row => row.entity = entity).map VersionRow.record).mergeSort newerFirst =
      (changes.applyTo content).scanHistory entity := by
  have records : (changes.versions.filter fun row => row.entity = entity).map VersionRow.record =
      ((changes.versions.filter fun row => row.entity = entity).map VersionRow.entry).map recordOf := by
    rw [map_map]
    rfl
  have perm : ((content.scanHistory entity ++
      (changes.versions.filter fun row => row.entity = entity).map VersionRow.record).mergeSort newerFirst).Perm
      ((changes.applyTo content).scanHistory entity) := by
    refine (mergeSort_perm _ _).trans ?_
    rw [records, Content.scanHistory, ← map_append]
    exact (perm_history_applyTo fresh).map recordOf
  refine perm.eq_of_pairwise ?_ (pairwise_mergeSort newerFirst_trans newerFirst_total _)
    (Content.sorted_scanHistory _ entity)
  -- Two versions of one entity with the same times are one row of the table.
  intro first second firstMember secondMember before after
  obtain ⟨⟨firstKey, firstRow⟩, firstListed, rfl⟩ := mem_map.mp (perm.mem_iff.mp firstMember)
  obtain ⟨⟨secondKey, secondRow⟩, secondListed, rfl⟩ := mem_map.mp secondMember
  obtain ⟨firstStored, firstEntity⟩ := mem_select.mp firstListed
  obtain ⟨secondStored, secondEntity⟩ := mem_select.mp secondListed
  rw [newerFirst_iff] at before after
  simp only [recordOf, decide_eq_true_eq] at before after firstEntity secondEntity
  have sameKey : firstKey = secondKey := by
    cases firstKey
    cases secondKey
    simp only [HistoryKey.mk.injEq] at *
    exact ⟨firstEntity.trans secondEntity.symm, by omega, by omega⟩
  rw [sameKey, secondStored, Option.some.injEq] at firstStored
  rw [sameKey, firstStored]

end

theorem scanHistoryEntityKeys_applyTo (changes : Changes κ ν) (content : Content κ ν)
    (selects : κ → Bool) : Table.distinct (content.scanHistoryEntityKeys selects ++
        (changes.versions.filter fun row => selects row.entity).map VersionRow.entity) =
      (changes.applyTo content).scanHistoryEntityKeys selects := by
  have listed : ∀ (table : Table (HistoryKey κ) (Int × ν)) (entity : κ),
      entity ∈ Table.distinct ((table.select fun key => selects key.entity).map fun entry => entry.1.entity) ↔
        selects entity = true ∧ ∃ key, key.entity = entity ∧ (table.get key).isSome := by
    intro table entity
    rw [mem_distinct, mem_map]
    constructor
    · rintro ⟨⟨key, value⟩, mem, rfl⟩
      obtain ⟨stored, wanted⟩ := mem_select.mp mem
      exact ⟨wanted, key, rfl, by simp [stored]⟩
    · rintro ⟨wanted, key, rfl, stored⟩
      obtain ⟨value, stored⟩ := Option.isSome_iff_exists.mp stored
      exact ⟨(key, value), mem_select.mpr ⟨stored, wanted⟩, rfl⟩
  apply Table.ascending_ext (ordered_distinct _) (ordered_distinct _)
  intro entity
  rw [mem_distinct, mem_append, Content.scanHistoryEntityKeys, listed, listed, mem_map]
  constructor
  · rintro (⟨wanted, key, rfl, stored⟩ | ⟨row, mem, rfl⟩)
    · refine ⟨wanted, key, rfl, ?_⟩
      rw [applyTo, get_putAll]
      simp [stored]
    · obtain ⟨mem, wanted⟩ := mem_filter.mp mem
      refine ⟨wanted, row.key, rfl, ?_⟩
      rw [applyTo, get_putAll]
      cases found : lastPut (changes.versions.map VersionRow.entry) row.key with
      | some value => rfl
      | none =>
        have kept := mem_map_of_mem (f := Prod.fst) (mem_map_of_mem (f := VersionRow.entry) mem)
        exact absurd kept (lastPut_eq_none.mp found)
  · rintro ⟨wanted, key, rfl, stored⟩
    rw [applyTo, get_putAll] at stored
    cases found : lastPut (changes.versions.map VersionRow.entry) key with
    | none =>
      rw [found, Option.none_or] at stored
      exact .inl ⟨wanted, key, rfl, stored⟩
    | some value =>
      obtain ⟨row, mem, ⟨⟩⟩ := mem_map.mp (mem_of_lastPut found)
      exact .inr ⟨row, mem_filter.mpr ⟨mem, wanted⟩, rfl⟩

end Changes

/-- The base's rows with the staged ones laid over them are the rows of the
updated store. -/
theorem MutationStore.select_applyTo (layout : Layout κ ν)
    (changes : Changes κ ν) (content : Content κ ν) (selects : κ → Bool) :
    ((Table.ofList (layout.arrange (content.kv.select selects))).applyAll
      (changes.values.select selects)).toList = (changes.applyTo content).kv.select selects := by
  apply ordered_ext (ordered_toList _) (ordered_select _ _)
  rintro ⟨key, value⟩
  rw [mem_toList, mem_select, get_applyAll, lastPut_select, get_ofList,
    Table.lastPut_perm (layout.arrange_perm _) (content.kv.nodup_select selects), lastPut_select,
    Changes.get_applyTo]
  by_cases selected : selects key = true <;> simp [selected]

end

namespace MutationStore

variable [DecidableEq κ] [Scoped κ] {ε : Type} {env : Env κ ν} {maxBytes : Nat}
  {refuse : StagingError → ε} {scope : Scope κ} {op : KvOp κ ν}

/-- What is done on the base while a statement is staged: it is read, by methods
that `plain` admits, and the transaction clock may tick. -/
def staging (plain : KvOp κ ν → Prop) (_ : World κ ν) : Op κ ν → Prop
  | .kv op => op.isRead = true ∧ plain op
  | .txNow => True

/-- Each method reads the base by methods that are admitted where it is. -/
structure Closed (plain : KvOp κ ν → Prop) : Prop where
  get : ∀ key, plain (.get key)
  count : ∀ scope, plain (.countPrefix scope) → plain (.scanPrefix scope)
  asOf : ∀ entity validAt txAt, plain (.getAsOf entity validAt txAt) → plain (.scanHistory entity)

theorem closed_any {κ ν : Type} [Scoped κ] : Closed (fun _ : KvOp κ ν => True) :=
  ⟨fun _ => trivial, fun _ _ => trivial, fun _ _ _ _ => trivial⟩

variable {plain : KvOp κ ν → Prop}

theorem wp_staged {result : Except StagingError (Changes κ ν)}
    {post : Unit × Changes κ ν → World κ ν → Prop}
    (holds : ∀ changes, result = .ok changes → post ((), changes) world) :
    (staged refuse result).wp (handler env) (staging plain) post world := by
  cases result with
  | error reason => trivial
  | ok changes => exact holds changes rfl

theorem wp_staged_ok (plain : KvOp κ ν → Prop) (result : Except StagingError (Changes κ ν)) :
    (staged refuse result).wp (handler env) (staging plain)
      (fun out world' => result = .ok out.2 ∧ world' = world) world :=
  wp_staged fun _ staged => ⟨staged, rfl⟩

theorem wp_readCounter (plain : KvOp κ ν → Prop) (current : Option ν) (world : World κ ν) :
    (readCounter env.toLayout refuse current : Prog (signature κ ν) ε _).wp (handler env) (staging plain)
      (fun count world' => count = (current.map env.looseCounter).getD 0 ∧ world' = world) world := by
  cases current with
  | none => exact ⟨rfl, rfl⟩
  | some value =>
    rw [readCounter]
    cases strict : env.counterOf value with
    | none => trivial
    | some count => exact ⟨(env.looseCounter_of_counterOf value count strict).symm, rfl⟩

theorem wp_handle_read (read : op.isRead = true) (changes : Changes κ ν) (world : World κ ν) :
    (handle env.toLayout maxBytes refuse changes op).wp (handler env) (fun _ _ => True)
      (fun out _ => out.2 = changes) world := by
  cases op with
  | get | batchGet | scanPrefix | countPrefix | scanHistory | scanHistoryEntityKeys | getAsOf =>
    exact wp_seq (Prog.wp_trivial _ world) fun _ _ _ => rfl
  | _ => cases read

variable [LawfulEqOrd κ]

theorem wp_get (closed : Closed plain) (key : κ) (changes : Changes κ ν) (world : World κ ν) :
    (get key changes : Prog (signature κ ν) ε _).wp (handler env) (staging plain)
      (fun found world' => found = (changes.applyTo world.content).kv.get key ∧ world' = world) world := by
  rw [get, Changes.get_applyTo]
  cases changes.values.get key with
  | some value => exact ⟨rfl, rfl⟩
  | none => exact ⟨⟨rfl, closed.get key⟩, rfl, rfl⟩

theorem wp_batchGet (closed : Closed plain) (keys : List κ) (changes : Changes κ ν) (world : World κ ν) :
    (batchGet changes keys : Prog (signature κ ν) ε _).wp (handler env) (staging plain)
      (fun rows world' => rows = keys.map (changes.applyTo world.content).kv.get ∧ world' = world) world := by
  induction keys with
  | nil => exact ⟨rfl, rfl⟩
  | cons key rest ih =>
    apply wp_seq (wp_get closed key changes world)
    rintro row world' ⟨rfl, rfl⟩
    apply wp_seq ih
    rintro rows world'' ⟨rfl, rfl⟩
    exact ⟨rfl, rfl⟩

theorem wp_scanPrefix (admitted : plain (.scanPrefix scope)) (changes : Changes κ ν) (world : World κ ν) :
    (scanPrefix env.toLayout scope changes : Prog (signature κ ν) ε _).wp (handler env) (staging plain)
      (fun rows world' =>
        rows = env.arrange ((changes.applyTo world.content).kv.select (covers scope)) ∧ world' = world) world := by
  refine ⟨⟨rfl, admitted⟩, ?_, rfl⟩
  rw [← select_applyTo env.toLayout]
  rfl

theorem wp_scanHistory {entity : κ}
    (admitted : plain (.scanHistory entity))
    (fresh : changes.FreshVersions world.content) :
    (scanHistory entity changes : Prog (signature κ ν) ε _).wp (handler env) (staging plain)
      (fun versions world' =>
        versions = (changes.applyTo world.content).scanHistory entity ∧ world' = world) world :=
  ⟨⟨rfl, admitted⟩, Changes.scanHistory_applyTo fresh entity, rfl⟩

theorem wp_scanHistoryEntityKeys (admitted : plain (.scanHistoryEntityKeys scope)) :
    (scanHistoryEntityKeys scope changes : Prog (signature κ ν) ε _).wp (handler env) (staging plain)
      (fun keys world' =>
        keys = (changes.applyTo world.content).scanHistoryEntityKeys (covers scope) ∧ world' = world) world :=
  ⟨⟨rfl, admitted⟩, Changes.scanHistoryEntityKeys_applyTo changes world.content (covers scope), rfl⟩

theorem wp_addCounters (closed : Closed plain) (deltas : List (κ × Int)) (changes : Changes κ ν) (world : World κ ν) :
    (addCounters env.toLayout maxBytes refuse changes deltas).wp (handler env) (staging plain)
      (fun out world' => out.2.applyTo world.content =
        { changes.applyTo world.content with kv := deltas.foldl env.addCounter (changes.applyTo world.content).kv } ∧
        out.2.versions = changes.versions ∧ world' = world) world := by
  induction deltas generalizing changes with
  | nil => exact ⟨rfl, rfl, rfl⟩
  | cons delta rest ih =>
    obtain ⟨key, amount⟩ := delta
    apply wp_seq (wp_get closed key changes world)
    rintro current world' ⟨rfl, rfl⟩
    apply wp_seq (wp_readCounter plain _ world')
    rintro count world'' ⟨rfl, rfl⟩
    dsimp only
    split
    · trivial
    · apply wp_bind.mpr
      apply wp_staged
      intro changes' set
      have written := Changes.set_applyTo set world''.content
      rw [Changes.write_counter rfl] at written
      have continued := ih changes'
      rw [written, (Changes.set_values set).2] at continued
      exact continued

/-- Each method answers on the overlay as it would on the updated store, and
what it stages is what it would have written there. -/
theorem wp_handle (closed : Closed plain) (admitted : plain op)
    (fresh : op.readsVersions = true → changes.FreshVersions world.content) :
    (handle env.toLayout maxBytes refuse changes op).wp (handler env) (staging plain)
      (fun out world' => (changes.applyTo world.content).perform env.toLayout op =
        (out.1, out.2.applyTo world.content) ∧ out.2.versions = changes.versions ++ op.rows ∧
        world' = world) world := by
  have batch : ∀ writes {changes changes' : Changes κ ν},
      changes.setAll env.toLayout maxBytes writes = .ok changes' → changes'.applyTo world.content =
        writes.foldl (fun content next => Changes.write content next.1 next.2) (changes.applyTo world.content) :=
    fun writes _ _ set => Changes.setAll_applyTo set world.content
  cases op with
  | get key =>
    apply wp_seq (wp_get closed key changes world)
    rintro _ _ ⟨rfl, rfl⟩
    exact ⟨rfl, by simp [rows], rfl⟩
  | batchGet keys =>
    apply wp_seq (wp_batchGet closed keys changes world)
    rintro _ _ ⟨rfl, rfl⟩
    exact ⟨rfl, by simp [rows], rfl⟩
  | scanPrefix scope =>
    apply wp_seq (wp_scanPrefix admitted changes world)
    rintro _ _ ⟨rfl, rfl⟩
    exact ⟨rfl, by simp [rows], rfl⟩
  | countPrefix scope =>
    apply wp_seq (wp_scanPrefix (closed.count scope admitted) changes world)
    rintro _ _ ⟨rfl, rfl⟩
    refine ⟨?_, by simp [rows], rfl⟩
    rw [(env.arrange_perm _).length_eq]
    rfl
  | scanHistory entity =>
    apply wp_seq (wp_scanHistory admitted (fresh rfl))
    rintro _ _ ⟨rfl, rfl⟩
    exact ⟨rfl, by simp [rows], rfl⟩
  | scanHistoryEntityKeys scope =>
    apply wp_seq (wp_scanHistoryEntityKeys admitted)
    rintro _ _ ⟨rfl, rfl⟩
    exact ⟨rfl, by simp [rows], rfl⟩
  | getAsOf entity validAt txAt =>
    apply wp_seq (wp_scanHistory (closed.asOf entity validAt txAt admitted) (fresh rfl))
    rintro _ _ ⟨rfl, rfl⟩
    refine ⟨?_, by simp [rows], rfl⟩
    rw [resolveAsOf_eq_find (Content.sorted_scanHistory _ entity)]
    rfl
  | put | delete =>
    apply wp_staged
    intro changes' set
    rw [Changes.set_applyTo set]
    exact ⟨rfl, by simp [rows, (Changes.set_values set).2], rfl⟩
  | putIfAbsent key value =>
    apply wp_seq (wp_get closed key changes world)
    rintro found _ ⟨read, rfl⟩
    cases found with
    | some existing =>
      simp only [Content.perform, ← read]
      exact ⟨rfl, by simp [rows], rfl⟩
    | none =>
      apply wp_bind.mpr
      apply wp_staged
      intro changes' set
      simp only [Content.perform, ← read]
      exact ⟨Prod.ext rfl (Changes.set_applyTo set _).symm, by simp [rows, (Changes.set_values set).2], rfl⟩
  | batchPut pairs =>
    apply wp_staged
    intro changes' set
    rw [batch _ set, Changes.foldl_write_puts]
    exact ⟨rfl, by simp [rows, Changes.setAll_versions set], rfl⟩
  | batchDelete keys =>
    apply wp_staged
    intro changes' set
    rw [batch _ set, Changes.foldl_write_deletes]
    exact ⟨rfl, by simp [rows, Changes.setAll_versions set], rfl⟩
  | batchPutVersion versions =>
    apply wp_staged
    intro changes' added
    rw [Changes.addVersions_applyTo added]
    exact ⟨rfl, (Changes.addVersions_versions added).2, rfl⟩
  | batchApply puts deletes versions =>
    apply wp_staged
    intro changes' applied
    obtain ⟨afterPuts, put, applied⟩ := bind_eq_ok applied
    obtain ⟨afterDeletes, deleted, added⟩ := bind_eq_ok applied
    rw [Changes.addVersions_applyTo added, batch _ deleted, batch _ put, Changes.foldl_write_puts,
      Changes.foldl_write_deletes]
    refine ⟨rfl, ?_, rfl⟩
    rw [(Changes.addVersions_versions added).2, Changes.setAll_versions deleted, Changes.setAll_versions put]
    rfl
  | addCounters deltas =>
    apply wp_imp (wp_addCounters closed deltas changes world)
    rintro out world' ⟨applied, versions, rfl⟩
    rw [applied]
    exact ⟨rfl, by simp [rows, versions], rfl⟩

end MutationStore
end ByoriDB.Store
