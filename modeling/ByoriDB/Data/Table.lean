import Mathlib.Algebra.Order.Ring.Int
import Mathlib.Data.List.Dedup
import Mathlib.Data.List.Forall2
import Std.Data.ExtTreeMap

namespace ByoriDB.Data

variable {α : Type}

open List Std

structure Table (κ ν : Type) [Ord κ] where
  entries : ExtTreeMap κ ν compare

namespace Table

variable {κ ν : Type} {pairs : List (κ × ν)} {key : κ} {value : ν} {counts : κ → ν → Bool} {keys : List κ}

section

variable [DecidableEq κ]

/-- The value the last pair with this key gives it. -/
def lastPut : List (κ × ν) → κ → Option ν
  | [], _ => none
  | pair :: pairs, key => (lastPut pairs key).or (if key = pair.1 then some pair.2 else none)

theorem lastPut_append (first second : List (κ × ν)) (key : κ) :
    lastPut (first ++ second) key = (lastPut second key).or (lastPut first key) := by
  induction first with
  | nil => simp [lastPut]
  | cons pair rest ih => rw [cons_append, lastPut, ih, lastPut, Option.or_assoc]

theorem mem_of_lastPut
    (found : lastPut pairs key = some value) : (key, value) ∈ pairs := by
  induction pairs with
  | nil => simp [lastPut] at found
  | cons head rest ih =>
    rw [lastPut] at found
    cases later : lastPut rest key with
    | some other =>
      rw [later, Option.some_or, Option.some.injEq] at found
      exact mem_cons_of_mem _ (ih (found ▸ later))
    | none =>
      obtain ⟨atHead, rfl⟩ : key = head.1 ∧ head.2 = value := by
        by_cases atHead : key = head.1 <;> simp_all
      exact mem_cons.mpr (.inl (Prod.ext atHead rfl))

theorem lastPut_eq_none : lastPut pairs key = none ↔ key ∉ pairs.map Prod.fst := by
  induction pairs with
  | nil => simp [lastPut]
  | cons head rest ih =>
    rw [lastPut, map_cons, mem_cons, not_or, ← ih]
    by_cases atHead : key = head.1 <;> simp [atHead]

/-- The last put to a key is the last one in the list. -/
theorem lastPut_eq_getLast? (pairs : List (κ × ν)) (key : κ) :
    lastPut pairs key = (pairs.filter fun pair => pair.1 = key).getLast?.map Prod.snd := by
  induction pairs with
  | nil => rfl
  | cons pair rest ih =>
    rw [lastPut, ih]
    by_cases same : key = pair.1
    · subst same
      cases last : (rest.filter fun other => decide (other.1 = pair.1)).getLast? with
      | none => simp [List.getLast?_cons, last]
      | some found => simp [List.getLast?_cons, last]
    · have other : ¬ pair.1 = key := fun equal => same equal.symm
      simp [same, other]

theorem lastPut_map {μ : Type} (pairs : List (κ × ν)) (f : ν → μ) (key : κ) :
    lastPut (pairs.map fun pair => (pair.1, f pair.2)) key = (lastPut pairs key).map f := by
  induction pairs with
  | nil => rfl
  | cons pair rest ih =>
    rw [map_cons, lastPut, ih, lastPut]
    cases lastPut rest key <;> by_cases here : key = pair.1 <;> simp [here]

theorem lastPut_eq_some (distinct : (pairs.map Prod.fst).Nodup) : lastPut pairs key = some value ↔ (key, value) ∈ pairs := by
  constructor
  · exact mem_of_lastPut
  · intro mem
    cases found : lastPut pairs key with
    | none => exact absurd (mem_map_of_mem mem) (lastPut_eq_none.mp found)
    | some other =>
      have same := inj_on_of_nodup_map distinct (mem_of_lastPut found) mem rfl
      rw [Prod.mk.injEq] at same
      rw [same.2]

theorem lastPut_perm {left right : List (κ × ν)} (same : left.Perm right)
    (distinct : (right.map Prod.fst).Nodup) (key : κ) : lastPut left key = lastPut right key := by
  have distinctLeft : (left.map Prod.fst).Nodup := (same.map Prod.fst).nodup_iff.mpr distinct
  apply Option.ext
  intro value
  rw [lastPut_eq_some distinct, lastPut_eq_some distinctLeft, same.mem_iff]

end

variable [Ord κ] [TransOrd κ] {table : Table κ ν}

def empty : Table κ ν := ⟨∅⟩

section

variable (table : Table κ ν)

def get (key : κ) : Option ν := table.entries[key]?

def insert (key : κ) (value : ν) : Table κ ν :=
  ⟨table.entries.insert key value⟩

def erase (key : κ) : Table κ ν :=
  ⟨table.entries.erase key⟩

def toList : List (κ × ν) := table.entries.toList

def putAll (pairs : List (κ × ν)) : Table κ ν :=
  pairs.foldl (fun table pair => table.insert pair.1 pair.2) table

def eraseAll (keys : List κ) : Table κ ν :=
  keys.foldl (fun table key => table.erase key) table

def ofList (pairs : List (κ × ν)) : Table κ ν := putAll empty pairs

def select (selects : κ → Bool) : List (κ × ν) :=
  table.toList.filter fun pair => selects pair.1

@[simp] theorem get_empty (key : κ) : (empty : Table κ ν).get key = none := by
  simp [empty, get]

@[simp] theorem putAll_nil : table.putAll [] = table := rfl

@[simp] theorem putAll_cons (pair : κ × ν) (pairs : List (κ × ν)) :
    table.putAll (pair :: pairs) = (table.insert pair.1 pair.2).putAll pairs := rfl

theorem putAll_append (first second : List (κ × ν)) :
    table.putAll (first ++ second) = (table.putAll first).putAll second :=
  foldl_append

@[simp] theorem eraseAll_nil : table.eraseAll [] = table := rfl

@[simp] theorem eraseAll_cons (key : κ) (keys : List κ) :
    table.eraseAll (key :: keys) = (table.erase key).eraseAll keys := rfl

end

theorem ordered_toList (table : Table κ ν) : table.toList.Pairwise fun left right => compare left.1 right.1 = .lt :=
  ExtTreeMap.ordered_keys_toList

theorem toList_inj {left right : Table κ ν} (same : left.toList = right.toList) : left = right := by
  cases left
  cases right
  exact congrArg Table.mk (ExtTreeMap.toList_inj.mp same)

theorem get_foldl {γ : Type*} {effect : Table κ ν → γ → Table κ ν}
    (same : ∀ table item, (effect table item).get key = table.get key)
    (items : List γ) (table : Table κ ν) : (items.foldl effect table).get key = table.get key := by
  induction items generalizing table with
  | nil => rfl
  | cons item rest ih => rw [foldl_cons, ih, same]

theorem select_toList (table : Table κ ν) : table.select (fun _ => true) = table.toList := by
  simp [select]

theorem ordered_select (table : Table κ ν) (selects : κ → Bool) :
    (table.select selects).Pairwise fun left right => compare left.1 right.1 = .lt :=
  table.ordered_toList.filter _

def distinct (keys : List κ) : List κ :=
  ((ofList (keys.map fun key => (key, ()))).toList).map Prod.fst

theorem ordered_distinct (keys : List κ) : (distinct keys).Pairwise fun first second => compare first second = .lt :=
  pairwise_map.mpr (ordered_toList _)

def count (table : Table κ ν) (counts : κ → ν → Bool) : Nat :=
  table.toList.countP fun entry => counts entry.1 entry.2

variable [LawfulEqOrd κ]

@[ext] theorem ext {left right : Table κ ν} (same : ∀ key : κ, left.get key = right.get key) : left = right := by
  cases left
  cases right
  exact congrArg Table.mk (ExtTreeMap.ext_getElem? fun key => same key)

theorem mem_toList : (key, value) ∈ table.toList ↔ table.get key = some value :=
  ExtTreeMap.mem_toList_iff_getElem?_eq_some

/-- A list in key order is determined by its members. -/
theorem ordered_ext {left right : List (κ × ν)}
    (leftOrdered : left.Pairwise fun first second => compare first.1 second.1 = .lt)
    (rightOrdered : right.Pairwise fun first second => compare first.1 second.1 = .lt)
    (same : ∀ pair, pair ∈ left ↔ pair ∈ right) : left = right := by
  have distinct : ∀ {pairs : List (κ × ν)},
      pairs.Pairwise (fun first second => compare first.1 second.1 = .lt) → pairs.Nodup := by
    intro pairs ordered
    refine ordered.imp ?_
    rintro first second before rfl
    simp at before
  have perm := (perm_ext_iff_of_nodup (distinct leftOrdered) (distinct rightOrdered)).mpr same
  refine perm.eq_of_pairwise ?_ leftOrdered rightOrdered
  intro first second _ _ before after
  rw [@OrientedCmp.eq_swap κ compare _ second.1 first.1, before] at after
  exact absurd after (by decide)

theorem nodup_toList (table : Table κ ν) : table.toList.Nodup := by
  refine table.ordered_toList.imp ?_
  rintro left right before rfl
  simp at before

theorem mem_select {selects : κ → Bool} :
    (key, value) ∈ table.select selects ↔ table.get key = some value ∧ selects key = true := by
  simp [select, mem_toList]

theorem nodup_select (table : Table κ ν) (selects : κ → Bool) : ((table.select selects).map Prod.fst).Nodup := by
  rw [List.Nodup, pairwise_map]
  refine (table.ordered_select selects).imp ?_
  intro left right before same
  simp [same] at before

/-- Ascending lists without repetition are determined by their members. -/
theorem ascending_ext {left right : List κ}
    (leftOrdered : left.Pairwise fun first second => compare first second = .lt)
    (rightOrdered : right.Pairwise fun first second => compare first second = .lt)
    (same : ∀ key, key ∈ left ↔ key ∈ right) : left = right := by
  have paired : left.map (fun key => (key, ())) = right.map (fun key => (key, ())) := by
    refine ordered_ext (pairwise_map.mpr leftOrdered) (pairwise_map.mpr rightOrdered) ?_
    rintro ⟨key, _⟩
    simp [same]
  have unpaired := congrArg (List.map Prod.fst) paired
  rw [map_map, map_map] at unpaired
  exact (map_id left).symm.trans (unpaired.trans (map_id right))

/-- The count depends only on the entries that count. -/
theorem count_ext {left right : Table κ ν}
    (same : ∀ key value, counts key value = true → (left.get key = some value ↔ right.get key = some value)) :
    left.count counts = right.count counts := by
  rw [count, count, countP_eq_length_filter, countP_eq_length_filter]
  refine List.Perm.length_eq ((perm_ext_iff_of_nodup (left.nodup_toList.filter _) (right.nodup_toList.filter _)).mpr ?_)
  rintro ⟨key, value⟩
  rw [mem_filter, mem_filter, mem_toList, mem_toList]
  exact and_congr_left (same key value)

variable [DecidableEq κ]

section

variable (table : Table κ ν)

@[simp] theorem get_insert (key other : κ) (value : ν) :
    (table.insert key value).get other = if other = key then some value else table.get other := by
  simp [get, insert, ExtTreeMap.getElem?_insert, @eq_comm κ other]

@[simp] theorem get_erase (key other : κ) :
    (table.erase key).get other = if other = key then none else table.get other := by
  simp [get, erase, ExtTreeMap.getElem?_erase, @eq_comm κ other]

theorem get_eraseAll (keys : List κ) (key : κ) :
    (table.eraseAll keys).get key = if key ∈ keys then none else table.get key := by
  induction keys generalizing table with
  | nil => simp
  | cons head rest ih =>
    rw [eraseAll_cons, ih, get_erase]
    by_cases atHead : key = head <;> simp [atHead]

theorem get_putAll (pairs : List (κ × ν)) (key : κ) :
    (table.putAll pairs).get key = (lastPut pairs key).or (table.get key) := by
  induction pairs generalizing table with
  | nil => rfl
  | cons head rest ih =>
    rw [putAll_cons, ih, lastPut, get_insert]
    by_cases atHead : key = head.1 <;> simp [atHead]

end

theorem get_putAll_of_not_mem
    (absent : key ∉ pairs.map Prod.fst) :
    (table.putAll pairs).get key = table.get key := by
  rw [get_putAll, lastPut_eq_none.mpr absent, Option.none_or]

theorem isSome_putAll (table : Table κ ν) (pairs : List (κ × ν)) (key : κ) :
    ((table.putAll pairs).get key).isSome = true ↔ key ∈ pairs.map Prod.fst ∨ (table.get key).isSome = true := by
  rw [get_putAll]
  cases last : lastPut pairs key with
  | none => rw [Option.none_or, or_iff_right (lastPut_eq_none.mp last)]
  | some value => simp [mem_map.mpr ⟨_, mem_of_lastPut last, rfl⟩]

@[simp] theorem get_ofList (pairs : List (κ × ν)) (key : κ) : (ofList pairs).get key = lastPut pairs key := by
  rw [ofList, get_putAll, get_empty, Option.or_none]

theorem mem_of_ofList (found : (ofList pairs).get key = some value) : (key, value) ∈ pairs :=
  mem_of_lastPut (get_ofList pairs key ▸ found)

/-- Apply pending writes: a value replaces the entry, no value removes it. -/
def applyAll (table : Table κ ν) (pending : List (κ × Option ν)) : Table κ ν :=
  pending.foldl (fun table write =>
    match write.2 with
    | some value => table.insert write.1 value
    | none => table.erase write.1) table

theorem get_applyAll (table : Table κ ν) (pending : List (κ × Option ν)) (key : κ) :
    (table.applyAll pending).get key = (lastPut pending key).getD (table.get key) := by
  induction pending generalizing table with
  | nil => rfl
  | cons write rest ih =>
    obtain ⟨target, value⟩ := write
    have unfolded : table.applyAll ((target, value) :: rest) = (match value with
          | some value => table.insert target value
          | none => table.erase target).applyAll rest := rfl
    rw [unfolded, ih, lastPut]
    cases later : lastPut rest key with
    | some written => simp
    | none =>
      cases value with
      | some value => by_cases atTarget : key = target <;> simp [atTarget]
      | none => by_cases atTarget : key = target <;> simp [atTarget]

section

variable (table : Table κ ν)

theorem lastPut_select (selects : κ → Bool) (key : κ) :
    lastPut (table.select selects) key = if selects key then table.get key else none := by
  cases found : lastPut (table.select selects) key with
  | some value =>
    obtain ⟨stored, selected⟩ := mem_select.mp (mem_of_lastPut found)
    rw [if_pos selected, stored]
  | none =>
    split
    · rename_i selected
      cases stored : table.get key with
      | none => rfl
      | some value =>
        have mem := mem_select.mpr ⟨stored, selected⟩
        exact absurd (mem_map_of_mem mem) (lastPut_eq_none.mp found)
    · rfl

theorem toList_ofList
    (ordered : pairs.Pairwise fun first second => compare first.1 second.1 = .lt) :
    (ofList pairs).toList = pairs := by
  have distinct : (pairs.map Prod.fst).Nodup := by
    rw [List.Nodup, pairwise_map]
    refine ordered.imp ?_
    intro first second before same
    simp [same] at before
  apply ordered_ext (ordered_toList _) ordered
  rintro ⟨key, value⟩
  rw [mem_toList, get_ofList, lastPut_eq_some distinct]

theorem mem_distinct : key ∈ distinct keys ↔ key ∈ keys := by
  have listed : (keys.map fun key => (key, ())).map Prod.fst = keys := by
    rw [map_map]
    exact map_id keys
  have present : key ∈ distinct keys ↔ (ofList (keys.map fun key => (key, ()))).get key = some () := by
    rw [← mem_toList, distinct, mem_map]
    constructor
    · rintro ⟨⟨_, _⟩, mem, rfl⟩
      exact mem
    · intro mem
      exact ⟨_, mem, rfl⟩
  rw [present, get_ofList]
  cases found : lastPut (keys.map fun key => (key, ())) key with
  | none =>
    have absent := lastPut_eq_none.mp found
    rw [listed] at absent
    simp [absent]
  | some _ =>
    have mem := mem_map_of_mem (f := Prod.fst) (mem_of_lastPut found)
    rw [listed] at mem
    simp [mem]

theorem lastPut_toList (key : κ) : lastPut table.toList key = table.get key := by
  rw [← select_toList, lastPut_select]
  simp

end

theorem toList_insert_perm (table : Table κ ν) (key : κ) (value : ν) :
    (table.insert key value).toList.Perm ((key, value) :: (table.erase key).toList) := by
  have fresh : (key, value) ∉ (table.erase key).toList := by simp [mem_toList]
  refine (perm_ext_iff_of_nodup (nodup_toList _) (nodup_cons.mpr ⟨fresh, nodup_toList _⟩)).mpr ?_
  rintro ⟨other, stored⟩
  rw [mem_toList, get_insert, mem_cons, mem_toList, get_erase]
  by_cases here : other = key
  · simp [here, eq_comm]
  · simp [here]

theorem insert_get (found : table.get key = some value) : table.insert key value = table := by
  ext1 other
  rw [get_insert]
  split
  · rename_i here
    rw [here, found]
  · rfl

theorem erase_of_none (missing : table.get key = none) : table.erase key = table := by
  ext1 other
  rw [get_erase]
  split
  · rename_i here
    rw [here, missing]
  · rfl

theorem count_insert (table : Table κ ν) (key : κ) (value : ν) (counts : κ → ν → Bool) :
    (table.insert key value).count counts = (table.erase key).count counts + if counts key value then 1 else 0 := by
  rw [count, (table.toList_insert_perm key value).countP_eq, countP_cons]
  rfl

/-- The entry under a key counts once, or not at all. -/
theorem count_erase (table : Table κ ν) (key : κ) (counts : κ → ν → Bool) :
    table.count counts = (table.erase key).count counts + if (table.get key).any (counts key) then 1 else 0 := by
  cases found : table.get key with
  | none => simp [erase_of_none found]
  | some value =>
    have whole := table.count_insert key value counts
    rw [insert_get found] at whole
    simpa using whole

/-- Entries are counted by their keys, repetitions apart. -/
theorem count_eq_dedup
    (exactly : ∀ key, key ∈ keys ↔ ∃ value, table.get key = some value ∧ counts key value = true) :
    table.count counts = keys.dedup.length := by
  have apart : ((table.toList.filter fun entry => counts entry.1 entry.2).map Prod.fst).Nodup := by
    refine pairwise_map.mpr ((table.ordered_toList.filter _).imp ?_)
    rintro left right before same
    simp [same] at before
  rw [count, countP_eq_length_filter, ← length_map (f := Prod.fst)]
  refine ((perm_ext_iff_of_nodup apart keys.nodup_dedup).mpr fun key => ?_).length_eq
  rw [mem_dedup, exactly]
  simp [mem_toList]

end Table

theorem flatten_toChunks_go (size : Nat) (items : List α) (filling : Array α) (full : Array (List α)) :
    (List.toChunks.go size items filling full).flatten = full.toList.flatten ++ filling.toList ++ items := by
  induction items generalizing filling full with
  | nil => simp [List.toChunks.go]
  | cons item rest ih =>
    rw [List.toChunks.go]
    split
    · rw [ih]
      simp
    · rw [ih]
      simp

theorem flatten_toChunks (size : Nat) (items : List α) : (items.toChunks size).flatten = items := by
  fun_cases List.toChunks size items with
  | case1 => rfl
  | case2 => simp
  | case3 size item rest => simp [flatten_toChunks_go]

theorem mem_of_mem_toChunks {size : Nat} {items chunk : List α}
    {item : α} (listed : chunk ∈ items.toChunks size) (mem : item ∈ chunk) : item ∈ items := by
  rw [← flatten_toChunks size items]
  exact mem_flatten.mpr ⟨chunk, listed, mem⟩

section

variable {α β : Type} {item : α}

theorem exists_of_forall₂ (all : Forall₂ relates left right) {item : β} (mem : item ∈ right) :
    ∃ source ∈ left, relates source item := by
  induction all with
  | nil => cases mem
  | cons first _ ih =>
    rcases mem_cons.mp mem with rfl | later
    · exact ⟨_, mem_cons_self, first⟩
    · obtain ⟨source, listed, related⟩ := ih later
      exact ⟨source, mem_cons_of_mem _ listed, related⟩

theorem exists_of_forall₂_left (all : Forall₂ relates left right) (mem : item ∈ left) :
    ∃ result ∈ right, relates item result :=
  exists_of_forall₂ (Forall₂.flip all) mem

theorem eq_map_of_forall₂ {f : α → β}
    (all : Forall₂ (fun item image => image = f item) left right) : right = left.map f := by
  induction all with
  | nil => rfl
  | cons first _ ih => rw [first, ih, map_cons]

theorem forall₂_concat : Forall₂ relates (left ++ [item]) right ↔
    ∃ before image, right = before ++ [image] ∧ Forall₂ relates left before ∧ relates item image := by
  induction left generalizing right with
  | nil =>
    constructor
    · rintro (_ | ⟨here, _ | _⟩)
      exact ⟨[], _, rfl, .nil, here⟩
    · rintro ⟨_, image, rfl, ⟨⟩, here⟩
      exact .cons here .nil
  | cons first rest ih =>
    constructor
    · rintro (_ | ⟨here, later⟩)
      obtain ⟨before, image, rfl, early, last⟩ := ih.mp later
      exact ⟨_ :: before, image, rfl, .cons here early, last⟩
    · rintro ⟨_, image, rfl, ⟨⟩ | ⟨here, early⟩, last⟩
      exact .cons here (ih.mpr ⟨_, image, rfl, early, last⟩)

end

export Table (get_applyAll get_empty get_erase get_eraseAll get_foldl get_insert get_ofList get_putAll
  get_putAll_of_not_mem isSome_putAll lastPut lastPut_append lastPut_eq_getLast? lastPut_eq_none lastPut_select
  lastPut_toList mem_distinct mem_of_lastPut mem_of_ofList mem_select mem_toList nodup_select ordered_distinct ordered_ext
  ordered_select ordered_toList putAll_append putAll_cons putAll_nil select_toList toList_ofList)

end ByoriDB.Data
