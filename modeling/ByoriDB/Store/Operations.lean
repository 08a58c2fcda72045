import ByoriDB.Program.Prog
import ByoriDB.Store.Content

namespace ByoriDB.Store

open List Std
open Data Program

/-- The prefixes that a scan over keys of this type can ask for. -/
class Scoped (κ : Type) where
  Scope : Type
  covers : Scope → κ → Bool

open Scoped

inductive KvOp (κ ν : Type) [Scoped κ] where
  | get (key : κ)
  | batchGet (keys : List κ)
  | scanPrefix (scope : Scope κ)
  | countPrefix (scope : Scope κ)
  | scanHistory (entity : κ)
  | scanHistoryEntityKeys (scope : Scope κ)
  | getAsOf (entity : κ) (validAt txAt : Int)
  | put (key : κ) (value : ν)
  | putIfAbsent (key : κ) (value : ν)
  | delete (key : κ)
  | batchPut (pairs : List (κ × ν))
  | batchDelete (keys : List κ)
  | batchPutVersion (versions : List (VersionRow κ ν))
  | batchApply (puts : List (κ × ν)) (deletes : List κ) (versions : List (VersionRow κ ν))
  | addCounters (deltas : List (κ × Int))

def KvOp.Res {κ ν : Type} [Scoped κ] : KvOp κ ν → Type
  | .get _ => Option ν
  | .batchGet _ => List (Option ν)
  | .scanPrefix _ => List (κ × ν)
  | .countPrefix _ => Nat
  | .scanHistory _ => List (VersionRecord ν)
  | .scanHistoryEntityKeys _ => List κ
  | .getAsOf _ _ _ => Option ν
  | .putIfAbsent _ _ => Option ν
  | _ => Unit

def KvOp.isRead {κ ν : Type} [Scoped κ] : KvOp κ ν → Bool
  | .get _ | .batchGet _ | .scanPrefix _ | .countPrefix _ => true
  | .scanHistory _ | .scanHistoryEntityKeys _ | .getAsOf _ _ _ => true
  | _ => false

def KvOp.readsCurrent {κ ν : Type} [Scoped κ] : KvOp κ ν → Bool
  | .get _ | .batchGet _ | .scanPrefix _ | .countPrefix _ => true
  | _ => false

/-- The methods that list or pick among the versions of one entity. -/
def KvOp.readsVersions {κ ν : Type} [Scoped κ] : KvOp κ ν → Bool
  | .scanHistory _ | .getAsOf _ _ _ => true
  | _ => false

def KvOp.readsHistory {κ ν : Type} [Scoped κ] : KvOp κ ν → Bool
  | .scanHistory _ | .scanHistoryEntityKeys _ | .getAsOf _ _ _ => true
  | _ => false

/-- The versions a method appends. -/
def KvOp.rows {κ ν : Type} [Scoped κ] : KvOp κ ν → List (VersionRow κ ν)
  | .batchPutVersion versions | .batchApply _ _ versions => versions
  | _ => []

/-- The values a method writes to the current view, in order; a deleted key has
none.  Counters are not listed. -/
def KvOp.written {κ ν : Type} [Scoped κ] : KvOp κ ν → List (κ × Option ν)
  | .put key value | .putIfAbsent key value => [(key, some value)]
  | .delete key => [(key, none)]
  | .batchPut pairs => pairs.map fun pair => (pair.1, some pair.2)
  | .batchDelete keys => keys.map fun key => (key, none)
  | .batchApply puts deletes _ =>
    (puts.map fun pair => (pair.1, some pair.2)) ++ deletes.map fun key => (key, none)
  | _ => []

/-- The keys of the current view that a method may change. -/
def KvOp.touched {κ ν : Type} [Scoped κ] (op : KvOp κ ν) : List κ :=
  op.written.map Prod.fst ++ match op with
    | .addCounters deltas => deltas.map Prod.fst
    | _ => []

@[simp] theorem KvOp.touched_batchApply {κ ν : Type} [Scoped κ]
    (puts : List (κ × ν)) (deletes : List κ) (versions : List (VersionRow κ ν)) :
    (KvOp.batchApply puts deletes versions).touched = puts.map Prod.fst ++ deletes := by
  simp [KvOp.touched, KvOp.written, Function.comp_def]

inductive Op (κ ν : Type) [Scoped κ] where
  | kv (op : KvOp κ ν)
  | txNow

def Op.Res {κ ν : Type} [Scoped κ] : Op κ ν → Type
  | .kv op => op.Res
  | .txNow => Int

def Op.leavesContent {κ ν : Type} [Scoped κ] : Op κ ν → Bool
  | .kv op => op.isRead
  | .txNow => true

abbrev signature (κ ν : Type) [Scoped κ] : Signature := ⟨Op κ ν, Op.Res⟩

/-- How keys and values are laid out: their lengths, the encoding of degree
counters (read leniently by the backends, strictly by the statement overlay),
and the order in which a scan hands out the selected entries. -/
structure Layout (κ ν : Type) where
  keyLen : κ → Nat
  valueLen : ν → Nat
  counterOf : ν → Option Int
  looseCounter : ν → Int
  counter : Int → ν
  looseCounter_of_counterOf : ∀ value count, counterOf value = some count → looseCounter value = count
  arrange : List (κ × ν) → List (κ × ν)
  arrange_perm : ∀ entries, (arrange entries).Perm entries

/-- Where a process runs: the layout of its store and its wall clock, as the
sequence of milliseconds the clock shows at successive readings. -/
structure Env (κ ν : Type) extends Layout κ ν where
  clock : Nat → Int

structure World (κ ν : Type) [Ord κ] where
  content : Content κ ν
  lastTx : Int
  readings : Nat

variable {κ ν : Type} [Ord κ]

namespace World

abbrev kv (world : World κ ν) : Table κ ν := world.content.kv

theorem kv_congr {left right : World κ ν} (same : left.content = right.content) :
    left.kv = right.kv := congrArg Content.kv same

@[simp] theorem kv_mk (content : Content κ ν) (lastTx : Int) (readings : Nat) :
    (World.mk content lastTx readings).kv = content.kv := rfl

end World

variable [TransOrd κ] [DecidableEq κ] {layout : Layout κ ν} {key : κ} {puts : List (κ × ν)}
  {deltas : List (κ × Int)} {content : Content κ ν} {deletes : List κ}

/-- A counter that drops to zero or below is removed. -/
def Layout.addCounter (layout : Layout κ ν) (kv : Table κ ν) (delta : κ × Int) : Table κ ν :=
  let updated := ((kv.get delta.1).map layout.looseCounter).getD 0 + delta.2
  if updated ≤ 0 then kv.erase delta.1 else kv.insert delta.1 (layout.counter updated)

namespace Content

section

variable [LawfulEqOrd κ] {kv : Table κ ν}

theorem get_addCounters (untouched : key ∉ deltas.map Prod.fst) :
    (deltas.foldl layout.addCounter kv).get key = kv.get key := by
  induction deltas generalizing kv with
  | nil => rfl
  | cons delta rest ih =>
    rw [map_cons, mem_cons, not_or] at untouched
    rw [foldl_cons, ih untouched.2, Layout.addCounter]
    split
    · rw [get_erase, if_neg untouched.1]
    · rw [get_insert, if_neg untouched.1]

theorem get_addCounters_distinct
    (distinct : (deltas.map Prod.fst).Nodup) {delta : Int} (listed : (key, delta) ∈ deltas) :
    (deltas.foldl layout.addCounter kv).get key = let updated := ((kv.get key).map layout.looseCounter).getD 0 + delta
      if updated ≤ 0 then none else some (layout.counter updated) := by
  induction deltas generalizing kv with
  | nil => cases listed
  | cons head rest ih =>
    rw [map_cons, nodup_cons] at distinct
    rw [foldl_cons]
    rcases mem_cons.mp listed with rfl | later
    · rw [get_addCounters distinct.1, Layout.addCounter]
      dsimp only
      split <;> simp
    · have apart : key ≠ head.1 := by
        rintro rfl
        exact distinct.1 (mem_map.mpr ⟨_, later, rfl⟩)
      have untouched : (layout.addCounter kv head).get key = kv.get key := by
        rw [Layout.addCounter]
        split
        · rw [get_erase, if_neg apart]
        · rw [get_insert, if_neg apart]
      rw [ih distinct.2 later, untouched]

theorem get_batch
    (unput : key ∉ puts.map Prod.fst) (kept : key ∉ deletes) :
    ((kv.putAll puts).eraseAll deletes).get key = kv.get key := by
  rw [get_eraseAll, if_neg kept, get_putAll_of_not_mem unput]

end

variable [Scoped κ] {op : KvOp κ ν}

/-- The answer of a store method and the content it leaves. -/
def perform (layout : Layout κ ν) (content : Content κ ν) : (op : KvOp κ ν) → op.Res × Content κ ν
  | .get key => (content.kv.get key, content)
  | .batchGet keys => (keys.map content.kv.get, content)
  | .scanPrefix scope => (layout.arrange (content.kv.select (covers scope)), content)
  | .countPrefix scope => ((content.kv.select (covers scope)).length, content)
  | .scanHistory entity => (content.scanHistory entity, content)
  | .scanHistoryEntityKeys scope => (content.scanHistoryEntityKeys (covers scope), content)
  | .getAsOf entity validAt txAt => (content.getAsOf entity validAt txAt, content)
  | .put key value => ((), { content with kv := content.kv.insert key value })
  | .putIfAbsent key value =>
    match content.kv.get key with
    | some existing => (some existing, content)
    | none => (none, { content with kv := content.kv.insert key value })
  | .delete key => ((), { content with kv := content.kv.erase key })
  | .batchPut pairs => ((), { content with kv := content.kv.putAll pairs })
  | .batchDelete keys => ((), { content with kv := content.kv.eraseAll keys })
  | .batchPutVersion versions => ((), content.putVersions versions)
  | .batchApply puts deletes versions => ((), content.batchApply puts deletes versions)
  | .addCounters deltas => ((), { content with kv := deltas.foldl layout.addCounter content.kv })

theorem history_perform (unversioned : op.rows = []) : (content.perform layout op).2.history = content.history := by
  cases op with
  | putIfAbsent key value =>
    simp only [perform]
    cases content.kv.get key <;> rfl
  | batchPutVersion versions | batchApply puts deletes versions =>
    cases unversioned
    rfl
  | _ => rfl

theorem get_perform [LawfulEqOrd κ] (untouched : key ∉ op.touched) :
    (content.perform layout op).2.kv.get key = content.kv.get key := by
  have pairKeys : ∀ pairs : List (κ × ν), (pairs.map fun pair => (pair.1, some pair.2)).map Prod.fst =
      pairs.map Prod.fst := by simp
  cases op with
  | put other value =>
    simp only [KvOp.touched, KvOp.written, map_cons, map_nil, append_nil, mem_singleton] at untouched
    exact (get_insert ..).trans (if_neg untouched)
  | putIfAbsent other value =>
    simp only [KvOp.touched, KvOp.written, map_cons, map_nil, append_nil, mem_singleton] at untouched
    simp only [perform]
    cases content.kv.get other with
    | some existing => rfl
    | none => exact (get_insert ..).trans (if_neg untouched)
  | delete other =>
    simp only [KvOp.touched, KvOp.written, map_cons, map_nil, append_nil, mem_singleton] at untouched
    exact (get_erase ..).trans (if_neg untouched)
  | batchPut pairs =>
    simp only [KvOp.touched, KvOp.written, pairKeys, append_nil] at untouched
    exact get_putAll_of_not_mem untouched
  | batchDelete keys =>
    simp only [KvOp.touched, KvOp.written, map_map, append_nil] at untouched
    exact (get_eraseAll ..).trans (if_neg (by simpa using untouched))
  | batchApply puts deletes versions =>
    rw [KvOp.touched_batchApply, mem_append, not_or] at untouched
    exact get_batch untouched.1 untouched.2
  | addCounters deltas =>
    exact get_addCounters untouched
  | _ => rfl

end Content

variable [Scoped κ]

namespace World

/-- The transaction clock: the wall clock, pushed past the last value it gave. -/
def txNow (env : Env κ ν) (world : World κ ν) : Int × World κ ν :=
  let next := max (env.clock world.readings) (world.lastTx + 1)
  (next, { world with lastTx := next, readings := world.readings + 1 })

def handler (env : Env κ ν) : Handler (signature κ ν) (World κ ν)
  | .kv op, world =>
    let (result, content) := world.content.perform env.toLayout op
    (result, { world with content })
  | .txNow, world => world.txNow env

variable {env : Env κ ν} {world : World κ ν}

@[simp] theorem handler_get : handler env (.kv (.get key)) world = (world.kv.get key, world) := rfl

@[simp] theorem handler_scanPrefix (scope : Scope κ) : handler env (.kv (.scanPrefix scope)) world =
      (env.arrange (world.kv.select (covers scope)), world) := rfl

@[simp] theorem handler_put : handler env (.kv (.put key value)) world =
      ((), { world with content := { world.content with kv := world.kv.insert key value } }) := rfl

@[simp] theorem handler_delete : handler env (.kv (.delete key)) world =
      ((), { world with content := { world.content with kv := world.kv.erase key } }) := rfl

@[simp] theorem handler_batchApply : handler env (.kv (.batchApply puts deletes versions)) world =
      ((), { world with content := world.content.batchApply puts deletes versions }) := rfl

theorem handler_putIfAbsent_some {value existing : ν}
    (found : world.kv.get key = some existing) :
    handler env (.kv (.putIfAbsent key value)) world = (some existing, world) := by
  simp only [handler, Content.perform, found]
  rfl

theorem handler_putIfAbsent_none {value : ν}
    (absent : world.kv.get key = none) :
    handler env (.kv (.putIfAbsent key value)) world =
      (none, { world with content := { world.content with kv := world.kv.insert key value } }) := by
  simp only [handler, Content.perform, absent]
  rfl

theorem handler_leavesContent {op : Op κ ν} (leaves : op.leavesContent = true) :
    (handler env op world).2.content = world.content := by
  cases op with
  | txNow => rfl
  | kv op => cases op <;> first | rfl | exact absurd leaves (by simp [Op.leavesContent, KvOp.isRead])

end World

variable {ε : Type} {post : Unit → World κ ν → Prop}

def ask (op : KvOp κ ν) : Prog (signature κ ν) ε op.Res := @Prog.perform (signature κ ν) ε (Op.kv op)

def get (key : κ) : Prog (signature κ ν) ε (Option ν) := ask (.get key)

def batchGet (keys : List κ) : Prog (signature κ ν) ε (List (Option ν)) :=
  ask (.batchGet keys)

def scanPrefix (scope : Scope κ) : Prog (signature κ ν) ε (List (κ × ν)) :=
  ask (.scanPrefix scope)

def countPrefix (scope : Scope κ) : Prog (signature κ ν) ε Nat :=
  ask (.countPrefix scope)

def scanHistory (entity : κ) : Prog (signature κ ν) ε (List (VersionRecord ν)) :=
  ask (.scanHistory entity)

def scanHistoryEntityKeys (scope : Scope κ) : Prog (signature κ ν) ε (List κ) :=
  ask (.scanHistoryEntityKeys scope)

def getAsOf (entity : κ) (validAt txAt : Int) : Prog (signature κ ν) ε (Option ν) :=
  ask (.getAsOf entity validAt txAt)

def put (key : κ) (value : ν) : Prog (signature κ ν) ε Unit := ask (.put key value)

def putIfAbsent (key : κ) (value : ν) : Prog (signature κ ν) ε (Option ν) :=
  ask (.putIfAbsent key value)

def delete (key : κ) : Prog (signature κ ν) ε Unit := ask (.delete key)

def batchPut (pairs : List (κ × ν)) : Prog (signature κ ν) ε Unit :=
  ask (.batchPut pairs)

def batchDelete (keys : List κ) : Prog (signature κ ν) ε Unit :=
  ask (.batchDelete keys)

def batchApply (puts : List (κ × ν)) (deletes : List κ) (versions : List (VersionRow κ ν)) :
    Prog (signature κ ν) ε Unit :=
  ask (.batchApply puts deletes versions)

def addCounters (deltas : List (κ × Int)) : Prog (signature κ ν) ε Unit :=
  ask (.addCounters deltas)

def txNow : Prog (signature κ ν) ε Int := @Prog.perform (signature κ ν) ε Op.txNow

def World.putAll (world : World κ ν) (puts : List (κ × ν)) : World κ ν :=
  { world with content := { world.content with kv := world.kv.putAll puts } }

section

variable {env : Env κ ν} {allowed : World κ ν → Op κ ν → Prop} {world : World κ ν}

@[simp] theorem wp_get {post : Option ν → World κ ν → Prop} :
    (get key : Prog (signature κ ν) ε _).wp (World.handler env) allowed post world ↔
      allowed world (.kv (.get key)) ∧ post (world.kv.get key) world := Iff.rfl

@[simp] theorem wp_batchGet {keys : List κ} {post : List (Option ν) → World κ ν → Prop} :
    (batchGet keys : Prog (signature κ ν) ε _).wp (World.handler env) allowed post world ↔
      allowed world (.kv (.batchGet keys)) ∧ post (keys.map world.kv.get) world := Iff.rfl

@[simp] theorem wp_scanPrefix {scope : Scope κ} {post : List (κ × ν) → World κ ν → Prop} :
    (scanPrefix scope : Prog (signature κ ν) ε _).wp (World.handler env) allowed post world ↔
      allowed world (.kv (.scanPrefix scope)) ∧ post (env.arrange (world.kv.select (covers scope))) world :=
  Iff.rfl

@[simp] theorem wp_batchApply {versions : List (VersionRow κ ν)} :
    (batchApply puts deletes versions : Prog (signature κ ν) ε _).wp (World.handler env) allowed post world ↔
      allowed world (.kv (.batchApply puts deletes versions)) ∧
        post () { world with content := world.content.batchApply puts deletes versions } := Iff.rfl

theorem wp_putAll : (batchApply puts [] [] : Prog (signature κ ν) ε _).wp (World.handler env) allowed post world ↔
      allowed world (.kv (.batchApply puts [] [])) ∧ post () (world.putAll puts) := Iff.rfl

end

export World (handler handler_get handler_put kv_congr)

end ByoriDB.Store
