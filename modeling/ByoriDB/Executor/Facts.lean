import ByoriDB.Executor.Rebuild
import ByoriDB.Executor.Vid

namespace ByoriDB.Executor

open Data Program Store ByoriDB.Graph
open SchemaKey (vertex)

def factAt (kv : KV) (key : Key) : Option Val := (kv.get key).filter Val.isFact

/-- What one write to the current view means for the fact under its key: a new
value, or none.  Writing or deleting an inferred edge means nothing. -/
def factWrite (held : Option Val) : Option Val → Option (Option Val)
  | some value => if value.isFact then some (some value) else none
  | none => if held.any Val.isInferred then none else some none

/-- The values that an operation gives to the fact under a key, in order. -/
def factWrites (key : Key) (world : World) : Op Key Val → List (Option Val)
  | .kv op => op.written.filterMap fun write =>
    if write.1 = key then factWrite (world.kv.get key) write.2 else none
  | .txNow => []

inductive Region where
  | mapping
  | view
  | index
  | counter
  | alias
  deriving DecidableEq, Repr

def regionOf : String → Option Region
  | "vid-map" | "vid-rev" => some .mapping
  | "tagvid" | "vec" | "vecidx-dirty" => some .view
  | "indeg" | "outdeg" => some .counter
  | "sameas" | "sameas-members" => some .alias
  | _ => none

/-- The region a key belongs to; the keys of facts belong to none. -/
def region (space : String) : Key → Option Region
  | .raw _ => some .index
  | .text segments => (Key.kind space (.text segments)).bind regionOf

/-- The keys that name a vertex: its own record, its edges, and what is kept about
its tags, types and vectors. -/
inductive Mentions (space : String) (vid : Int) : Key → Prop where
  | vertex : Mentions space vid (SchemaKey.vertex space vid)
  | source {edgeType : String} {dst rank : Int} : Mentions space vid (edgeData space vid edgeType dst rank)
  | target {edgeType : String} {src rank : Int} : Mentions space vid (edgeData space src edgeType vid rank)
  | inSource {edgeType : String} {dst rank : Int} : Mentions space vid (inEdgeData space dst edgeType vid rank)
  | inTarget {edgeType : String} {src rank : Int} : Mentions space vid (inEdgeData space vid edgeType src rank)
  | tag {tag : String} : Mentions space vid (tagvid space tag vid)
  | type {className : String} : Mentions space vid (vtype space vid className)
  | vector {prop : String} : Mentions space vid (vecData space prop vid)

def Root (space : String) (kv : KV) (vid : Int) : Prop :=
  ∀ value, kv.get (sameas space vid) = some value → decodeInternal value = some vid

theorem Root.congr (root : Root space kv vid)
    (same : kv'.get (sameas space vid) = kv.get (sameas space vid)) : Root space kv' vid :=
  fun value found => root value (same ▸ found)

/-- No key names a vertex that was merged into another one. -/
def Canonical (space : String) (kv : KV) : Prop :=
  ∀ key value vid, kv.get key = some value → Mentions space vid key → Root space kv vid

/-- What a mutation does next to writing facts: it writes auxiliary data of one
region, in the current view, and names no other vertices than these.  A mapping is
never replaced, and leads to a negative surrogate. -/
structure Tends (space : String) (part : Region) (vids : List Int) (op : KvOp Key Val) : Prop where
  present : op.readsHistory = false
  unversioned : op.rows = []
  within : ∀ key ∈ op.touched, region space key = some part
  names : ∀ key value, (key, some value) ∈ op.written → ∀ vid, Mentions space vid key → vid ∈ vids
  fresh : part = .mapping → ∃ key value, op = .putIfAbsent key value ∧
    ∀ internal, value = .vid internal → minVid ≤ internal ∧ internal < 0

@[simp] theorem region_raw : region space (.raw bytes) = some .index := rfl

theorem region_of_kind (has : key.kind space = some kind) : region space key = regionOf kind := by
  cases key with
  | raw bytes => cases has
  | text segments => rw [region, has, Option.bind_some]

theorem kind_eq_some {key : Key} (has : key.kind space = some kind) :
    ∃ third rest, key = .text (.word space :: .word kind :: third :: rest) := by
  unfold Key.kind at has
  split at has
  · rename_i first second third rest
    split at has
    · rename_i here
      cases has
      exact ⟨third, rest, by rw [here]⟩
    · cases has
  · cases has

theorem region_entity (entity : key.isEntity = true) : region space key = none := by
  unfold Key.isEntity at entity
  split at entity
  all_goals first | (simp only [decide_eq_true_eq] at entity; subst entity) | cases entity
  all_goals
    simp only [region, Key.kind]
    split <;> rfl

theorem kind_ne_of_region (inside : region space key = some part) (outside : regionOf kind = none) :
    key.kind space ≠ some kind := by
  intro has
  rw [region_of_kind has, outside] at inside
  cases inside

section

variable (space : String)

theorem kind_text (kind : String) (third : Seg) (rest : List Seg) :
    (Key.text (.word space :: .word kind :: third :: rest)).kind space = some kind := if_pos rfl

section

variable (prop : String) (src : Int) (vid : Int) (edgeType : String)

@[simp] theorem kind_vertex : (vertex space vid).kind space = some "vertex" := kind_text ..

@[simp] theorem kind_edgeData (dst rank : Int) :
    (edgeData space src edgeType dst rank).kind space = some "edge" := kind_text ..

@[simp] theorem kind_inEdgeData (dst : Int) (edgeType : String) (src rank : Int) :
    (inEdgeData space dst edgeType src rank).kind space = some "in-edge" := kind_text ..

@[simp] theorem kind_tagvid (tag : String) (vid : Int) : (tagvid space tag vid).kind space = some "tagvid" := kind_text ..

@[simp] theorem kind_vecData : (vecData space prop vid).kind space = some "vec" := kind_text ..

@[simp] theorem kind_vecIndexDirty : (vecIndexDirty space prop).kind space = some "vecidx-dirty" := kind_text ..

@[simp] theorem kind_inferenceDirty : (inferenceDirty space).kind space = some "inference" := kind_text ..

@[simp] theorem region_vertex : region space (vertex space vid) = none :=
  region_of_kind (kind_text ..)

@[simp] theorem region_edgeData (dst rank : Int) : region space (edgeData space src edgeType dst rank) = none :=
  region_of_kind (kind_text ..)

@[simp] theorem region_inEdgeData (dst : Int) (edgeType : String) (src rank : Int) :
    region space (inEdgeData space dst edgeType src rank) = none :=
  region_of_kind (kind_text ..)

@[simp] theorem region_vtype (className : String) : region space (vtype space vid className) = none :=
  region_of_kind (kind_text ..)

@[simp] theorem region_inferenceDirty : region space (inferenceDirty space) = none :=
  region_of_kind (kind_text ..)

@[simp] theorem region_forwardKey (value : String) : region space (forwardKey space value) = some .mapping :=
  region_of_kind (kind_text ..)

@[simp] theorem region_reverseKey (internal : Int) : region space (reverseKey space internal) = some .mapping :=
  region_of_kind (kind_text ..)

@[simp] theorem region_tagvid (tag : String) (vid : Int) : region space (tagvid space tag vid) = some .view :=
  region_of_kind (kind_text ..)

@[simp] theorem region_vecData : region space (vecData space prop vid) = some .view :=
  region_of_kind (kind_text ..)

@[simp] theorem region_vecIndexDirty : region space (vecIndexDirty space prop) = some .view :=
  region_of_kind (kind_text ..)

@[simp] theorem region_indegCounter (dst : Int) : region space (indegCounter space edgeType dst) = some .counter :=
  region_of_kind (kind_text ..)

@[simp] theorem region_outdegCounter (src : Int) : region space (outdegCounter space edgeType src) = some .counter :=
  region_of_kind (kind_text ..)

@[simp] theorem region_sameas : region space (sameas space vid) = some .alias :=
  region_of_kind (kind_text ..)

end

@[simp] theorem region_sameasMember (rep mem : Int) : region space (sameasMember space rep mem) = some .alias :=
  region_of_kind (kind_text ..)

end

theorem Mentions.region (mentions : Mentions space vid key) :
    region space key = none ∨ region space key = some .view := by
  cases mentions <;> simp

section

variable {space : String} {vid : Int}

@[simp] theorem mentions_vertex : Mentions space vid (vertex space other) ↔ vid = other := by
  constructor
  · generalize same : vertex space other = key
    intro mentions
    cases mentions <;> simp_all [vertex, edgeData, inEdgeData, tagvid, vtype, vecData]
  · rintro rfl
    exact .vertex

@[simp] theorem mentions_edgeData :
    Mentions space vid (edgeData space src edgeType dst rank) ↔ vid = src ∨ vid = dst := by
  constructor
  · generalize same : edgeData space src edgeType dst rank = key
    intro mentions
    cases mentions <;> simp_all [vertex, edgeData, inEdgeData, tagvid, vtype, vecData]
  · rintro (rfl | rfl)
    · exact .source
    · exact .target

@[simp] theorem mentions_inEdgeData :
    Mentions space vid (inEdgeData space dst edgeType src rank) ↔ vid = src ∨ vid = dst := by
  constructor
  · generalize same : inEdgeData space dst edgeType src rank = key
    intro mentions
    cases mentions <;> simp_all [vertex, edgeData, inEdgeData, tagvid, vtype, vecData]
  · rintro (rfl | rfl)
    · exact .inSource
    · exact .inTarget

@[simp] theorem mentions_tagvid : Mentions space vid (tagvid space tag other) ↔ vid = other := by
  constructor
  · generalize same : tagvid space tag other = key
    intro mentions
    cases mentions <;> simp_all [vertex, edgeData, inEdgeData, tagvid, vtype, vecData]
  · rintro rfl
    exact .tag

@[simp] theorem mentions_vecData : Mentions space vid (vecData space prop other) ↔ vid = other := by
  constructor
  · generalize same : vecData space prop other = key
    intro mentions
    cases mentions <;> simp_all [vertex, edgeData, inEdgeData, tagvid, vtype, vecData]
  · rintro rfl
    exact .vector

theorem not_mentions_of_kind (other : key.kind space ∉ [some "vertex", some "edge",
      some "in-edge", some "tagvid", some "vtype", some "vec"]) : ¬ Mentions space vid key := by
  intro mentions
  cases mentions <;> simp [vertex, edgeData, inEdgeData, tagvid, vtype, vecData, Key.kind] at other

@[simp] theorem not_mentions_vecIndexDirty : ¬ Mentions space vid (vecIndexDirty space prop) :=
  not_mentions_of_kind (by simp [vecIndexDirty, Key.kind])

@[simp] theorem not_mentions_inferenceDirty : ¬ Mentions space vid (inferenceDirty space) :=
  not_mentions_of_kind (by simp)

theorem not_mentions_of_region (inside : region space key = some part) (other : part ≠ .view) :
    ¬ Mentions space vid key := by
  intro mentions
  rcases mentions.region with none | view
  · rw [none] at inside
    cases inside
  · rw [view] at inside
    cases inside
    exact other rfl

end

section

variable (space : String) (kv : KV)

def Dirty : Prop := (kv.get (inferenceDirty space)).isSome = true

/-- The edges and inferred types of a space are the closure of its asserted
edges under its edge schemas; a derived triple has one edge, with rank 0. -/
structure Complete : Prop where
  stored : ∀ t, Stored kv space t ↔ (entailment (edgeFlags kv space)).Closure (Asserted kv space) t
  derived : ∀ t, ¬ Asserted kv space t → ∀ rank value, kv.get (t.key space rank) = some value →
    rank = 0 ∧ value = .edge (inferredEdge t)
  asserted : ∀ t, Asserted kv space t → ∀ rank value, kv.get (t.key space rank) = some value → value.isAsserted = true
  types : ∀ vid className, (kv.get (vtype space vid className)).isSome = true ↔
    ∃ t, (entailment (edgeFlags kv space)).Closure (Asserted kv space) t ∧ typing (edgeFlags kv space) t vid className

def Guarded : Prop := Dirty space kv ∨ Complete space kv

structure Inert (flags : String → SemanticFlags) : Prop where
  unary : ∀ t result, ¬ (entailment flags).unary t result
  binary : ∀ t u result, ¬ (entailment flags).binary t u result
  typing : ∀ t vid className, ¬ typing flags t vid className

/-- There are no rules, and nothing derived is stored. -/
structure Underived : Prop where
  inert : Inert (edgeFlags kv space)
  edges : ∀ (t : Triple) (rank : Int) (value : Val), kv.get (t.key space rank) = some value → value.isAsserted = true
  types : ∀ vid className, kv.get (vtype space vid className) = none

def Fenced : Prop := Dirty space kv ∨ Underived space kv

end

section

variable {space : String} {kv : KV}

theorem Inert.closure (inert : Inert flags) : (entailment flags).Closure base t ↔ base t := by
  constructor
  · intro derived
    cases derived with
    | base given => exact given
    | unary premise rule => exact absurd rule (inert.unary _ _)
    | binary left right rule => exact absurd rule (inert.binary _ _ _)
  · exact .base

theorem Complete.underived (complete : Complete space kv) (inert : Inert (edgeFlags kv space)) : Underived space kv where
  inert := inert
  edges t rank value found := complete.asserted t
    (inert.closure.mp ((complete.stored t).mp ⟨rank, value, found⟩)) rank value found
  types vid className := by
    rw [← Option.not_isSome_iff_eq_none, complete.types]
    rintro ⟨t, _, typed⟩
    exact inert.typing t vid className typed

theorem Underived.complete (underived : Underived space kv) : Complete space kv where
  stored t := by
    rw [underived.inert.closure]
    exact ⟨fun ⟨rank, value, found⟩ => ⟨rank, value, found, underived.edges t rank value found⟩,
      fun ⟨rank, value, found, _⟩ => ⟨rank, value, found⟩⟩
  derived t unasserted rank value found :=
    absurd ⟨rank, value, found, underived.edges t rank value found⟩ unasserted
  asserted t _ rank value found := underived.edges t rank value found
  types vid className := by
    rw [underived.types]
    simp only [Option.isSome_none, Bool.false_eq_true, false_iff, not_exists, not_and]
    exact fun t _ => underived.inert.typing t vid className

theorem Fenced.guarded (fenced : Fenced space kv) : Guarded space kv := fenced.imp_right Underived.complete

/-- Two stores with the same edges, inferred types and edge schemas of a space. -/
structure SameGraph (space : String) (kv kv' : KV) : Prop where
  edges : ∀ (t : Triple) (rank : Int), kv'.get (t.key space rank) = kv.get (t.key space rank)
  types : ∀ vid className, kv'.get (vtype space vid className) = kv.get (vtype space vid className)
  flags : edgeFlags kv' space = edgeFlags kv space

namespace SameGraph

variable (same : SameGraph space kv kv')
include same

theorem asserted_iff : Asserted kv' space = Asserted kv space := by
  funext t
  simp [Asserted, same.edges]

theorem complete (complete : Complete space kv) : Complete space kv' := by
  have asserted := same.asserted_iff
  constructor
  · intro t
    rw [same.flags, asserted, ← complete.stored t]
    simp [Stored, same.edges]
  · intro t unasserted rank value found
    rw [asserted] at unasserted
    exact complete.derived t unasserted rank value (same.edges t rank ▸ found)
  · intro t holds rank value found
    rw [asserted] at holds
    exact complete.asserted t holds rank value (same.edges t rank ▸ found)
  · intro vid className
    rw [same.types, same.flags, asserted]
    exact complete.types vid className

theorem underived (underived : Underived space kv) : Underived space kv' where
  inert := same.flags ▸ underived.inert
  edges t rank value found := underived.edges t rank value (same.edges t rank ▸ found)
  types vid className := (same.types vid className).trans (underived.types vid className)

end SameGraph

end

@[simp] theorem tagvid_inj : tagvid space tag vid = tagvid space tag' vid' ↔ tag = tag' ∧ vid = vid' := by
  simp [tagvid]

@[simp] theorem vecData_inj : vecData space prop vid = vecData space prop' vid' ↔ prop = prop' ∧ vid = vid' := by
  simp [vecData]

end ByoriDB.Executor
