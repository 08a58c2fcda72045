import ByoriDB.Executor.Alias
import ByoriDB.Executor.MergeVertices

/-! Between statements records agree with their keys, both copies of an edge agree, what is kept about
tags and vectors belongs to stored vertices, and nothing names a vertex that was merged away. -/

namespace ByoriDB.Executor

open List Data Program Store ByoriDB.Graph

section

variable (space : String) (kv : KV)

/-- Records agree with the keys they are stored under. -/
structure Keyed : Prop where
  edges : ∀ (t : Triple) (rank : Int) (value : Val), kv.get (t.key space rank) = some value →
    ∃ edge, value = .edge edge ∧ edge.key space = t.key space rank
  vertices : ∀ vid value, kv.get (SchemaKey.vertex space vid) = some value → ∃ vertex, value = .vertex vertex ∧ vertex.vid = vid

def HasTag (vid : Int) (tag : String) : Prop :=
  ∃ vertex, kv.get (SchemaKey.vertex space vid) = some (.vertex vertex) ∧ tag ∈ vertex.tags.map TagData.name

def HasVector (vid : Int) (prop : String) : Prop :=
  ∃ vertex, kv.get (SchemaKey.vertex space vid) = some (.vertex vertex) ∧ prop ∈ vectorNames vertex

/-- Tag entries and vectors belong to stored vertices that have them. -/
structure Viewed : Prop where
  tags : ∀ vid tag, (kv.get (tagvid space tag vid)).isSome = true → HasTag space kv vid tag
  vectors : ∀ vid prop, (kv.get (vecData space prop vid)).isSome = true → HasVector space kv vid prop

structure Sound : Prop where
  keyed : Keyed space kv
  mirrored : Mirrored space kv
  canonical : Canonical space kv
  viewed : Viewed space kv
  flat : Flat space kv

def Asserts (edge : EdgeData) : Prop :=
  kv.get (edge.key space) = some (.edge edge) ∧ edge.isInferred = false

end

variable {kv : KV}

theorem Flat.congr (flat : Flat space kv)
    (same : ∀ key, region space key = some .alias → kv'.get key = kv.get key) : Flat space kv' := by
  have pointers : ∀ vid, kv'.get (sameas space vid) = kv.get (sameas space vid) :=
    fun vid => same _ (by simp)
  have lists : ∀ rep vid, kv'.get (sameasMember space rep vid) = kv.get (sameasMember space rep vid) :=
    fun rep vid => same _ (by simp)
  constructor
  · intro vid value found
    rw [pointers] at found
    obtain ⟨rep, shape, below, last⟩ := flat.pointer vid value found
    exact ⟨rep, shape, below, (pointers rep).trans last⟩
  · intro rep vid
    rw [lists, pointers]
    exact flat.members rep vid
  · intro rep key value found covered
    obtain ⟨rest, -, shape⟩ := covers_text.mp covered
    have inside : region space key = some .alias :=
      shape ▸ region_of_kind (kind_text space "sameas-members" (.num rep) rest)
    exact flat.listed rep key value (same key inside ▸ found) covered

theorem repAt_congr (same : ∀ vid, kv'.get (sameas space vid) = kv.get (sameas space vid)) :
    repAt space kv' = repAt space kv := by
  funext vid
  rw [repAt, repAt, same]

theorem root_congr (same : ∀ vid, kv'.get (sameas space vid) = kv.get (sameas space vid))
    (vid : Int) : Root space kv' vid ↔ Root space kv vid := by
  rw [Root, Root, same]

theorem Viewed.congr (viewed : Viewed space kv)
    (views : ∀ key, key.kind space = some "tagvid" ∨ key.kind space = some "vec" → kv'.get key = kv.get key)
    (vertices : ∀ vid, kv'.get (.vertex space vid) = kv.get (.vertex space vid)) : Viewed space kv' := by
  constructor
  · intro vid tag present
    rw [views _ (by simp)] at present
    obtain ⟨vertex, found, has⟩ := viewed.tags vid tag present
    exact ⟨vertex, (vertices vid).trans found, has⟩
  · intro vid prop present
    rw [views _ (by simp)] at present
    obtain ⟨vertex, found, has⟩ := viewed.vectors vid prop present
    exact ⟨vertex, (vertices vid).trans found, has⟩

theorem Mirrored.congr (mirrored : Mirrored space kv)
    (same : ∀ key, EdgeKey space key → kv'.get key = kv.get key) : Mirrored space kv' := by
  intro t rank
  rw [same _ (.inr (t.kind_inKey space rank)), same _ (.inl (t.kind_key space rank)), mirrored]

theorem Keyed.edge (keyed : Keyed space kv) (found : kv.get (t.key space rank) = some value) :
    ∃ edge, value = .edge edge ∧ tripleOf edge = t ∧ edge.ranking = rank := by
  obtain ⟨edge, rfl, same⟩ := keyed.edges t rank value found
  rw [edge_key_eq, Triple.key_inj] at same
  exact ⟨edge, rfl, same⟩

theorem Asserts.unique (first : Asserts space kv left) (second : Asserts space kv right)
    (same : left.key space = right.key space) : left = right := by
  have found := first.1
  rw [same, second.1, Option.some.injEq, Val.edge.injEq] at found
  exact found.symm

theorem Sound.ends (sound : Sound space kv) {edge : EdgeData} (found : kv.get (edge.key space) = some value) :
    Root space kv edge.srcVid ∧ Root space kv edge.dstVid :=
  ⟨sound.canonical _ _ _ found .source, sound.canonical _ _ _ found .target⟩

theorem Canonical.grow (canonical : Canonical space kv)
    (pointers : ∀ vid, kv'.get (sameas space vid) = kv.get (sameas space vid))
    (named : ∀ key value, kv'.get key = some value → (kv.get key).isSome = true ∨
      ∀ vid, Mentions space vid key → Root space kv vid) : Canonical space kv' := by
  intro key value vid found mentions
  rw [root_congr pointers]
  rcases named key value found with old | new
  · obtain ⟨value, stored⟩ := Option.isSome_iff_exists.mp old
    exact canonical key value vid stored mentions
  · exact new vid mentions

/-- The regions and kinds of keys that a sound graph is about. -/
def Matters (space : String) (key : Key) : Prop :=
  region space key = some .alias ∨
    key.kind space ∈ [some "vertex", some "edge", some "in-edge", some "vtype", some "tagvid", some "vec"]

theorem Mentions.matters (mentions : Mentions space vid key) : Matters space key := by
  cases mentions <;> simp [Matters]

theorem Sound.congr (sound : Sound space kv)
    (same : ∀ key, Matters space key → kv'.get key = kv.get key) : Sound space kv' where
  keyed := by
    constructor
    · intro t rank value found
      rw [same _ (by simp [Matters])] at found
      exact sound.keyed.edges t rank value found
    · intro vid value found
      rw [same _ (by simp [Matters])] at found
      exact sound.keyed.vertices vid value found
  mirrored := sound.mirrored.congr fun key kind => same key (by rcases kind with kind | kind <;> simp [Matters, kind])
  canonical := by
    intro key value vid found mentions
    rw [root_congr fun vid => same _ (by simp [Matters])]
    exact sound.canonical key value vid (same key mentions.matters ▸ found) mentions
  viewed := sound.viewed.congr (fun key kind => same key (by rcases kind with kind | kind <;> simp [Matters, kind]))
    fun vid => same _ (by simp [Matters])
  flat := sound.flat.congr fun key inside => same key (.inl inside)

theorem get_batch_cases (found : ((kv.putAll puts).eraseAll deletes).get key = some value) :
    key ∉ deletes ∧ ((key, value) ∈ puts ∨ kv.get key = some value) := by
  rw [get_eraseAll] at found
  split at found
  · cases found
  · rename_i kept
    refine ⟨kept, ?_⟩
    rw [get_putAll] at found
    cases last : lastPut puts key with
    | none =>
      rw [last, Option.none_or] at found
      exact .inr found
    | some stored =>
      rw [last, Option.some_or, Option.some.injEq] at found
      exact .inl (found ▸ mem_of_lastPut last)

/-- Entries of edge indexes and the inference marker. -/
def Unnamed (space : String) (key : Key) : Prop := EdgeEntry key ∨ key = inferenceDirty space

theorem not_matters_of_region (inside : region space key = some part)
    (alias_ : part ≠ .alias) (view : part ≠ .view) : ¬ Matters space key := by
  rintro (other | kind)
  · simp [inside, alias_] at other
  · simp only [mem_cons, not_mem_nil, or_false] at kind
    rcases kind with kind | kind | kind | kind | kind | kind
    iterate 4 exact kind_ne_of_region inside rfl kind
    all_goals
      rw [region_of_kind kind] at inside
      simp only [regionOf, Option.some.injEq] at inside
      exact view inside.symm

theorem Unnamed.apart (unnamed : Unnamed space key) : ¬ Matters space key := by
  rcases unnamed with entry | rfl
  · exact not_matters_of_region (entry.region space) (by simp) (by simp)
  · simp [Matters]

/-- A batch that writes and removes edges between vertices that were not merged away. -/
theorem Sound.edgeBatch (sound : Sound space kv) (edges : List EdgeData)
    (unnamed : ∀ put ∈ others, Unnamed space put.1) (removed : ∀ key ∈ deletes, EdgeKey space key ∨ Unnamed space key)
    (paired : ∀ (t : Triple) (rank : Int), t.inKey space rank ∈ deletes ↔ t.key space rank ∈ deletes)
    (roots : ∀ edge ∈ edges, Root space kv edge.srcVid ∧ Root space kv edge.dstVid) :
    Sound space ((kv.putAll (edges.flatMap (edgePair space) ++ others)).eraseAll deletes) := by
  have kept : ∀ key, Matters space key → ¬ EdgeKey space key →
      ((kv.putAll (edges.flatMap (edgePair space) ++ others)).eraseAll deletes).get key = kv.get key := by
    intro key matters plain
    refine Content.get_batch ?_ ?_
    · intro mem
      obtain ⟨put, listed, rfl⟩ := mem_map.mp mem
      rcases mem_append.mp listed with pair | other
      · obtain ⟨edge, -, pair⟩ := mem_flatMap.mp pair
        rcases (mem_edgePair pair).2 with same | same
        · exact plain (.inl (by simp [same]))
        · exact plain (.inr (by simp [same]))
      · exact (unnamed put other).apart matters
    · intro deleted
      rcases removed key deleted with isEdge | other
      · exact plain isEdge
      · exact other.apart matters
  have put_edge : ∀ {key : Key} {value : Val}, (key, value) ∈ edges.flatMap (edgePair space) ++ others → Matters space key →
      ∃ edge ∈ edges, value = .edge edge ∧ (key = edge.key space ∨ key = edge.inKey space) := by
    intro key value listed matters
    rcases mem_append.mp listed with pair | other
    · obtain ⟨edge, mem, pair⟩ := mem_flatMap.mp pair
      exact ⟨edge, mem, mem_edgePair pair⟩
    · exact absurd matters (unnamed _ other).apart
  constructor
  · constructor
    · intro t rank value found
      obtain ⟨-, put | old⟩ := get_batch_cases found
      · obtain ⟨edge, -, rfl, same | same⟩ := put_edge put (by simp [Matters])
        · exact ⟨edge, rfl, same.symm⟩
        · exact absurd same (by simp [edge_inKey_eq])
      · exact sound.keyed.edges t rank value old
    · intro vid value found
      rw [kept _ (by simp [Matters]) (by simp [EdgeKey])] at found
      exact sound.keyed.vertices vid value found
  · exact Mirrored.batch edges others (fun put mem kind => (unnamed put mem).apart
      (by rcases kind with kind | kind <;> simp [Matters, kind])) paired sound.mirrored
  · refine sound.canonical.grow (fun vid => kept _ (by simp [Matters]) (not_edgeKey_of_region (region_sameas space vid))) ?_
    intro key value found
    obtain ⟨-, put | old⟩ := get_batch_cases found
    · right
      intro vid mentions
      obtain ⟨edge, mem, -, same⟩ := put_edge put mentions.matters
      have ends : vid = edge.srcVid ∨ vid = edge.dstVid := by
        rcases same with rfl | rfl
        · simpa [EdgeData.key] using mentions
        · simpa [EdgeData.inKey] using mentions
      rcases ends with rfl | rfl
      · exact (roots edge mem).1
      · exact (roots edge mem).2
    · exact .inl (by simp [old])
  · exact sound.viewed.congr (fun key kind => kept key (by rcases kind with kind | kind <;> simp [Matters, kind])
      (by rcases kind with kind | kind <;> simp [EdgeKey, kind])) fun vid => kept _ (by simp [Matters]) (by simp [EdgeKey])
  · exact sound.flat.congr fun key inside => kept key (.inl inside) (not_edgeKey_of_region inside)

end ByoriDB.Executor
