import ByoriDB.Executor.Runs
import ByoriDB.Executor.VertexEffects

namespace ByoriDB.Executor

open List Data Program Store ByoriDB.Graph

variable {env : Env} {space : String} {indexes : List IndexDef} {kv kv' : KV}

theorem Sound.uncounted (sound : Sound space kv)
    (same : ∀ key, region space key ≠ some .counter → kv'.get key = kv.get key) : Sound space kv' :=
  sound.congr fun key matters => same key fun inside => not_matters_of_region inside (by simp) (by simp) matters

theorem Sound.merges (sound : Sound space kv)
    (merges : Merges space indexes tagIndexes triples kv kv') : Sound space kv' := by
  cases merges with
  | none merges => exact merges.sound sound
  | some merges _ rest => exact (merges.sound sound).uncounted rest

theorem Sound.insertEdges (sound : Sound space kv)
    (inserted : InsertsEdges env space indexes tagIndexes inserts kv kv') : Sound space kv' := by
  obtain ⟨-, mapping, -, collected, -, ⟨fenced, merges⟩⟩ := inserted
  exact (collected.sound_counted fenced (sound.remapped mapping)).merges merges

theorem get_addCounters_of_region {deltas : List (Key × Int)}
    (inside : ∀ delta ∈ deltas, region space delta.1 = some .counter) (other : region space key ≠ some .counter) :
    (deltas.foldl env.addCounter kv).get key = kv.get key := by
  refine Content.get_addCounters fun mem => ?_
  obtain ⟨delta, listed, rfl⟩ := mem_map.mp mem
  exact other (inside delta listed)

theorem region_promotion (old : EdgeData) : ∀ delta ∈
    (promotion old (indegCounter space old.edgeType old.dstVid)).toList ++
      (promotion old (outdegCounter space old.edgeType old.srcVid)).toList, region space delta.1 = some .counter := by
  intro delta mem
  unfold promotion at mem
  split at mem
  · simp only [toList_addDelta_empty, cons_append, nil_append, mem_cons, not_mem_nil, or_false] at mem
    rcases mem with rfl | rfl <;> simp
  · simp [toList_empty] at mem

theorem Sound.updateEdge (sound : Sound space kv) (updated : UpdatesEdge env space indexes kv kv') : Sound space kv' := by
  cases updated with
  | idle => exact sound
  | @rewritten old updates puts _ roots fenced =>
    have batch : Sound space ((kv.putAll puts).eraseAll ((indexMoves indexes old (updatedEdge old updates)).map Prod.fst)) :=
      sound.fencedEdges [] fenced edgeEntry_movedTo edgeEntry_movedFrom (by simpa [updatedEdge] using roots)
    exact batch.uncounted fun key other => get_addCounters_of_region (region_promotion _) other

theorem Sound.deleteEdges (sound : Sound space kv) (deleted : DeletesEdges env space indexes kv kv') : Sound space kv' := by
  obtain @⟨deletion, puts, removing, fenced⟩ := deleted
  have none : FencedPuts space kv (([] : List EdgeData).flatMap (edgePair space) ++ []) puts := fenced
  have batch := sound.fencedEdges deletion.edges none (by simp) (edgeEntry_indexKeys removing) (by simp)
  exact batch.uncounted fun key other => get_addCounters_of_region removing.deltas.inside other

/-- What holds of both ends of all given triples holds of both ends of what they
entail. -/
theorem closure_ends {holds : Int → Prop} (ends : ∀ t, base t → holds t.s ∧ holds t.d)
    (closure : (entailment flags).Closure base t) : holds t.s ∧ holds t.d := by
  induction closure with
  | base given => exact ends _ given
  | unary _ rule ih =>
    rcases rule with ⟨-, rfl⟩ | ⟨q, -, rfl⟩ | ⟨q, -, rfl⟩ | ⟨q, -, rfl⟩
    · exact ih.symm
    · exact ih.symm
    · exact ih
    · exact ih
  | binary _ _ rule left right =>
    obtain ⟨-, ⟨-, -, rfl⟩ | ⟨q, -, rfl⟩⟩ := rule <;> exact ⟨left.1, right.2⟩

/-- The keys that a sound graph is about, next to edges and derived facts. -/
def Lasts (space : String) (key : Key) : Prop :=
  region space key = some .alias ∨ key.kind space ∈ [some "vertex", some "tagvid", some "vec"]

/-- Two stores agree on what was asserted. -/
structure Grounds (space : String) (clean kv : KV) : Prop where
  asserted : ∀ key, key.kind space = some "edge" → (kv.get key).filter Val.isAsserted = (clean.get key).filter Val.isAsserted
  other : ∀ key, Lasts space key → kv.get key = clean.get key

/-- The store differs from a sound one in derived facts only. -/
def Grounded (space : String) (kv : KV) : Prop := ∃ clean, Sound space clean ∧ Grounds space clean kv

theorem Lasts.underived (lasts : Lasts space key) : key.kind space ≠ some "edge" ∧ key.kind space ∉ derivedKinds := by
  rcases lasts with inside | kind
  · refine ⟨kind_ne_of_region inside rfl, fun derived => ?_⟩
    simp only [derivedKinds, mem_cons, not_mem_nil, or_false] at derived
    rcases derived with kind | kind | kind | kind <;> exact kind_ne_of_region inside rfl kind
  · simp only [mem_cons, not_mem_nil, or_false] at kind
    rcases kind with kind | kind | kind <;> simp [kind, derivedKinds]

theorem KeepsAssertions.get_region (keeps : KeepsAssertions space kv kv')
    (inside : region space key = some part) : kv'.get key = kv.get key := by
  refine keeps.other key (kind_ne_of_region inside rfl) fun derived => ?_
  simp only [derivedKinds, mem_cons, not_mem_nil, or_false] at derived
  rcases derived with kind | kind | kind | kind <;> exact kind_ne_of_region inside rfl kind

theorem KeepsAssertions.grounds (keeps : KeepsAssertions space kv kv') : Grounds space kv kv' where
  asserted := keeps.asserted
  other key lasts := keeps.other key lasts.underived.1 lasts.underived.2

theorem Grounds.of_same (edges : ∀ key, key.kind space = some "edge" → kv'.get key = kv.get key)
    (others : ∀ key, Lasts space key → kv'.get key = kv.get key) : Grounds space kv kv' where
  asserted key edge := by rw [edges key edge]
  other := others

theorem Sound.grounded (sound : Sound space kv) : Grounded space kv :=
  ⟨kv, sound, .of_same (fun _ _ => rfl) fun _ _ => rfl⟩

theorem Grounded.grounds (grounded : Grounded space kv) (grounds : Grounds space kv kv') : Grounded space kv' := by
  obtain ⟨clean, sound, early⟩ := grounded
  exact ⟨clean, sound, fun key edge => (grounds.asserted key edge).trans (early.asserted key edge),
    fun key lasts => (grounds.other key lasts).trans (early.other key lasts)⟩

theorem Grounded.materialized (grounded : Grounded space kv) (built : Materialized space kv kv') : Sound space kv' := by
  obtain ⟨clean, sound, kept⟩ := grounded
  have lasting : ∀ key, Lasts space key → kv'.get key = clean.get key :=
    fun key lasts => (built.keeps.grounds.other key lasts).trans (kept.other key lasts)
  have pointers : ∀ vid, kv'.get (sameas space vid) = clean.get (sameas space vid) :=
    fun vid => lasting _ (.inl (by simp))
  have vertices : ∀ vid, kv'.get (.vertex space vid) = clean.get (.vertex space vid) :=
    fun vid => lasting _ (.inr (by simp))
  have cleanAsserts : ∀ {t : Triple} {rank : Int} {value : Val}, kv.get (t.key space rank) =
    some value → value.isAsserted = true →
      clean.get (t.key space rank) = some value := by
    intro t rank value found asserted
    have same := kept.asserted (t.key space rank) (t.kind_key space rank)
    rw [found, Option.filter_some, if_pos asserted] at same
    exact (Option.filter_eq_some_iff.mp same.symm).1
  have assertedEnds : ∀ t, Asserted kv space t → Root space kv' t.s ∧ Root space kv' t.d := by
    rintro t ⟨rank, value, found, asserted⟩
    have stored := cleanAsserts found asserted
    rw [root_congr pointers, root_congr pointers]
    exact ⟨sound.canonical _ _ _ stored .source, sound.canonical _ _ _ stored .target⟩
  have ends : ∀ (t : Triple) (rank : Int) (value : Val), kv'.get (t.key space rank) = some value →
      Root space kv' t.s ∧ Root space kv' t.d := by
    intro t rank value found
    rcases (built.forward t rank value).mp found with ⟨old, asserted⟩ | ⟨derived, -⟩
    · exact assertedEnds t ⟨rank, value, old, asserted⟩
    · exact closure_ends assertedEnds derived
  constructor
  · constructor
    · intro t rank value found
      rcases (built.forward t rank value).mp found with ⟨old, asserted⟩ | ⟨-, -, rfl, rfl⟩
      · exact sound.keyed.edges t rank value (cleanAsserts old asserted)
      · exact ⟨_, rfl, rfl⟩
    · intro vid value found
      exact sound.keyed.vertices vid value (vertices vid ▸ found)
  · exact built.reverse
  · intro key value vid found mentions
    have unchanged : Lasts space key → Root space kv' vid := by
      intro lasts
      rw [lasting key lasts] at found
      rw [root_congr pointers]
      exact sound.canonical key value vid found mentions
    cases mentions with
    | vertex => exact unchanged (.inr (by simp))
    | tag => exact unchanged (.inr (by simp))
    | vector => exact unchanged (.inr (by simp))
    | @source edgeType dst rank => exact (ends ⟨vid, edgeType, dst⟩ rank value found).1
    | @target edgeType src rank => exact (ends ⟨src, edgeType, vid⟩ rank value found).2
    | @inSource edgeType dst rank =>
      exact (ends ⟨vid, edgeType, dst⟩ rank value ((built.reverse ⟨vid, edgeType, dst⟩ rank).symm.trans found)).1
    | @inTarget edgeType src rank =>
      exact (ends ⟨src, edgeType, vid⟩ rank value ((built.reverse ⟨src, edgeType, vid⟩ rank).symm.trans found)).2
    | @type className =>
      obtain ⟨t, derived, typed⟩ := (built.types vid className).mp (by simp [found])
      obtain ⟨src, dst⟩ := closure_ends assertedEnds derived
      rcases typed with ⟨-, rfl⟩ | ⟨-, rfl⟩
      · exact src
      · exact dst
  · refine sound.viewed.congr (fun key kind => ?_) vertices
    exact lasting key (.inr (by rcases kind with kind | kind <;> simp [kind]))
  · exact sound.flat.congr fun key inside => lasting key (.inl inside)

end ByoriDB.Executor
