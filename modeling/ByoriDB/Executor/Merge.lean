import ByoriDB.Executor.Collapse
import ByoriDB.Executor.Degrees

/-! A statement merges the ends of its `sameAs` edges one after the other, and then counts the degrees again. -/

namespace ByoriDB.Executor

open List Data Program Store ByoriDB.Graph

variable {space : String} {indexes tagIndexes : List IndexDef}

theorem movedEdges_root : Root space (movedEdges space indexes winner loser kv edges) vid ↔ Root space kv vid :=
  root_congr (fun _ => get_movedEdges_aside (aside_of_region (region_sameas space _) (by simp)) edges) vid

theorem tends_link (inside : region space key = some .alias) : Tends space .alias [] (.put key value) :=
  ⟨rfl, rfl, by simpa [KvOp.touched, KvOp.written] using inside,
    by simpa [KvOp.written] using fun _ => not_mentions_of_region inside (by simp), by simp⟩

theorem wp_collapseNode (apart : winner ≠ loser) (within : terms.tended .alias)
    (merging : Merging env space terms ctx indexes tagIndexes world)
    (canonical : terms.rooted → Canonical space world.kv)
    (root : terms.rooted → Root space world.kv winner) :
    (collapseNode ctx space winner loser).wp (handler env) (Mutates env space terms)
      (fun _ world' => Collapses space indexes tagIndexes winner loser world.kv world'.kv) world := by
  refine wp_seq_with Mutates.merging merging (wp_moveEdges merging canonical root) ?_
  rintro _ world₁ ⟨edges, moves, moved⟩ merging₁
  have root₁ : terms.rooted → Root space world₁.kv winner := fun assumed => by
    rw [moved, movedEdges_root]
    exact root assumed
  refine wp_seq_with Mutates.merging merging₁ (wp_moveTypes apart merging₁.settled root₁) ?_
  intro _ world₂ types merging₂
  have root₂ : terms.rooted → Root space world₂.kv winner := fun assumed =>
    (root_of_rest types.rest).mpr (root₁ assumed)
  refine wp_seq (wp_mergeVertexBlob apart merging₂.declaredTags merging₂.settled root₂) ?_
  intro _ world₃ vertex
  rw [wp_bind, wp_scanPrefix]
  refine ⟨.look rfl, wp_seq (wp_repointMembers _ within) ?_⟩
  rintro _ world₄ ⟨members, listed, repoints⟩
  refine ⟨.tend within (tends_link (by simp)) (by simp), .tend within (tends_link (by simp)) (by simp), ?_⟩
  rw [moved] at types
  refine .intro moves types vertex ?_
  change Links space winner loser world₃.kv ((world₄.kv.insert _ _).insert _ _)
  rw [repoints]
  refine links_repointed apart fun vid => ?_
  have named : sameasMember space loser vid ∈ members.map (sameasMember space loser) ↔ vid ∈ members := by
    simp [mem_map]
  rw [← named, ← listed, Option.isSome_iff_exists, mem_map]
  constructor
  · rintro ⟨⟨_, value⟩, mem, rfl⟩
    exact ⟨value, (mem_scan.mp mem).1⟩
  · rintro ⟨value, found⟩
    exact ⟨(_, value), mem_scan.mpr ⟨found, covers_sameasMember⟩, rfl⟩

def Idle (space : String) (kv : KV) (t : Triple) : Prop :=
  t.p ≠ sameasEdge ∨ t.s = t.d ∨ ∃ rep, Represents space kv t.s rep ∧ Represents space kv t.d rep

inductive MergesAll (space : String) (indexes tagIndexes : List IndexDef) : List Triple → KV → Nat → KV → Prop where
  | nil {kv : KV} : MergesAll space indexes tagIndexes [] kv 0 kv
  | skip {t : Triple} {rest : List Triple} {kv kv' : KV} {count : Nat} (idle : Idle space kv t)
      (later : MergesAll space indexes tagIndexes rest kv count kv') : MergesAll space indexes tagIndexes (t :: rest) kv count kv'
  | merge {t : Triple} {rest : List Triple} {kv middle kv' : KV} {count : Nat} {left right : Int}
      (same : t.p = sameasEdge) (source : Represents space kv t.s left) (target : Represents space kv t.d right)
      (apart : left ≠ right) (collapses : Collapses space indexes tagIndexes (min left right) (max left right) kv middle)
      (later : MergesAll space indexes tagIndexes rest middle count kv') :
      MergesAll space indexes tagIndexes (t :: rest) kv (count + 1) kv'

theorem min_lt_max_of_ne {right : Int} (apart : left ≠ right) : min left right < max left right := by omega

theorem Root.extremes (first : Root space kv left) (second : Root space kv right) :
    Root space kv (min left right) ∧ Root space kv (max left right) := by
  rcases Int.le_total left right with order | order
  · rw [Int.min_eq_left order, Int.max_eq_right order]
    exact ⟨first, second⟩
  · rw [Int.min_eq_right order, Int.max_eq_left order]
    exact ⟨second, first⟩

theorem wp_mergeTriples (triples : List Triple) (merged : Nat) (within : terms.tended .alias)
    (merging : Merging env space terms ctx indexes tagIndexes world) (sound : terms.rooted → Sound space world.kv) :
    (triples.foldlM (mergeTriple ctx space) merged).wp (handler env) (Mutates env space terms)
      (fun merged' world' => ∃ count, merged' = merged + count ∧
        MergesAll space indexes tagIndexes triples world.kv count world'.kv) world := by
  induction triples generalizing world merged with
  | nil => exact ⟨0, rfl, .nil⟩
  | cons t rest ih =>
    rw [foldlM_cons]
    -- A triple without a merge leaves the store to the rest.
    have skips : Idle space world.kv t →
        (rest.foldlM (mergeTriple ctx space) merged).wp (handler env) (Mutates env space terms)
          (fun merged' world' => ∃ count, merged' = merged + count ∧
            MergesAll space indexes tagIndexes (t :: rest) world.kv count world'.kv) world := by
      intro idle
      refine wp_imp (ih merged merging sound) ?_
      rintro _ _ ⟨count, total, later⟩
      exact ⟨count, total, .skip idle later⟩
    unfold mergeTriple
    split
    · rename_i trivially
      exact skips (trivially.imp_right .inl)
    · rename_i sameas
      rw [not_or, not_not] at sameas
      rw [bind_assoc]
      refine wp_seq (wp_representativeOf t.s) ?_
      rintro left world ⟨rfl, source⟩
      rw [bind_assoc]
      refine wp_seq (wp_representativeOf t.d) ?_
      rintro right world ⟨rfl, target⟩
      split
      · rename_i same
        exact skips (.inr (.inr ⟨left, source, same ▸ target⟩))
      · rename_i apart
        split
        · trivial
        · obtain ⟨low, high⟩ := source.2.extremes target.2
          rw [bind_assoc]
          refine wp_seq_with Mutates.merging merging (wp_collapseNode (Int.ne_of_lt (min_lt_max_of_ne apart)) within merging
            (fun assumed => (sound assumed).canonical) fun _ => low) ?_
          intro _ world' collapses merging'
          have sound' : terms.rooted → Sound space world'.kv := fun assumed =>
            (sound assumed).collapse collapses (min_lt_max_of_ne apart) low high
          refine wp_imp (ih (merged + 1) merging' sound') ?_
          rintro _ _ ⟨count, total, later⟩
          exact ⟨count + 1, by omega, .merge sameas.1 source target apart collapses later⟩

namespace MergesAll

variable {triples : List Triple} {kv kv' : KV} {count : Nat}

section

variable (merges : MergesAll space indexes tagIndexes triples kv count kv')
include merges

theorem sound (sound : Sound space kv) : Sound space kv' := by
  induction merges with
  | nil => exact sound
  | skip _ _ ih => exact ih sound
  | merge _ source target apart collapses _ ih =>
    obtain ⟨low, high⟩ := source.2.extremes target.2
    exact ih (sound.collapse collapses (min_lt_max_of_ne apart) low high)

theorem coarser (sound : Sound space kv) (vid : Int) : repAt space kv' (repAt space kv vid) = repAt space kv' vid := by
  induction merges generalizing vid with
  | nil => exact sound.flat.repAt_of_root (sound.flat.root_repAt vid)
  | skip _ _ ih => exact ih sound vid
  | @merge t rest kv middle kv' count left right _ source target apart collapses _ ih =>
    obtain ⟨low, high⟩ := source.2.extremes target.2
    have later := ih (sound.collapse collapses (min_lt_max_of_ne apart) low high)
    have step : repAt space middle (repAt space kv vid) = repAt space middle vid := by
      rw [collapses.repAt sound high, joined, joined, sound.flat.repAt_of_root (sound.flat.root_repAt vid)]
    rw [← later, step, later]

/-- The map to representatives is that of the classes which the triples generate. -/
theorem least (sound : Sound space kv)
    (least : Least (repAt space kv) related) :
    Least (repAt space kv') fun a b => related a b ∨ ∃ t ∈ triples, t.p = sameasEdge ∧ a = t.s ∧ b = t.d := by
  induction merges generalizing related with
  | nil =>
    refine least.congr (fun _ _ one => .rel _ _ (.inl one)) ?_
    rintro a b (one | ⟨t, mem, -⟩)
    · exact .rel _ _ one
    · cases mem
  | @skip t rest kv kv' count idle later ih =>
    refine (ih sound least).congr ?_ ?_
    · rintro a b (one | ⟨u, mem, rest⟩)
      · exact .rel _ _ (.inl one)
      · exact .rel _ _ (.inr ⟨u, mem_cons_of_mem _ mem, rest⟩)
    · rintro a b (one | ⟨u, mem, sameas, rfl, rfl⟩)
      · exact .rel _ _ (.inl one)
      · rcases mem_cons.mp mem with rfl | listed
        · -- The two ends of an idle triple are already together.
          rcases idle with other | same | ⟨rep, source, target⟩
          · exact absurd sameas other
          · rw [same]
            exact .refl _
          · have together : repAt space kv u.s = repAt space kv u.d :=
              (sound.flat.represents source).symm.trans (sound.flat.represents target)
            exact eqvGen_implies (fun _ _ one => .rel _ _ (.inl one)) (least.same_iff.mp together)
        · exact .rel _ _ (.inr ⟨u, listed, sameas, rfl, rfl⟩)
  | @merge t rest kv middle kv' count left right sameas source target apart collapses later ih =>
    obtain ⟨low, high⟩ := source.2.extremes target.2
    have joinedLeast := least.join t.s t.d
    rw [← sound.flat.represents source, ← sound.flat.represents target, ← collapses.repAt sound high] at joinedLeast
    refine (ih (sound.collapse collapses (min_lt_max_of_ne apart) low high) joinedLeast).congr ?_ ?_
    · rintro a b ((one | ⟨rfl, rfl⟩) | ⟨u, mem, rest⟩)
      · exact .rel _ _ (.inl one)
      · exact .rel _ _ (.inr ⟨t, mem_cons_self, sameas, rfl, rfl⟩)
      · exact .rel _ _ (.inr ⟨u, mem_cons_of_mem _ mem, rest⟩)
    · rintro a b (one | ⟨u, mem, same, rfl, rfl⟩)
      · exact .rel _ _ (.inl (.inl one))
      · rcases mem_cons.mp mem with rfl | listed
        · exact .rel _ _ (.inl (.inr ⟨rfl, rfl⟩))
        · exact .rel _ _ (.inr ⟨u, listed, same, rfl, rfl⟩)

theorem image (sound : Sound space kv) : Image space (repAt space kv') kv kv' := by
  induction merges with
  | nil =>
    refine (Image.of_same fun _ => Iff.rfl).congr fun edge asserts => ?_
    obtain ⟨src, dst⟩ := sound.ends asserts.1
    simp [mapEnds, sound.flat.repAt_of_root src, sound.flat.repAt_of_root dst]
  | skip _ _ ih => exact ih sound
  | merge _ source target apart collapses later ih =>
    obtain ⟨low, high⟩ := source.2.extremes target.2
    have lower := min_lt_max_of_ne apart
    have middle := sound.collapse collapses lower low high
    refine ((collapses.image sound high (Int.ne_of_lt lower)).trans (ih middle)).congr fun edge asserts => ?_
    simp [mapEnds, later.coarser middle]

/-- Edges between vertices whose classes stayed as they were are not touched. -/
theorem unaffected (sound : Sound space kv) {t : Triple} (rank : Int) (srcRoot : Root space kv t.s)
    (dstRoot : Root space kv t.d) (src : ∀ vid, repAt space kv' vid = repAt space kv' t.s ↔
      repAt space kv vid = repAt space kv t.s) (dst : ∀ vid, repAt space kv' vid =
      repAt space kv' t.d ↔ repAt space kv vid = repAt space kv t.d) :
    kv'.get (t.key space rank) = kv.get (t.key space rank) := by
  induction merges with
  | nil => rfl
  | skip _ _ ih => exact ih sound srcRoot dstRoot src dst
  | @merge u rest kv middle kv' count left right _ source target apart collapses later ih =>
    obtain ⟨low, high⟩ := source.2.extremes target.2
    have lower := min_lt_max_of_ne apart
    have next := sound.collapse collapses lower low high
    have joins := collapses.repAt sound high
    -- A vertex whose class stays the same takes no part in the merge.
    have aside : ∀ {vid : Int}, Root space kv vid →
        (∀ other, repAt space kv' other = repAt space kv' vid ↔ repAt space kv other = repAt space kv vid) →
        (vid ≠ min left right ∧ vid ≠ max left right) ∧ Root space middle vid ∧
          ∀ other, repAt space kv' other = repAt space kv' vid ↔ repAt space middle other = repAt space middle vid := by
      intro vid root stays
      have together : repAt space kv' (min left right) = repAt space kv' (max left right) := by
        have merged : repAt space middle (min left right) = repAt space middle (max left right) := by
          simp only [joins, joined, sound.flat.repAt_of_root low, sound.flat.repAt_of_root high]
          split <;> simp
        rw [← later.coarser next (min left right), merged, later.coarser next]
      have distinct : repAt space kv (min left right) ≠ repAt space kv (max left right) := by
        rw [sound.flat.repAt_of_root low, sound.flat.repAt_of_root high]
        exact Int.ne_of_lt lower
      have notLow : vid ≠ min left right := by
        rintro rfl
        exact distinct ((stays _).mp together.symm).symm
      have notHigh : vid ≠ max left right := by
        rintro rfl
        exact distinct ((stays _).mp together)
      have own : repAt space middle vid = vid := by
        rw [joins, joined, sound.flat.repAt_of_root root, if_neg notHigh]
      refine ⟨⟨notLow, notHigh⟩, ?_, fun other => ⟨fun same => ?_, fun same => ?_⟩⟩
      · have reached := next.flat.root_repAt vid
        rwa [own] at reached
      · rw [joins, joined, joined, (stays other).mp same]
      · rw [← later.coarser next other, same, later.coarser next]
    obtain ⟨srcAside, srcNext, srcStays⟩ := aside srcRoot src
    obtain ⟨dstAside, dstNext, dstStays⟩ := aside dstRoot dst
    rw [ih next srcNext dstNext srcStays dstStays, collapses.unaffected sound rank srcAside dstAside]

end

end MergesAll

/-- The merges of a statement: the degrees are counted again if there were any. -/
inductive Merges (space : String) (indexes tagIndexes : List IndexDef) (triples : List Triple) (kv kv' : KV) : Prop where
  | none (merges : MergesAll space indexes tagIndexes triples kv 0 kv')
  | some {count : Nat} {merged : KV} (merges : MergesAll space indexes tagIndexes triples kv (count + 1) merged)
      (counted : Counted space kv') (rest : ∀ key, region space key ≠ some .counter → kv'.get key = merged.get key)

theorem wp_mergeSameasTriples (links : terms.tended .alias) (counts : terms.tended .counter)
    (merging : Merging env space terms ctx indexes tagIndexes world) (sound : terms.rooted → Sound space world.kv) :
    (mergeSameasTriples ctx space triples).wp (handler env) (Mutates env space terms)
      (fun _ world' => Merges space indexes tagIndexes triples world.kv world'.kv) world := by
  refine wp_seq (wp_mergeTriples triples 0 links merging sound) ?_
  rintro _ world' ⟨count, rfl, merges⟩
  cases count with
  | zero => exact .none merges
  | succ count =>
    refine wp_imp (wp_rebuildAssertedDegreeCounters counts) ?_
    rintro _ final ⟨counted, tended⟩
    exact .some merges counted tended

end ByoriDB.Executor
