import ByoriDB.Executor.Ownership

namespace ByoriDB.Executor

open List Data Program Store ByoriDB.Graph
open Relation (EqvGen)

variable {env : Env} {space : String} {pairs : List (Vid × Vid)}

/-- The pairs that a row asserts to be the same. -/
def EdgeInsert.sameasPair (row : EdgeInsert) : Option (Vid × Vid) :=
  if row.edgeType = sameasEdge then some (row.src, row.dst) else none

/-- The pairs that a statement asserts to be the same. -/
def Plan.sameasPairs : Plan → List (Vid × Vid)
  | .mutate (.insert (.edge _ rows)) => rows.filterMap EdgeInsert.sameasPair
  | _ => []

/-- A run, with all pairs it has asserted.  Either a statement is committed with all
its rows, or it leaves the store as it was. -/
inductive AliasRun (env : Env) (space : String) (start : World) : List (Vid × Vid) → World → Prop where
  | start : AliasRun env space start [] start
  | aside {pairs : List (Vid × Vid)} {world reached : World} (runs : AliasRun env space start pairs world)
      (step : RunStep env space (fun _ _ => True) world reached)
        (same : reached.content = world.content) : AliasRun env space start pairs reached
  | elsewhere {pairs : List (Vid × Vid)} {world other : World} (runs : AliasRun env space start pairs world)
      (same : ∀ key, Concerns space key → other.kv.get key = world.kv.get key)
      (readable : Readable space world.kv → Readable space other.kv) : AliasRun env space start pairs other
  | committed {pairs : List (Vid × Vid)} {world reached : World} (runs : AliasRun env space start pairs world) (fuel : Nat)
      (ctx : Ctx) (plan : Plan) (changes : plan.changesGraph = true) (scope : inferenceScope ctx plan = some (space, true))
      (visited : reached ∈ (execute env.toLayout fuel ctx plan).visited (handler env) world)
      (changed : reached.content ≠ world.content) : AliasRun env space start (pairs ++ plan.sameasPairs) reached

theorem AliasRun.runs {start : World} (run : AliasRun env space start pairs reached) :
    Runs env space start reached := by
  induction run with
  | start => exact .refl
  | aside _ step _ ih => exact ih.tail step
  | elsewhere _ same readable ih => exact ih.tail (.elsewhere same readable)
  | committed _ fuel ctx plan changes scope visited _ ih => exact ih.tail (.statement fuel ctx plan changes scope trivial visited)

/-- The ids that a pair stands for. -/
def Names (space : String) (kv : KV) (pair : Vid × Vid) (a b : Int) : Prop :=
  ∃ vidType, vidTypeAt space kv = some vidType ∧ Named space kv vidType pair.1 a ∧ Named space kv vidType pair.2 b

def Relates (space : String) (kv : KV) (pairs : List (Vid × Vid)) (a b : Int) : Prop :=
  ∃ pair ∈ pairs, Names space kv pair a b

theorem Names.lasting (names : Names space kv pair a b) (lasting : Lasting space kv kv')
    (record : kv'.get (.space space) = kv.get (.space space)) : Names space kv' pair a b := by
  obtain ⟨vidType, type, left, right⟩ := names
  exact ⟨vidType, (vidTypeAt_congr record).trans type, left.lasting lasting, right.lasting lasting⟩

theorem Names.unique (names : Names space kv pair a b) (other : Names space kv pair a' b') : a = a' ∧ b = b' := by
  obtain ⟨vidType, type, left, right⟩ := names
  obtain ⟨vidType', type', left', right'⟩ := other
  rw [type, Option.some.injEq] at type'
  subst type'
  exact ⟨left.unique left', right.unique right'⟩

/-- The pointers are those of the classes that the pairs generate. -/
structure Aliased (space : String) (pairs : List (Vid × Vid)) (kv : KV) : Prop where
  named : ∀ pair ∈ pairs, ∃ a b, Names space kv pair a b
  least : Least (repAt space kv) (Relates space kv pairs)

section

variable (aliased : Aliased space pairs kv) (lasting : Lasting space kv kv')
  (record : kv'.get (.space space) = kv.get (.space space))

include aliased lasting record

theorem Aliased.relates_iff (a b : Int) : Relates space kv' pairs a b ↔ Relates space kv pairs a b := by
  constructor
  · rintro ⟨pair, mem, names⟩
    obtain ⟨a', b', old⟩ := aliased.named pair mem
    obtain ⟨rfl, rfl⟩ := names.unique (old.lasting lasting record)
    exact ⟨pair, mem, old⟩
  · rintro ⟨pair, mem, names⟩
    exact ⟨pair, mem, names.lasting lasting record⟩

theorem Aliased.later (pointers : ∀ vid, kv'.get (sameas space vid) = kv.get (sameas space vid)) :
    Aliased space pairs kv' where
  named pair mem := by
    obtain ⟨a, b, names⟩ := aliased.named pair mem
    exact ⟨a, b, names.lasting lasting record⟩
  least := by
    have same : Relates space kv' pairs = Relates space kv pairs := by
      funext a b
      exact propext (aliased.relates_iff lasting record a b)
    rw [repAt_congr pointers, same]
    exact aliased.least

end

theorem Merges.least (merges : Merges space indexes tagIndexes triples kv kv')
    (sound : Sound space kv) (least : Least (repAt space kv) related) : Least (repAt space kv')
      fun a b => related a b ∨ ∃ t ∈ triples, t.p = sameasEdge ∧ a = t.s ∧ b = t.d := by
  cases merges with
  | none merges => exact merges.least sound least
  | some merges _ rest =>
    rw [repAt_congr fun vid => rest _ (by simp)]
    exact merges.least sound least

theorem mem_sameasPairs {rows : List EdgeInsert} : pair ∈ rows.filterMap EdgeInsert.sameasPair ↔
    ∃ row ∈ rows, row.edgeType = sameasEdge ∧ (row.src, row.dst) = pair := by
  simp [EdgeInsert.sameasPair]

theorem Aliased.insertEdges (aliased : Aliased space pairs kv) (sound : Sound space kv)
    (record : kv'.get (.space space) = kv.get (.space space))
    (inserted : InsertsEdges env space indexes tagIndexes rows kv kv') :
    Aliased space (pairs ++ rows.filterMap EdgeInsert.sameasPair) kv' := by
  obtain @⟨vidType, mapped, collected, type, mapping, lasting, collects, made, @⟨puts, fenced, merges⟩⟩ := inserted
  have declares : Declares space (.space space) := .inl rfl
  have mappedRecord := mapping (.space space) (by simp [declares.kind.1])
  have mappedAliased := aliased.later lasting mappedRecord fun vid => mapping _ (by simp)
  have mappedSound := sound.remapped mapping
  have lastingMapped : Lasting space mapped kv' := .of_same fun key inside =>
    (merges.get_mapping inside).trans (collects.get_bystands (bystands_region inside (by simp) (by simp)) fenced)
  have recordMapped := record.trans mappedRecord.symm
  have typeMapped : vidTypeAt space mapped = some vidType := (vidTypeAt_congr mappedRecord).trans type
  -- What a row asserts, before and after its ends are replaced by their representatives.
  have rowNames : ∀ {row : EdgeInsert} {edge : EdgeData}, Inserts space mapped vidType row edge → ∃ src dst,
      Names space kv' (row.src, row.dst) src dst ∧
        edge.srcVid = repAt space mapped src ∧ edge.dstVid = repAt space mapped dst := by
    rintro row edge ⟨src, dst, first, second, source, target, -⟩
    exact ⟨src, dst, Names.lasting ⟨vidType, typeMapped, first, second⟩ lastingMapped recordMapped,
      mappedSound.flat.represents source, mappedSound.flat.represents target⟩
  have countedLeast : Least (repAt space (countedStore env collected (insertedStore space indexes collected mapped puts)))
      (Relates space mapped pairs) := by
    rw [repAt_congr fun vid => collects.get_bystands (bystands_region (region_sameas space vid) (by simp) (by simp)) fenced]
    exact mappedAliased.least
  have mergedLeast := merges.least (collects.sound_counted fenced mappedSound) countedLeast
  have reaches : ∀ {wider : Int → Int → Prop}, (∀ a b, Relates space mapped pairs a b → EqvGen wider a b) → ∀ vid,
      EqvGen wider vid (repAt space mapped vid) :=
    fun within vid => eqvGen_implies within (mappedAliased.least.reaches vid)
  constructor
  · intro pair mem
    rcases mem_append.mp mem with old | new
    · obtain ⟨a, b, names⟩ := mappedAliased.named pair old
      exact ⟨a, b, names.lasting lastingMapped recordMapped⟩
    · obtain ⟨row, listed, -, rfl⟩ := mem_sameasPairs.mp new
      obtain ⟨edge, -, inserts⟩ := exists_of_forall₂_left made listed
      obtain ⟨src, dst, names, -⟩ := rowNames inserts
      exact ⟨src, dst, names⟩
  · refine mergedLeast.congr ?_ ?_
    · have old : ∀ a b, Relates space mapped pairs a b →
          EqvGen (Relates space kv' (pairs ++ rows.filterMap EdgeInsert.sameasPair)) a b := by
        rintro a b ⟨pair, mem, names⟩
        exact .rel _ _ ⟨pair, mem_append_left _ mem, names.lasting lastingMapped recordMapped⟩
      rintro a b (related | ⟨t, mem, sameas, rfl, rfl⟩)
      · exact old a b related
      · obtain ⟨edge, listed, rfl⟩ := mem_map.mp mem
        obtain ⟨row, given, inserts⟩ := exists_of_forall₂ made listed
        obtain ⟨src, dst, names, source, target⟩ := rowNames inserts
        have asserted : EqvGen (Relates space kv' (pairs ++ rows.filterMap EdgeInsert.sameasPair)) src dst := by
          obtain ⟨-, -, -, -, -, -, edgeType, -⟩ := inserts
          have listed := mem_sameasPairs.mpr ⟨row, given, edgeType.symm.trans sameas, rfl⟩
          exact .rel _ _ ⟨_, mem_append_right _ listed, names⟩
        change EqvGen _ edge.srcVid edge.dstVid
        rw [source, target]
        exact .trans _ _ _ (.symm _ _ (reaches old src)) (.trans _ _ _ asserted (reaches old dst))
    · rintro a b ⟨pair, mem, names⟩
      rcases mem_append.mp mem with old | new
      · exact .rel _ _ (.inl ((mappedAliased.relates_iff lastingMapped recordMapped a b).mp ⟨pair, old, names⟩))
      · obtain ⟨row, listed, sameas, rfl⟩ := mem_sameasPairs.mp new
        obtain ⟨edge, given, inserts⟩ := exists_of_forall₂_left made listed
        obtain ⟨src, dst, rowed, source, target⟩ := rowNames inserts
        obtain ⟨rfl, rfl⟩ := names.unique rowed
        obtain ⟨-, -, -, -, -, -, edgeType, -⟩ := inserts
        refine .trans _ _ _ (reaches (fun _ _ related => .rel _ _ (.inl related)) a) (.trans _ _ _ (.rel _ _ (.inr ?_))
          (.symm _ _ (reaches (fun _ _ related => .rel _ _ (.inl related)) b)))
        exact ⟨tripleOf edge, mem_map_of_mem given, edgeType.trans sameas, source.symm, target.symm⟩

section

variable {after : World}

theorem Aliased.committed (committed : Committed env space ctx mutation before after)
    (sound : Sound space before.kv) (aliased : Aliased space pairs before.kv) :
    Aliased space (pairs ++ (Plan.mutate mutation).sameasPairs) after.kv := by
  have record : after.kv.get (.space space) = before.kv.get (.space space) :=
    committed.declares (.inl rfl)
  have later := fun pointers => (append_nil pairs).symm ▸ aliased.later committed.lasting record pointers
  obtain ⟨indexes, tagIndexes, -, -, changes⟩ := committed.changes
  cases changes with
  | insertEdges effect => exact aliased.insertEdges sound record effect
  | insertVertices effect | updateVertex _ effect | delete effect =>
    exact later fun vid => effect.get_aloof (aloof_region (region_sameas space vid) (by simp) (by simp) (by simp))
  | updateEdge _ effect | deleteEdge effect =>
    exact later fun vid => effect.get_bystands (bystands_region (region_sameas space vid) (by simp) (by simp))

theorem Aliased.effect (effect : Effect env space ctx plan before after)
    (healthy : Healthy space before.kv) (aliased : Aliased space pairs before.kv) :
    Aliased space (pairs ++ plan.sameasPairs) after.kv := by
  have redefined : Redefines space before.kv after.kv → Aliased space (pairs ++ []) after.kv := by
    intro redefines
    rw [append_nil]
    exact aliased.later (.of_same fun key inside => redefines.get_counts (.inr (.inr (.inl inside))))
      (redefines.get_counts (.inr (.inr (.inr rfl)))) fun vid => redefines.get_counts (.inl (.inl (by simp)))
  cases plan with
  | mutate mutation => exact aliased.committed effect (healthy.sound.resolve_left effect.unmarked)
  | createEdge | alterEdge | dropEdge => exact redefined effect.2.redefines
  | repairInference => exact redefined (effect.1 ▸ .mark space _)
  | _ => exact effect.elim

theorem Aliased.rebuilt (aliased : Aliased space pairs kv) (keeps : KeepsAssertions space kv kv') :
    Aliased space pairs kv' := by
  have declares : Declares space (.space space) := .inl rfl
  exact aliased.later (.of_same fun key inside => keeps.get_region inside) (keeps.declares declares)
    fun vid => keeps.get_region (region_sameas space vid)

theorem Aliased.unmark (aliased : Aliased space pairs kv) : Aliased space pairs (kv.erase (inferenceDirty space)) := by
  have other : ∀ {key : Key}, key ≠ inferenceDirty space → (kv.erase (inferenceDirty space)).get key = kv.get key :=
    fun apart => by rw [get_erase, if_neg apart]
  refine aliased.later (.of_same fun key inside => other (by rintro rfl; simp at inside)) (other ?_) fun vid => other ?_
  · simp [Key.space, inferenceDirty]
  · simp [sameas, inferenceDirty]

theorem Aliased.progress (progress : Progress space before (Effect env space ctx plan before) after)
    (changed : after.content ≠ before.content) (healthy : Healthy space before.kv)
    (aliased : Aliased space pairs before.kv) : Aliased space (pairs ++ plan.sameasPairs) after.kv := by
  cases progress with
  | waiting content => exact absurd content changed
  | committed effect => exact aliased.effect effect healthy
  | rebuilding effect _ keeps _ => exact (aliased.effect effect healthy).rebuilt keeps
  | settled effect _ built cleared _ =>
    rw [cleared]
    exact ((aliased.effect effect healthy).rebuilt built.keeps).unmark

end

theorem AliasRun.aliased {start reached : World} (run : AliasRun env space start pairs reached)
    (readable : Readable space start.kv) (healthy : Healthy space start.kv)
    (unmerged : ∀ vid, start.kv.get (sameas space vid) = none) : Aliased space pairs reached.kv := by
  induction run with
  | start =>
    refine ⟨by simp, ?_⟩
    have own : repAt space start.kv = fun vid => vid := by
      funext vid
      rw [repAt, unmerged]
    rw [own]
    exact Least.id.congr (fun _ _ impossible => impossible.elim) fun a b related => by
      obtain ⟨pair, mem, -⟩ := related
      cases mem
  | aside _ _ same ih => exact kv_congr same ▸ ih
  | elsewhere _ same _ ih =>
    refine ih.later (.of_same fun key inside => same key ?_) (same _ (.inr (.inl rfl))) fun vid =>
      same _ (concerns_kind (kind_text space "sameas" (.num vid) []))
    obtain ⟨kind, has, -⟩ := region_eq_some inside (by simp)
    exact concerns_kind has
  | committed earlier fuel ctx plan changes scope visited changed ih =>
    have readable' := Runs.readable earlier.runs readable
    exact ih.progress (visited_execute changes scope readable' visited) changed (Runs.healthy readable earlier.runs healthy)

theorem run_followSameas : (followSameas space start (depth + 1) vid).run (handler env) world =
      (match world.kv.get (sameas space vid) with
        | none => pure vid
        | some stored =>
          match decodeInternal stored with
          | none => invalid s!"Corrupt sameAs pointer for vertex {vid}"
          | some rep => if rep = vid then pure vid else followSameas space start depth rep : Exec Int).run (handler env) world :=
  rfl

theorem run_representativeOf (flat : Flat space world.kv) (vid : Int) :
    (representativeOf space vid).run (handler env) world = (.ok (repAt space world.kv vid), world) := by
  have arrives : ∀ {rep : Int} (depth : Nat), world.kv.get (sameas space rep) = none →
      (followSameas space vid (depth + 1) rep).run (handler env) world = (.ok rep, world) := by
    intro rep depth last
    rw [run_followSameas, last]
    rfl
  cases found : world.kv.get (sameas space vid) with
  | none => simpa [repAt, found, representativeOf] using arrives 63 found
  | some value =>
    obtain ⟨rep, rfl, below, last⟩ := flat.pointer vid value found
    rw [representativeOf, run_followSameas, found]
    simp only [decodeInternal, repAt, found]
    rw [if_neg (Int.ne_of_lt below)]
    exact arrives 62 last

theorem run_membersOf (flat : Flat space world.kv) (rep : Int) :
    ∃ members, (membersOf space rep).run (handler env) world = (.ok members, world) ∧
      ∀ vid, vid ∈ members ↔ world.kv.get (sameas space vid) = some (.vid rep) := by
  refine ⟨_, rfl, fun vid => ?_⟩
  rw [← flat.members, mem_filterMap]
  constructor
  · rintro ⟨⟨key, value⟩, mem, last⟩
    obtain ⟨found, covered⟩ := mem_scan.mp mem
    obtain ⟨other, rfl⟩ := flat.listed rep key value found covered
    have same : other = vid := by simpa [sameasMemberFromKey, sameasMember] using last
    rw [← same, found]
    rfl
  · intro listed
    obtain ⟨value, found⟩ := Option.isSome_iff_exists.mp listed
    refine ⟨(sameasMember space rep vid, value), mem_scan.mpr ⟨found, covers_sameasMember⟩, ?_⟩
    simp [sameasMemberFromKey, sameasMember]

/-- What the aliases of a space are, after any run: `representativeOf` answers, with the
least id of each class, the classes are generated by the asserted pairs, pointers
have depth one, and every representative lists the rest of its class. -/
theorem aliases_closure {start reached : World} (readable : Readable space start.kv)
    (healthy : Healthy space start.kv) (unmerged : ∀ vid, start.kv.get (sameas space vid) = none)
    (run : AliasRun env space start pairs reached) :
    (∀ pair ∈ pairs, ∃ a b, Names space reached.kv pair a b) ∧
    (∀ vid value, reached.kv.get (sameas space vid) = some value →
      ∃ rep, value = .vid rep ∧ reached.kv.get (sameas space rep) = none) ∧
    (∃ rep : Int → Int, Least rep (Relates space reached.kv pairs) ∧
      (∀ vid, (representativeOf space vid).run (handler env) reached = (.ok (rep vid), reached)) ∧
      (∀ vid, ∃ members, (membersOf space (rep vid)).run (handler env) reached =
      (.ok members, reached) ∧ ∀ other, other ∈ members ↔ other ≠ rep vid ∧
        EqvGen (Relates space reached.kv pairs) vid other) ∧
      ∀ pairs' reached', AliasRun env space start pairs' reached' →
        (∀ a b, Relates space reached'.kv pairs' a b ↔ Relates space reached.kv pairs a b) → ∀ vid,
        (representativeOf space vid).run (handler env) reached' = (.ok (rep vid), reached')) := by
  have aliased := run.aliased readable healthy unmerged
  have flatAt : ∀ {pairs' : List (Vid × Vid)} {world : World}, AliasRun env space start pairs' world → Flat space world.kv := by
    intro pairs' world other
    obtain ⟨clean, sound, grounds⟩ := (Runs.healthy readable other.runs healthy).grounded
    exact sound.flat.congr fun key inside => grounds.other key (.inl inside)
  have flat := flatAt run
  refine ⟨aliased.named, ?_, repAt space reached.kv, aliased.least, run_representativeOf flat, ?_, ?_⟩
  · intro vid value found
    obtain ⟨rep, shape, -, last⟩ := flat.pointer vid value found
    exact ⟨rep, shape, last⟩
  · intro vid
    obtain ⟨members, ran, listed⟩ := @run_membersOf env space reached flat (repAt space reached.kv vid)
    refine ⟨members, ran, fun other => ?_⟩
    have root := flat.root_repAt vid
    have apart : reached.kv.get (sameas space (repAt space reached.kv vid)) = none := flat.root_iff.mp root
    rw [listed, ← aliased.least.same_iff, eq_comm (a := repAt space reached.kv vid), flat.repAt_eq_iff root]
    constructor
    · intro points
      refine ⟨?_, .inr points⟩
      intro same
      rw [same, apart] at points
      cases points
    · rintro ⟨other, same | points⟩
      · exact absurd same other
      · exact points
  · intro pairs' reached' other same vid
    rw [run_representativeOf (flatAt other)]
    have least := (other.aliased readable healthy unmerged).least
    have relation : Relates space reached'.kv pairs' = Relates space reached.kv pairs := by
      funext a b
      exact propext (same a b)
    rw [relation] at least
    rw [least.unique aliased.least]

def mergedThree : World := after (after freshSpace (insertEdge [sameAs 3 2])) (insertEdge [sameAs 1 2, sameAs 1 2])

theorem aliases_closure_three : ∃ rep, (representativeOf "g" 3).run (handler graphEnv) mergedThree = (.ok rep, mergedThree) ∧
    (representativeOf "g" 1).run (handler graphEnv) mergedThree = (.ok rep, mergedThree) := by
  have fresh : ∀ vid, freshSpace.kv.get (sameas "g" vid) = none :=
    fun vid => get_fresh (kind_text "g" "sameas" (.num vid) [])
  have run : AliasRun graphEnv "g" freshSpace [(.int 3, .int 2), (.int 1, .int 2), (.int 1, .int 2)] mergedThree := by
    refine .committed (.committed .start 10 graphCtx (insertEdge [sameAs 3 2]) rfl rfl (run_mem_visited _ _) ?_) 10 graphCtx
      (insertEdge [sameAs 1 2, sameAs 1 2]) rfl rfl (run_mem_visited _ _) ?_
    · intro same
      have pointer := congrArg (fun content => (content.kv.get (sameas "g" 3)).isSome) same
      revert pointer
      decide +kernel
    · intro same
      have pointer := congrArg (fun content => (content.kv.get (sameas "g" 2)).isSome) same
      revert pointer
      decide +kernel
  obtain ⟨-, -, rep, least, answers, -⟩ := aliases_closure readable_fresh (.of_empty get_fresh) fresh run
  have type : vidTypeAt "g" mergedThree.kv = some .int64 := by decide +kernel
  have first : Relates "g" mergedThree.kv [(.int 3, .int 2), (.int 1, .int 2), (.int 1, .int 2)] 3 2 :=
    ⟨(.int 3, .int 2), by simp, .int64, type, rfl, rfl⟩
  have second : Relates "g" mergedThree.kv [(.int 3, .int 2), (.int 1, .int 2), (.int 1, .int 2)] 1 2 :=
    ⟨(.int 1, .int 2), by simp, .int64, type, rfl, rfl⟩
  refine ⟨rep 3, answers 3, ?_⟩
  rw [least.same (.trans _ _ _ (.rel _ _ first) (.symm _ _ (.rel _ _ second)))]
  exact answers 1

end ByoriDB.Executor
