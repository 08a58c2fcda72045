import ByoriDB.Executor.EdgeRuns
import ByoriDB.Executor.ShortestPath

/-! What a space derives depends on its assertions and its schemas, not on the statements that led to them. -/

namespace ByoriDB.Executor

open List Data Program Store ByoriDB.Graph

variable {env env' : Env} {space : String} {kv kv' : KV} {t : Triple} {rank : Int} {value : Val}
  {start start' reached reached' : World}

/-- The stores declare and assert the same edges. -/
structure SameAssertions (space : String) (kv kv' : KV) : Prop where
  flags : edgeFlags kv' space = edgeFlags kv space
  asserted : ∀ (t : Triple) (rank : Int),
    (kv'.get (t.key space rank)).filter Val.isAsserted = (kv.get (t.key space rank)).filter Val.isAsserted

namespace SameAssertions

variable (same : SameAssertions space kv kv')
include same

theorem symm : SameAssertions space kv' kv := ⟨same.flags.symm, fun t rank => (same.asserted t rank).symm⟩

theorem asserted_eq : Asserted kv' space = Asserted kv space := by
  funext t
  have through : ∀ kv, Asserted kv space t ↔ ∃ rank, ((kv.get (t.key space rank)).filter Val.isAsserted).isSome = true := by
    intro kv
    simp [Asserted, Option.any_eq_true]
  rw [through, through]
  simp only [same.asserted]

theorem get_eq (complete : Complete space kv) (complete' : Complete space kv')
    (found : kv.get (t.key space rank) = some value) : kv'.get (t.key space rank) = some value := by
  by_cases given : Asserted kv space t
  · have kept := same.asserted t rank
    rw [found, Option.filter_some, if_pos (complete.asserted t given rank value found), Option.filter_eq_some_iff] at kept
    exact kept.1
  · -- A derived edge has one entry, which both closures call for.
    obtain ⟨rfl, rfl⟩ := complete.derived t given rank value found
    have derived := (complete.stored t).mp ⟨0, _, found⟩
    rw [← same.flags, ← same.asserted_eq] at derived
    rw [← same.asserted_eq] at given
    obtain ⟨rank, value, stored⟩ := (complete'.stored t).mpr derived
    obtain ⟨rfl, rfl⟩ := complete'.derived t given rank value stored
    exact stored

end SameAssertions

/-- Two runs that end with the same assertions and schemas have derived the same edges and types, whatever
the order of their statements and wherever they were cut off and repaired. -/
theorem derived_determined (readable : Readable space start.kv) (guarded : Guarded space start.kv)
    (runs : Runs env space start reached) (clean : ¬ Dirty space reached.kv)
    (readable' : Readable space start'.kv) (guarded' : Guarded space start'.kv)
    (runs' : Runs env' space start' reached') (clean' : ¬ Dirty space reached'.kv)
    (same : SameAssertions space reached.kv reached'.kv) : (∀ (t : Triple) (rank : Int),
      reached'.kv.get (t.key space rank) = reached.kv.get (t.key space rank)) ∧
    ∀ vid className, (reached'.kv.get (vtype space vid className)).isSome =
      (reached.kv.get (vtype space vid className)).isSome := by
  have complete := (Runs.keeps kept_guarded local_guarded readable runs guarded).resolve_left clean
  have complete' := (Runs.keeps kept_guarded local_guarded readable' runs' guarded').resolve_left clean'
  constructor
  · intro t rank
    apply Option.ext
    intro value
    exact ⟨same.symm.get_eq complete' complete, same.get_eq complete complete'⟩
  · intro vid className
    apply Bool.eq_iff_iff.mpr
    rw [complete'.types, complete.types, same.flags, same.asserted_eq]

/-- Whether two values are the same schema, or the same edge without properties. -/
def sameRecord : Val → Val → Bool
  | .edgeSchema schema, .edgeSchema other => schema = other
  | .edge edge, .edge other => edge.properties.toList.isEmpty && other.properties.toList.isEmpty &&
      (tripleOf edge, edge.ranking) = (tripleOf other, other.ranking)
  | _, _ => false

theorem empty_of_isEmpty {props : Props} (none : props.toList.isEmpty = true) : props = .empty := by
  apply Table.ext
  intro name
  apply Option.eq_none_iff_forall_ne_some.mpr
  intro value found
  have listed := mem_toList.mpr found
  rw [isEmpty_iff.mp none] at listed
  cases listed

theorem eq_of_sameRecord {left right : Val} (same : sameRecord left right = true) : left = right := by
  unfold sameRecord at same
  split at same
  · rw [of_decide_eq_true same]
  · rename_i edge other
    simp only [Bool.and_eq_true, decide_eq_true_eq, tripleOf, Prod.mk.injEq, Triple.mk.injEq] at same
    obtain ⟨⟨bare, bare'⟩, ⟨src, type, dst⟩, rank⟩ := same
    have props := (empty_of_isEmpty bare).trans (empty_of_isEmpty bare').symm
    cases edge
    cases other
    simp_all
  · cases same

/-- The edge types and the asserted edges of the one store stand in the other. -/
def declaredIn (kv kv' : KV) : Bool :=
  kv.toList.all fun entry => !(entry.2.isAsserted || entry.2 matches .edgeSchema _) || (kv'.get entry.1).any (sameRecord entry.2)

theorem SameAssertions.of_declared (forth : declaredIn kv kv' = true)
    (back : declaredIn kv' kv = true) : SameAssertions space kv kv' := by
  have stands : ∀ {kv kv' : KV} {key value}, declaredIn kv kv' = true → kv.get key = some value →
      (value.isAsserted || value matches .edgeSchema _) = true → kv'.get key = some value := by
    intro kv kv' key value declared found counts
    have checked := all_eq_true.mp declared _ (mem_toList.mpr found)
    rw [counts, Bool.not_true, Bool.false_or, Option.any_eq_true] at checked
    obtain ⟨other, found', same⟩ := checked
    rwa [← eq_of_sameRecord same] at found'
  constructor
  · funext name
    have schema : ∀ schema, kv'.get (.edge space name) = some (.edgeSchema schema) ↔
      kv.get (.edge space name) = some (.edgeSchema schema) :=
      fun _ => ⟨fun found => stands back found rfl, fun found => stands forth found rfl⟩
    clear stands
    unfold edgeFlags
    split <;> split <;> simp_all
  · intro t rank
    apply Option.ext
    intro value
    rw [Option.filter_eq_some_iff, Option.filter_eq_some_iff]
    exact ⟨fun found => ⟨stands back found.1 (by rw [found.2]; rfl), found.2⟩,
      fun found => ⟨stands forth found.1 (by rw [found.2]; rfl), found.2⟩⟩

theorem clean_ancestry : ¬ Dirty "g" ancestry.kv := by
  unfold Dirty
  decide +kernel

/-- The edges are entered in the other order, and the one that follows from them was asserted for a while. -/
def ancestryAgain : World :=
  [createAncestor, insertEdge [ancestor 2 3, ancestor 1 3], .mutate (.deleteEdge ⟨"g", "anc", [(.int 1, .int 3, 0)]⟩),
    insertEdge [ancestor 1 2, ancestor 1 2]].foldl after freshSpace

theorem derived_determined_ancestry : (ancestryAgain.kv.get (edgeData "g" 1 "anc" 3 0)).any Val.isInferred = true ∧
    ∀ (t : Triple) (rank : Int), ancestryAgain.kv.get (t.key "g" rank) = ancestry.kv.get (t.key "g" rank) := by
  have again : Runs graphEnv "g" freshSpace ancestryAgain := runs_foldl_after _ (by decide) .refl
  have clean : ¬ Dirty "g" ancestryAgain.kv := by
    unfold Dirty
    decide +kernel
  exact ⟨by decide +kernel, (derived_determined readable_fresh guarded_fresh runs_ancestry clean_ancestry
    readable_fresh guarded_fresh again clean (.of_declared (by decide +kernel) (by decide +kernel))).1⟩

/-- An edge that follows from the asserted ones leads from one vertex to the other. -/
def PathQuery.Entails (query : PathQuery) (space : String) (kv : KV) (u v : Int) : Prop :=
  ∃ t, (entailment (edgeFlags kv space)).Closure (Asserted kv space) t ∧ (query.edgeTypes = [] ∨ t.p ∈ query.edgeTypes) ∧
    (t.s = u ∧ t.d = v ∨ query.bidirect = true ∧ t.d = u ∧ t.s = v)

theorem step_eq_entails (legible : Legible space kv) (complete : Complete space kv)
    (query : PathQuery) : query.step space kv = query.Entails space kv := by
  funext u v
  have leads : ∀ edge, Leads edge u v (expansion query.bidirect) ↔
      (edge.srcVid = u ∧ edge.dstVid = v ∨ query.bidirect = true ∧ edge.dstVid = u ∧ edge.srcVid = v) := by
    intro edge
    cases query.bidirect <;> simp [expansion, Leads]
  apply propext
  constructor
  · intro allows
    obtain ⟨edge, found, typed, passes⟩ := allows
    exact ⟨tripleOf edge, (complete.stored _).mp ⟨edge.ranking, _, found⟩, typed, (leads edge).mp passes⟩
  · intro entails
    obtain ⟨t, derived, typed, passes⟩ := entails
    obtain ⟨rank, value, found⟩ := (complete.stored t).mpr derived
    obtain ⟨edge, rfl, rfl, rfl, -⟩ := legible.triple found
    exact ⟨edge, found, typed, (leads edge).mpr passes⟩

/-- Whatever statements, failures and restarts have left behind: a path query is refused, or it is answered as if
all that follows from the asserted edges were searched. -/
theorem shortestPath_entailed (readable : Readable space start.kv)
    (guarded : Guarded space start.kv) (runs : Runs env space start reached)
    (legible : Legible space reached.kv) {ctx : Ctx} (selected : ctx.space = some space)
    (query : PathQuery) {fuel : Nat} (enough : 2 * reached.kv.toList.length < fuel) :
    (Dirty space reached.kv → ∀ layout fuel kind answer,
      (execute layout fuel ctx (.query kind answer)).run (handler env) reached =
      (.error (.invalidOperation (incompleteMessage space)), reached)) ∧
    (¬ Dirty space reached.kv → (shortestPath fuel ctx query).Answers (handler env) reached
      (Exceeds ctx.maxTraversalNodes traversalExceeded) fun answer =>
      AnswersPath query (query.Entails space reached.kv) answer.1) := by
  constructor
  · intro marked layout fuel kind answer
    have scope : inferenceScope ctx (.query kind answer) = some (space, false) := by
      simp [inferenceScope, Plan.access, selected]
    exact execute_refused scope rfl marked
  · intro clean
    have complete := (Runs.keeps kept_guarded local_guarded readable runs guarded).resolve_left clean
    rw [← step_eq_entails legible complete, shortestPath, show traversalSpace ctx = space by simp [traversalSpace, selected]]
    split
    · rename_i same
      exact answers_pure (IsShortest.answers ⟨by simp [same], by simp, fun other walk => walk.length_pos⟩)
    · rename_i other
      apply answers_searchPath legible (fun v w allows => allows.mem_edgeEnds.2)
        ⟨.init _ _ (by simp), .init _ _, by simpa using Ne.symm other⟩
      have ends := length_edgeEnds reached.kv
      have new := length_filter_le (fun vid => !(List.contains [query.start] vid)) (edgeEnds reached.kv)
      simp only [PathSearch.left, length_singleton]
      omega

theorem shortestPath_entailed_ancestry :
    (shortestPath 40 graphCtx ⟨1, 3, ["anc"], 1, false⟩).Answers (handler graphEnv) ancestry
    (Exceeds graphCtx.maxTraversalNodes traversalExceeded) fun answer => AnswersPath ⟨1, 3, ["anc"],
      1, false⟩ (PathQuery.Entails ⟨1, 3, ["anc"], 1, false⟩ "g" ancestry.kv) answer.1 := by
  have mirrored := Runs.keeps kept_mirrored local_mirrored readable_fresh runs_ancestry (.inr mirrored_fresh)
  have legible := Legible.mk (decodes_of_entries (by decide +kernel)) (mirrored.resolve_left clean_ancestry)
  have enough : 2 * ancestry.kv.toList.length < 40 := by decide +kernel
  exact (shortestPath_entailed readable_fresh guarded_fresh runs_ancestry legible rfl _ enough).2 clean_ancestry

/-- One step is enough, over the edge that was derived. -/
example : ((shortestPath 40 graphCtx ⟨1, 3, ["anc"], 1, false⟩).run (handler graphEnv) ancestry).1.toOption.map Prod.fst =
    some (some [1, 3]) := by
  decide +kernel

end ByoriDB.Executor
