import ByoriDB.Executor.Execution

namespace ByoriDB.Executor

open Data Program Store ByoriDB.Graph
open SchemaKey (edge)

/-- The keys of a space's data, its edge types and its record. -/
def Concerns (space : String) (key : Key) : Prop :=
  (∃ rest, key = .text (.word space :: rest)) ∨ key = SchemaKey.space space ∨ ∃ name, key = edge space name

/-- One step of a run whose statements meet a condition where they start. -/
inductive RunStep (env : Env) (space : String) (meets : World → Plan → Prop) (world : World) : World → Prop where
  | statement {reached : World} (fuel : Nat) (ctx : Ctx) (plan : Plan) (changes : plan.changesGraph = true)
      (scope : inferenceScope ctx plan = some (space, true)) (met : meets world plan)
      (visited : reached ∈ (execute env.toLayout fuel ctx plan).visited (handler env) world) :
      RunStep env space meets world reached
  | restart : RunStep env space meets world { world with lastTx := 0 }
  | elsewhere {other : World} (same : ∀ key, Concerns space key → other.kv.get key = world.kv.get key)
      (readable : Readable space world.kv → Readable space other.kv) : RunStep env space meets world other

abbrev MeetingRuns (env : Env) (space : String) (meets : World → Plan → Prop) : World → World → Prop :=
  Relation.ReflTransGen (RunStep env space meets)

abbrev Runs (env : Env) (space : String) : World → World → Prop := MeetingRuns env space fun _ _ => True

variable {env : Env} {space : String} {start reached : World}

theorem RunStep.of_run (changes : plan.changesGraph = true) (scope : inferenceScope ctx plan = some (space, true))
    (ran : (execute env.toLayout fuel ctx plan).run (handler env) start = (result, reached)) :
    RunStep env space (fun _ _ => True) start reached := by
  refine .statement fuel ctx plan changes scope trivial ?_
  have last : ((execute env.toLayout fuel ctx plan).run (handler env) start).2 ∈ _ := run_mem_visited _ start
  rwa [ran] at last

/-- What a statement leaves of the current view of its space, while it is under way
and in the end. -/
structure Kept (env : Env) (space : String) (inv : KV → Prop) : Prop where
  commits : ∀ {ctx mutation before after}, Committed env space ctx mutation before after → inv before.kv → inv after.kv
  redefines : ∀ {kv kv'}, Redefines space kv kv' → inv kv → inv kv'
  rebuilds : ∀ {kv kv'}, Dirty space kv → KeepsAssertions space kv kv' → inv kv → inv kv'
  settles : ∀ {kv kv'}, Materialized space kv kv' → inv kv → inv (kv'.erase (inferenceDirty space))

/-- What depends on the space's own keys only. -/
def Local (space : String) (inv : KV → Prop) : Prop :=
  ∀ {kv kv'}, (∀ key, Concerns space key → kv'.get key = kv.get key) → inv kv → inv kv'

theorem Redefines.mark (space : String) (kv : KV) : Redefines space kv (kv.insert (inferenceDirty space) .one) where
  frame key other _ := by rw [get_insert, if_neg other]
  kept _ := by simp [Dirty]
  marked := .inl (by simp [Dirty])

section

variable (kept : Kept env space inv)
include kept

theorem Kept.effect (effect : Effect env space ctx plan before after) (holds : inv before.kv) : inv after.kv := by
  cases plan with
  | mutate mutation => exact kept.commits effect holds
  | createEdge | alterEdge | dropEdge => exact kept.redefines effect.2.redefines holds
  | repairInference =>
    rw [effect.1]
    exact kept.redefines (.mark space _) holds
  | _ => exact effect.elim

theorem Kept.progress (progress : Progress space before (Effect env space ctx plan before) after)
    (holds : inv before.kv) : inv after.kv := by
  cases progress with
  | waiting content => exact kv_congr content ▸ holds
  | committed effect => exact kept.effect effect holds
  | rebuilding effect marked keeps _ => exact kept.rebuilds marked keeps (kept.effect effect holds)
  | settled effect _ built cleared _ =>
    rw [cleared]
    exact kept.settles built (kept.effect effect holds)

end

theorem Committed.keeps (inv : World → Prop)
    (committed : Committed env space ctx mutation before after)
    (keeps : ∀ world op, Mutates env space (termsAt env space before) world op →
      inv world → inv (handler env op world).2) (holds : inv before) : inv after := by
  have steps := committed.steps
  clear committed
  induction steps with
  | refl => exact holds
  | tail _ step ih =>
    obtain ⟨op, mutates, rfl⟩ := step
    exact keeps _ op mutates ih

theorem Readable.congr {kv kv' : KV} (readable : Readable space kv)
    (same : ∀ key, Declares space key → kv'.get key = kv.get key) : Readable space kv' where
  record value found := readable.record value (same _ (.inl rfl) ▸ found)
  indexes spaceId key value covered found :=
    readable.indexes spaceId key value covered (same key (.inr (covers_indexDefs covered)) ▸ found)

theorem Declares.not_marker (declares : Declares space key) : key ≠ inferenceDirty space := by
  rintro rfl
  exact declares.apart.1 touches_dirty

theorem Declares.not_edge (declares : Declares space key) (name : String) : key ≠ edge space name := by
  rintro rfl
  rcases declares with same | covered
  · simp [edge, Key.space] at same
  · obtain ⟨rest, -, same⟩ := covers_text.mp covered
    simp [edge] at same

theorem KeepsAssertions.declares (keeps : KeepsAssertions space kv kv')
    (declares : Declares space key) : kv'.get key = kv.get key := by
  refine keeps.other key ?_ ?_ <;> rcases declares.kind.2 with kind | kind <;> simp [kind, derivedKinds]

theorem kept_declares {key : Key} (declares : Declares space key) : Kept env space fun kv => kv.get key = value where
  commits committed := committed.keeps (fun world => world.kv.get key = value)
    fun _ _ mutates same => (mutates.declares declares).trans same
  redefines redefines same := (redefines.frame key declares.not_marker declares.not_edge).trans same
  rebuilds _ keeps same := (keeps.declares declares).trans same
  settles built same := by
    rw [get_erase, if_neg declares.not_marker]
    exact (built.keeps.declares declares).trans same

theorem Progress.declares (progress : Progress space before (Effect env space ctx plan before) after)
    (declares : Declares space key) : after.kv.get key = before.kv.get key :=
  (kept_declares declares).progress progress rfl

theorem RunStep.readable (step : RunStep env space meets start reached)
    (readable : Readable space start.kv) : Readable space reached.kv := by
  cases step with
  | statement fuel ctx plan changes scope _ visited =>
    exact readable.congr fun key declares => (visited_execute changes scope readable visited).declares declares
  | restart => exact readable
  | elsewhere _ kept => exact kept readable

theorem Runs.readable (runs : Runs env space start reached) (readable : Readable space start.kv) :
    Readable space reached.kv := by
  induction runs with
  | refl => exact readable
  | tail _ step ih => exact step.readable ih

theorem Runs.keeps (kept : Kept env space inv) (own : Local space inv) (readable : Readable space start.kv)
    (runs : Runs env space start reached) (holds : inv start.kv) : inv reached.kv := by
  induction runs with
  | refl => exact holds
  | @tail middle _ earlier step ih =>
    cases step with
    | statement fuel ctx plan changes scope _ visited =>
      exact kept.progress (visited_execute changes scope (Runs.readable earlier readable) visited) ih
    | restart => exact ih
    | elsewhere same _ => exact own same ih

theorem MeetingRuns.runs (run : MeetingRuns env space meets start reached) : Runs env space start reached := by
  refine Relation.ReflTransGen.mono (fun _ _ step => ?_) _ _ run
  cases step with
  | statement fuel ctx plan changes scope _ visited => exact .statement fuel ctx plan changes scope trivial visited
  | restart => exact .restart
  | elsewhere same readable => exact .elsewhere same readable

theorem concerns_triple (space : String) (t : Triple) (rank : Int) : Concerns space (t.key space rank) := .inl ⟨_, rfl⟩

theorem concerns_kind (has : key.kind space = some kind) : Concerns space key := by
  obtain ⟨third, rest, rfl⟩ := kind_eq_some has
  exact .inl ⟨_, rfl⟩

theorem SameGraph.of_concerns {kv kv' : KV}
    (same : ∀ key, Concerns space key → kv'.get key = kv.get key) : SameGraph space kv kv' where
  edges t rank := same _ (concerns_triple space t rank)
  types vid className := same _ (concerns_kind kind_vtype)
  flags := by
    funext name
    rw [edgeFlags, edgeFlags, same _ (.inr (.inr ⟨name, rfl⟩))]

theorem Redefines.get_eq (redefines : Redefines space kv kv') (has : key.kind space = some kind)
    (marker : kind ≠ "inference") (schema : kind ≠ "space") : kv'.get key = kv.get key := by
  refine redefines.frame key ?_ ?_
  · rintro rfl
    rw [kind_inferenceDirty, Option.some.injEq] at has
    exact marker has.symm
  · rintro name rfl
    rw [kind_edgeSchema] at has
    split at has
    · rename_i word
      rw [Option.some.injEq] at has
      exact schema (has.symm.trans word.symm)
    · cases has

theorem Redefines.sameGraph {kv kv' : KV} (redefines : Redefines space kv kv')
    (flags : edgeFlags kv' space = edgeFlags kv space) : SameGraph space kv kv' where
  edges t rank := redefines.get_eq (t.kind_key space rank) (by simp) (by simp)
  types vid className := redefines.get_eq kind_vtype (by simp) (by simp)
  flags := flags

theorem Materialized.complete (built : Materialized space kv kv') : Complete space kv' := by
  have asserted : Asserted kv' space = Asserted kv space := funext fun t => propext (built.keeps.asserted_iff t)
  have flags := built.keeps.edgeFlags_eq
  constructor
  · intro t
    rw [flags, asserted]
    exact built.stored_iff t
  · intro t unasserted rank value found
    rw [asserted] at unasserted
    rcases (built.forward t rank value).mp found with old | new
    · exact absurd ⟨rank, value, old⟩ unasserted
    · exact new.2.2
  · intro t holds rank value found
    rw [asserted] at holds
    rcases (built.forward t rank value).mp found with old | new
    · exact old.2
    · exact absurd holds new.2.1
  · intro vid className
    rw [flags, asserted]
    exact built.types vid className

theorem SameGraph.unmark (space : String) (kv : KV) : SameGraph space kv (kv.erase (inferenceDirty space)) := by
  have other : ∀ {key : Key}, key ≠ inferenceDirty space → (kv.erase (inferenceDirty space)).get key = kv.get key :=
    fun apart => by rw [get_erase, if_neg apart]
  constructor
  · intro t rank
    exact other fun same => by simpa using congrArg (Key.kind space) same
  · intro vid className
    exact other fun same => by simpa using congrArg (Key.kind space) same
  · funext name
    rw [edgeFlags, edgeFlags, other]
    simp [edge, inferenceDirty]

theorem kept_guarded : Kept env space (Guarded space) where
  commits committed guarded :=
    committed.keeps (fun world => Guarded space world.kv) (fun _ _ mutates holds => mutates.guarded guarded holds) guarded
  redefines redefines guarded := by
    rcases redefines.marked with marked | flags
    · exact .inl marked
    · exact guarded.imp redefines.kept (redefines.sameGraph flags).complete
  rebuilds marked keeps _ := .inl ((dirty_of_keeps keeps).mpr marked)
  settles built _ := .inr ((SameGraph.unmark space _).complete built.complete)

theorem dirty_congr (same : ∀ key, Concerns space key → kv'.get key = kv.get key) :
    Dirty space kv' ↔ Dirty space kv := by
  rw [Dirty, Dirty, same _ (concerns_kind (kind_inferenceDirty space))]

theorem local_guarded : Local space (Guarded space) :=
  fun same => Or.imp (dirty_congr same).mpr (SameGraph.of_concerns same).complete

theorem execute_refused (scope : inferenceScope ctx plan = some (space, mutates))
    (guarded : plan.isRecovery = false) (marked : Dirty space world.kv) :
    (execute layout fuel ctx plan).run (handler env) world =
      (.error (.invalidOperation (incompleteMessage space)), world) := by
  have refused : (ensureInferenceClean space).run (handler env) world =
      (.error (.invalidOperation (incompleteMessage space)), world) := by
    have branch : (ensureInferenceClean space).run (handler env) world =
        (if (world.kv.get (inferenceDirty space)).isSome = true then invalid (incompleteMessage space)
          else pure () : Exec Unit).run (handler env) world := rfl
    unfold Dirty at marked
    rw [branch, if_pos marked]
    rfl
  rw [execute, scope]
  dsimp only
  rw [gate, guarded, if_neg (by simp), Prog.run_bind, refused]

/-- Wherever a run on a space may be cut off, its derived facts are the closure of
its assertions, or its marker is present and everything but the recovery is refused. -/
theorem runs_recoverable (readable : Readable space start.kv) (guarded : Guarded space start.kv)
    (runs : Runs env space start reached) :
    (¬ Dirty space reached.kv → Complete space reached.kv) ∧
    (Dirty space reached.kv → ∀ layout fuel ctx plan mutates, inferenceScope ctx plan = some (space, mutates) →
      plan.isRecovery = false → (execute layout fuel ctx plan).run (handler env) reached =
        (.error (.invalidOperation (incompleteMessage space)), reached)) := by
  have holds := Runs.keeps kept_guarded local_guarded readable runs guarded
  refine ⟨fun unmarked => holds.resolve_left unmarked, ?_⟩
  intro marked layout fuel ctx plan mutates scope ordinary
  exact execute_refused scope ordinary marked

theorem Readable.of_unindexed {kv : KV} {record : SpaceRecord}
    (found : kv.get (.space space) = some (.space record)) (small : record.id < 4294967296)
    (unindexed : ∀ entry ∈ kv.toList, indexDefsPrefix.covers entry.1 = false) :
    Readable space kv where
  record value stored := by
    rw [found, Option.some.injEq] at stored
    exact ⟨record, stored.symm, small⟩
  indexes spaceId key value covered stored := by
    have none := unindexed (key, value) (mem_toList.mpr stored)
    rw [covers_indexDefs covered] at none
    cases none

/-- The chain, left behind by a rebuild that was cut off. -/
def brokenChain : World :=
  { chainWorld with
    content := { chainWorld.content with
      kv := chainWorld.kv.putAll [(SchemaKey.space "g", .space ⟨1, "g", .int64⟩), (inferenceDirty "g", .one)] } }

/-- The clock stands still. -/
def graphEnv : Env := ⟨recordLayout, fun _ => 0⟩

def repairedChain : World :=
  ((execute recordLayout 10 graphCtx .repairInference).run (handler graphEnv) brokenChain).2

theorem runs_recoverable_chain : ¬ Dirty "g" repairedChain.kv ∧ Complete "g" repairedChain.kv := by
  have readable : Readable "g" brokenChain.kv :=
    .of_unindexed (by rfl) (by decide) (by decide +kernel)
  have marked : Dirty "g" brokenChain.kv := by
    unfold Dirty
    decide +kernel
  have repaired : ¬ Dirty "g" repairedChain.kv := by
    unfold Dirty
    decide +kernel
  have step : RunStep graphEnv "g" (fun _ _ => True) brokenChain repairedChain :=
    .statement 10 graphCtx .repairInference rfl (by rfl) trivial (run_mem_visited _ _)
  exact ⟨repaired, (runs_recoverable readable (.inl marked) (.single step)).1 repaired⟩

def dated : List PropertyDef := [⟨"since", some "Int64", true⟩, ⟨"until", some "Int64", true⟩]

/-- A space that declares two edge types. -/
def freshSpace : World where
  content := ⟨Table.ofList [
    (SchemaKey.space "g", .space ⟨1, "g", .int64⟩),
    (edge "g" "knows", .edgeSchema ⟨"knows", dated, {}, none⟩),
    (edge "g" sameasEdge, .edgeSchema ⟨sameasEdge, dated, {}, none⟩)], .empty⟩
  lastTx := 0
  readings := 0

theorem readable_fresh : Readable "g" freshSpace.kv := .of_unindexed (by rfl) (by decide) (by decide +kernel)

theorem get_fresh (has : key.kind "g" = some kind) : freshSpace.kv.get key = none := by
  obtain ⟨third, rest, rfl⟩ := kind_eq_some has
  simp [freshSpace, Key.space, edge, lastPut]

theorem edgeFlags_fresh : edgeFlags freshSpace.kv "g" name = {} := by
  by_cases first : name = "knows"
  · subst first
    rfl
  · by_cases second : name = sameasEdge
    · subst second
      rfl
    · simp [edgeFlags, freshSpace, edge, Key.space, lastPut, first, second]

theorem guarded_fresh : Guarded "g" freshSpace.kv := by
  refine .inr (Underived.complete ⟨⟨?_, ?_, ?_⟩, ?_, fun vid className => get_fresh kind_vtype⟩)
  · simp [entailment, edgeFlags_fresh]
  · simp [entailment, edgeFlags_fresh]
  · simp [typing, edgeFlags_fresh]
  · intro t rank value found
    cases found

def knows (src dst : Int) : EdgeInsert := ⟨.int src, .int dst, "knows", 0, .empty⟩

def sameAs (src dst : Int) : EdgeInsert := ⟨.int src, .int dst, sameasEdge, 0, .empty⟩

def insertEdge (edges : List EdgeInsert) : Plan := .mutate (.insert (.edge "g" edges))

def after (world : World) (plan : Plan) : World :=
  ((execute recordLayout 10 graphCtx plan).run (handler graphEnv) world).2

theorem ran_after {world : World} {plan : Plan}
    (succeeds : ((execute recordLayout 10 graphCtx plan).run (handler graphEnv) world).1.isOk = true) :
    ∃ response, (execute recordLayout 10 graphCtx plan).run (handler graphEnv) world = (.ok response, after world plan) :=
  ran_of_isOk succeeds

theorem runs_after (plan : Plan) (changes : plan.changesGraph = true)
    (scope : inferenceScope graphCtx plan = some ("g", true))
    (runs : Runs graphEnv "g" start world) : Runs graphEnv "g" start (after world plan) :=
  runs.tail (.statement 10 graphCtx plan changes scope trivial (run_mem_visited _ _))

theorem runs_foldl_after (plans : List Plan)
    (each : ∀ plan ∈ plans, plan.changesGraph = true ∧ inferenceScope graphCtx plan = some ("g", true))
    (runs : Runs graphEnv "g" start world) : Runs graphEnv "g" start (plans.foldl after world) := by
  induction plans generalizing world with
  | nil => exact runs
  | cons plan rest ih =>
    rw [List.forall_mem_cons] at each
    exact ih each.2 (runs_after plan each.1.1 each.1.2 runs)

def createAncestor : Plan := .createEdge ⟨"anc", false, [], { transitive := true }⟩

def ancestor (src dst : Int) : EdgeInsert := ⟨.int src, .int dst, "anc", 0, .empty⟩

/-- The edge from `1` to `3` is derived. -/
def ancestry : World :=
  [createAncestor, insertEdge [ancestor 1 2], insertEdge [ancestor 2 3]].foldl after freshSpace

theorem runs_ancestry : Runs graphEnv "g" freshSpace ancestry := runs_foldl_after _ (by decide) .refl

end ByoriDB.Executor
