import ByoriDB.Executor.MatchJoins

namespace ByoriDB.Executor

open List Data Program
open Prog (Answers Returns)
open Store ByoriDB.Graph

variable {env : Env} {world : World} {space : String} {vidType : SpaceVidType} {ctx : QueryCtx}

/-- All edges have length one, and properties are compared with literals. -/
structure FixedPattern (flat : FlatPattern) : Prop where
  start : flat.start.isLiteral
  hops : ∀ hop ∈ flat.hops, hop.1.range = none ∧
    (∀ prop ∈ hop.1.props, (expressionAsValue prop.2).isSome = true) ∧ hop.2.isLiteral

/-- The labels are spelled like the tags they match. -/
def Spelled (space : String) (kv : KV) (node : NodePattern) : Prop :=
  ∀ label ∈ node.labels, ∀ vid tag, HasTag space kv vid tag → eqIgnoreAsciiCase label tag = true → tag = label

/-- Every vertex that fits is read, where labels are spelled like the tags and there
are no indexes. -/
theorem NodeFits.selects (spelled : Spelled space kv node) (unindexed : tagIndexesOf env ctx.toCtx kv = [])
    (fits : NodeFits space kv node vid) : Selects env ctx.toCtx space kv node vid := by
  intro simple label first
  refine ⟨fun _ _ => ?_, fun _ plan picked => ?_⟩
  · obtain ⟨vertex, found, admitted, -⟩ := fits
    obtain ⟨others, labels⟩ := List.head?_eq_some_iff.mp first
    have carried : (vertex.tags.any fun tag => eqIgnoreAsciiCase label tag.name) = true := by
      simp only [NodePattern.admitsTags, labels, isEmpty_cons, Bool.false_or] at admitted
      cases mode : node.labelMatch with
      | all =>
        simp only [mode, all_cons, Bool.and_eq_true] at admitted
        exact admitted.1
      | any =>
        have alone : others = [] := by
          simp only [NodePattern.isUnion, labels, mode, length_cons, BEq.rfl, Bool.and_true, decide_eq_false_iff_not] at simple
          exact eq_nil_of_length_eq_zero (by omega)
        simpa [mode, alone] using admitted
    obtain ⟨tag, listed, alike⟩ := any_eq_true.mp carried
    have has : HasTag space kv vid tag.name := ⟨vertex, found, mem_map_of_mem listed⟩
    exact spelled label (by simp [labels]) vid tag.name has alike ▸ has
  · simp [chosenIndex, unindexed, pickIndexPlan] at picked

def KindClash (flats : List FlatPattern) (reason : ExecutionError) : Prop :=
  ∃ name, (∃ flat ∈ flats, name ∈ flat.nodeVariables) ∧
    (∃ flat ∈ flats, name ∈ flat.edgeVariables) ∧ reason = bindingKindError name

/-- A start without a variable is bound under the name of no variable. -/
def Distinguished (reached : FlatPattern → Prop) (flats : List FlatPattern) : Prop :=
  (∃ flat ∈ flats, flat.start.variableName = none ∧ reached flat) → ∀ flat ∈ flats, anonymousStart ∉ flat.variables

/-- The start of a pattern is bound: those before it are satisfied, and a vertex fits. -/
def StartReached (space : String) (kv : KV) (flats : List FlatPattern) (flat : FlatPattern) : Prop :=
  ∃ done trails vid, done ++ [flat] <+: flats ∧ Satisfies space kv done trails ∧ NodeFits space kv flat.start vid

section

/-- The names of vertices, with that of the starts without a variable. -/
def vertexNamesOf (space : String) (kv : KV) (flats : List FlatPattern) (name : String) : Prop :=
  (∃ flat ∈ flats, name ∈ flat.nodeVariables) ∨
    (name = anonymousStart ∧ ∃ flat ∈ flats, flat.start.variableName = none ∧ StartReached space kv flats flat)

def edgeNamesOf (flats : List FlatPattern) (name : String) : Prop := ∃ flat ∈ flats, name ∈ flat.edgeVariables

abbrev variablesOf (flats : List FlatPattern) (name : String) : Prop := ∃ flat ∈ flats, name ∈ flat.variables

theorem Satisfies.left {done rest : List FlatPattern} (satisfies : Satisfies space kv (done ++ rest) trails) :
    ∃ before, Satisfies space kv done before := by
  have early : Forall₂ (Fits space kv) done (trails.take done.length) := by
    have whole := forall₂_take done.length satisfies.fits
    rwa [take_left] at whole
  have split : namingOf (done ++ rest) trails = namingOf done (trails.take done.length) ++
    namingOf rest (trails.drop done.length) := by
    rw [namingOf, namingOf, namingOf, ← flatten_append, ← zipWith_append early.length_eq, take_append_drop]
  have coherent := satisfies.coherent
  rw [split] at coherent
  exact ⟨_, early, fun name left right one other => coherent name left right (mem_append_left _ one) (mem_append_left _ other)⟩

section

variable {flats : List FlatPattern} (distinguished : Distinguished (StartReached space kv flats) flats)

include distinguished

theorem Distinguished.mixed (name : String) (vertex : vertexNamesOf space kv flats name)
    (edge : edgeNamesOf flats name) : KindClash flats (bindingKindError name) := by
  rcases vertex with vertex | ⟨rfl, unnamed⟩
  · exact ⟨name, vertex, edge, rfl⟩
  · obtain ⟨flat, listed, named⟩ := edge
    exact (distinguished unnamed flat listed (mem_append_right _ named)).elim

/-- Behind patterns that are satisfied, no start is mistaken for a variable. -/
theorem Distinguished.next (satisfies : Satisfies space kv done trails)
    (inside : done ++ [flat] <+: flats) : Separates space kv (variablesOf flats) flat where
  listed _ named := ⟨flat, inside.subset (by simp), named⟩
  apart vid fits unnamed := fun ⟨other, among, named⟩ =>
    distinguished ⟨flat, inside.subset (by simp), unnamed, done, trails, vid, inside, satisfies, fits⟩ other among named

theorem Distinguished.names (satisfies : Satisfies space kv done trails) (inside : done <+: flats) :
    ∀ flat ∈ done, Separates space kv (variablesOf flats) flat := by
  intro flat listed
  obtain ⟨front, back, rfl⟩ := append_of_mem listed
  obtain ⟨before, early⟩ := satisfies.left
  refine distinguished.next early (IsPrefix.trans ⟨back, by simp⟩ inside)

theorem Distinguished.satisfies (joined : Joined space kv done trails row)
    (inside : done <+: flats) : Satisfies space kv done trails ∧ RowOf done trails row := by
  induction done using reverseRecOn generalizing trails row with
  | nil =>
    have none : ∀ flat ∈ ([] : List FlatPattern), Separates space kv (variablesOf flats) flat := by simp
    exact joined.satisfies none
  | append_singleton done flat ih =>
    obtain ⟨before, trail, next, rfl, early, matched⟩ := joined_append.mp joined
    have earlier := (ih early ((prefix_append _ _).trans inside)).1
    have own : ∀ other ∈ done ++ [flat], Separates space kv (variablesOf flats) other := by
      intro other listed
      rcases mem_append.mp listed with before | last
      · exact distinguished.names earlier ((prefix_append _ _).trans inside) other before
      · exact mem_singleton.mp last ▸ distinguished.next earlier inside
    exact joined.satisfies own

end

theorem FixedPattern.allowed (fixed : FixedPattern flat) (listed : flat ∈ flats)
    (reached : ∀ vid, NodeFits space kv flat.start vid → StartReached space kv flats flat) :
    FlatAllowed space kv (KindClash flats) (vertexNamesOf space kv flats) (edgeNamesOf flats) flat := by
  have literal : ∀ {props : List (String × Expression)} {site : String}, (∀ prop ∈ props,
    (expressionAsValue prop.2).isSome = true) →
      ∀ prop ∈ props, expressionAsValue prop.2 = none → KindClash flats (unsupportedLiteral site prop.1) := by
    intro props site all prop mem missing
    have value := all prop mem
    simp [missing] at value
  refine ⟨⟨fun name named => ?_, literal fixed.start⟩, fun vid fits unnamed =>
    .inr ⟨rfl, flat, listed, unnamed, reached vid fits⟩, fun hop among => ?_⟩
  · exact .inl ⟨flat, listed, mem_filterMap.mpr ⟨_, .head _, named⟩⟩
  · obtain ⟨single, edge, node⟩ := fixed.hops hop among
    refine ⟨⟨fun name named => ?_, literal edge, fun ranged => by simp [single] at ranged⟩, fun name named => ?_, literal node⟩
    · exact ⟨flat, listed, mem_filterMap.mpr ⟨_, mem_map_of_mem among, named⟩⟩
    · exact .inl ⟨flat, listed, mem_filterMap.mpr ⟨_, .tail _ (mem_map_of_mem among), named⟩⟩

end

theorem assignments_of_collects (distinguished : Distinguished (StartReached space kv flats) flats)
    (collected : Collects (Joined space kv flats) [] rows) :
    ∃ assignments, Enumerates assignments (Satisfies space kv flats) ∧ Forall₂ (RowOf flats) assignments rows := by
  obtain ⟨found, listed, rfl⟩ := collected
  refine ⟨found.map Prod.fst, ⟨listed.nodup.map_on ?_, fun trails => ?_⟩, ?_⟩
  · rintro ⟨trails, row⟩ here ⟨_, row'⟩ there rfl
    exact Prod.ext rfl (((listed.mem _).mp here).unique ((listed.mem _).mp there))
  · rw [mem_map]
    constructor
    · rintro ⟨find, mem, rfl⟩
      exact (distinguished.satisfies ((listed.mem find).mp mem) (prefix_refl _)).1
    · intro satisfies
      obtain ⟨row, joined⟩ := satisfies.joined (distinguished.names satisfies (prefix_refl _))
      exact ⟨(trails, row), (listed.mem _).mpr joined, rfl⟩
  · rw [nil_append, forall₂_map_left_iff, forall₂_map_right_iff, forall₂_same]
    exact fun find mem => (distinguished.satisfies ((listed.mem find).mp mem) (prefix_refl _)).2

/-- The bindings of a statement are those of its assignments, one row for each. -/
theorem match_assignments (presentable : Presentable env space vidType world)
    (selected : ctx.space = some space) {plan : MatchPlan} {paths : List PathPattern}
    (lists : plan.pattern.Lists paths) (mandatory : plan.optionalPatterns = [])
    (unlimited : plan.limit = none) (plain : plan.simpleCount = none) {flats : List FlatPattern}
    (own : paths.map PathPattern.flatten = flats) (fixed : ∀ flat ∈ flats, FixedPattern flat)
    (spelled : ∀ flat ∈ flats, Spelled space world.kv flat.start)
    (unindexed : tagIndexesOf env ctx.toCtx world.kv = []) (short : ¬ TooLong ctx space world.kv)
    (few : ∀ done, done <+: flats → ∀ assignments : List (List Trail), assignments.Nodup →
      (∀ trails ∈ assignments, Satisfies space world.kv done trails) →
      ¬ TooMany ctx.toCtx assignments.length)
    (distinguished : Distinguished (StartReached space world.kv flats) flats) (fuel : Nat) :
    (executeMatchUnfenced fuel ctx plan).Answers (handler env) world (KindClash flats)
      fun outcome => ∃ assignments rows, outcome = .bound rows ∧ Enumerates assignments
      (Satisfies space world.kv flats) ∧ Forall₂ (RowOf flats) assignments rows := by
  have finds : ∀ flat ∈ flats, Finds env ctx space world (KindClash flats) flat := by
    intro flat listed
    have start : NodeAllowed (KindClash flats) (fun _ => True) flat.start :=
      ⟨fun _ _ => trivial, fun prop mem missing => by simpa [missing] using (fixed flat listed).start prop mem⟩
    refine answers_imp (answers_findNodeCandidates presentable.tidy start (fun _ long => (short long).elim)
      (fun indexed => (indexed unindexed).elim) (by simp [unindexed])) fun vids found => ⟨found.nodup, fun vid => ?_⟩
    rw [found.mem, and_iff_left_of_imp (NodeFits.selects (spelled flat listed) unindexed)]
  have within : ∀ done, done <+: flats → ¬ Overfull (TooMany ctx.toCtx) (Joined space world.kv done) 0 := by
    rintro done inside ⟨found, nodup, holds, many⟩
    refine few done inside (found.map Prod.fst) (nodup.map_on ?_) ?_ (by simpa using many)
    · rintro ⟨trails, row⟩ here ⟨_, row'⟩ there rfl
      exact Prod.ext rfl ((holds _ here).unique (holds _ there))
    · intro trails mem
      obtain ⟨find, among, rfl⟩ := mem_map.mp mem
      exact (distinguished.satisfies (holds find among) inside).1
  have allowed : JoinsAllowed space world.kv (KindClash flats)
    (vertexNamesOf space world.kv flats) (edgeNamesOf flats) flats := by
    intro done flat inside trails row joined
    have listed : flat ∈ flats := inside.subset (by simp)
    have earlier := (distinguished.satisfies joined ((prefix_append _ _).trans inside)).1
    exact (fixed flat listed).allowed listed fun vid fits => ⟨done, trails, vid, inside, earlier, fits⟩
  refine answers_imp (answers_executeMatch_joined presentable.tidy distinguished.mixed
    allowed finds within presentable selected lists own mandatory unlimited plain fuel) ?_
  rintro _ ⟨rows, rfl, collected⟩
  obtain ⟨assignments, enumerates, shown⟩ := assignments_of_collects distinguished collected
  exact ⟨assignments, rows, rfl, enumerates, shown⟩

/-- `(a:Person)-[:knows]->(b), (b)<-[e]-(a)` -/
def twoPatterns : List PathPattern := [
  ⟨{ variableName := some "a", labels := ["Person"] }, [{ edgeTypes := ["knows"] }], [{ variableName := some "b" }]⟩,
  ⟨{ variableName := some "b" }, [{ variableName := some "e", direction := .incoming }], [{ variableName := some "a" }]⟩]

theorem match_assignments_friends :
    (executeMatchUnfenced 0 freeCtx { pattern := .multiple (twoPatterns.map .path) }).Answers (handler graphEnv) friends
      (KindClash (twoPatterns.map PathPattern.flatten)) fun outcome => ∃ assignments rows, outcome = .bound rows ∧
        Enumerates assignments (Satisfies "g" friends.kv (twoPatterns.map PathPattern.flatten)) ∧
        Forall₂ (RowOf (twoPatterns.map PathPattern.flatten)) assignments rows := by
  refine match_assignments presentable_friends rfl
    (.several _ _) rfl rfl rfl rfl ?_ ?_ (by rfl) (affordable_friends none person).short ?_ ?_ 0
  · intro flat listed
    simp only [twoPatterns, map_cons, map_nil, mem_cons, not_mem_nil, or_false] at listed
    rcases listed with rfl | rfl <;> exact ⟨by simp [PathPattern.flatten, NodePattern.isLiteral],
      by simp [PathPattern.flatten, NodePattern.isLiteral]⟩
  · rintro flat listed label labelled vid tag ⟨vertex, found, has⟩ alike
    obtain ⟨-, same⟩ := vertex_friends found
    cases same
    simp only [twoPatterns, map_cons, map_nil, mem_cons, not_mem_nil, or_false] at listed has
    rcases listed with rfl | rfl
    · simp only [PathPattern.flatten, mem_cons, not_mem_nil, or_false] at labelled
      rw [has, labelled]
    · simp [PathPattern.flatten] at labelled
  · intro _ _ _ _ _
    simp [TooMany, Ctx.memoryCap, freeCtx, graphCtx]
  · rintro ⟨flat, listed, unnamed, -⟩
    simp only [twoPatterns, map_cons, map_nil, mem_cons, not_mem_nil, or_false] at listed
    rcases listed with rfl | rfl <;> simp [PathPattern.flatten] at unnamed

/-- Two people, one of whom knows the other, stored by statements. -/
def storedFriends : World :=
  after (after (after spelledTags (insertTagged 1 "Person")) (insertTagged 2 "Person")) (insertEdge [knows 1 2])

/-- The pattern `()-[]->(__anon_0__)`. -/
def clashingPath : PathPattern := ⟨{}, [{}], [{ variableName := some anonymousStart }]⟩

theorem runs_storedFriends : Runs graphEnv "g" spelledTags storedFriends :=
  runs_after _ rfl rfl (runs_after _ rfl rfl (runs_after _ rfl rfl .refl))

/-- The edge between two vertices is an assignment, but no row is bound. -/
theorem match_clashing_start : Runs graphEnv "g" spelledTags storedFriends ∧
    Satisfies "g" storedFriends.kv [clashingPath.flatten] [(1, [(some ⟨1, 2, "knows", 0, .empty⟩, 2)])] ∧
    (executeMatchUnfenced 0 freeCtx { pattern := .path clashingPath }).run (handler graphEnv) storedFriends =
      (.ok (.bound []), storedFriends) := by
  refine ⟨runs_storedFriends, ⟨.cons ⟨?_, ⟨?_, ?_⟩, ?_⟩ .nil, ?_⟩, rfl⟩
  · exact ⟨_, rfl, rfl, by simp [PropsFit, clashingPath, PathPattern.flatten]⟩
  · exact ⟨_, rfl, rfl, by simp [PropsFit]⟩
  · exact ⟨⟨rfl, .inl rfl, rfl, rfl⟩, by simp [PropsFit]⟩
  · trivial
  · intro name left right first second
    have only : namingOf [clashingPath.flatten] [(1, [(some ⟨1, 2, "knows", 0, .empty⟩, 2)])] =
      [(anonymousStart, .vertex 2)] := rfl
    simp only [only, mem_singleton, Prod.mk.injEq] at first second
    rw [first.2, second.2]

end ByoriDB.Executor
