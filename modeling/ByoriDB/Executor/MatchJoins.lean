import ByoriDB.Executor.MatchNode
import ByoriDB.Executor.MatchVariables

namespace ByoriDB.Executor

open List Data Program
open Prog (Answers Returns)
open Store ByoriDB.Graph
open SchemaKey (vertex)
open MatchBindings (empty)

variable {flat : FlatPattern} {bindings : MatchBindings} {trail : Trail}

theorem mem_hopNaming : (name, element) ∈ hopNaming hop step ↔
      (hop.1.variableName = some name ∧ ∃ edge, step.1 = some edge ∧ element = .edge edge) ∨
        (hop.2.variableName = some name ∧ element = .vertex step.2) := by
  simp only [hopNaming, EdgePattern.naming, NodePattern.naming, mem_append, mem_flatMap, mem_map, Option.mem_toList,
    Prod.mk.injEq]
  constructor
  · rintro (⟨_, named, edge, taken, rfl, rfl⟩ | ⟨_, named, rfl, rfl⟩)
    · exact .inl ⟨named, edge, taken, rfl⟩
    · exact .inr ⟨named, rfl⟩
  · rintro (⟨named, edge, taken, rfl⟩ | ⟨named, rfl⟩)
    · exact .inl ⟨name, named, edge, taken, rfl, rfl⟩
    · exact .inr ⟨name, named, rfl, rfl⟩

theorem mem_hopsNaming : pair ∈ hopsNaming hops steps ↔ ∃ place ∈ hops.zip steps, pair ∈ hopNaming place.1 place.2 := by
  induction hops generalizing steps with
  | nil => simp [hopsNaming]
  | cons hop hops ih =>
    cases steps with
    | nil => simp [hopsNaming]
    | cons step steps => simp [hopsNaming, ih]

def FlatPattern.nodeVariables (flat : FlatPattern) : List String :=
  (flat.start :: flat.hops.map Prod.snd).filterMap NodePattern.variableName

def FlatPattern.edgeVariables (flat : FlatPattern) : List String :=
  (flat.hops.map Prod.fst).filterMap EdgePattern.variableName

theorem mem_naming (mem : (name, element) ∈ flat.naming trail) : name ∈ flat.variables := by
  rcases mem_append.mp mem with start | later
  · simp only [NodePattern.naming, mem_map, Option.mem_toList, Prod.mk.injEq] at start
    obtain ⟨_, named, rfl, -⟩ := start
    exact mem_append_left _ (mem_filterMap.mpr ⟨_, .head _, named⟩)
  · obtain ⟨⟨hop, step⟩, place, here⟩ := mem_hopsNaming.mp later
    have among := (of_mem_zip place).1
    rcases mem_hopNaming.mp here with ⟨named, -⟩ | ⟨named, -⟩
    · exact mem_append_right _ (mem_filterMap.mpr ⟨_, mem_map_of_mem among, named⟩)
    · exact mem_append_left _ (mem_filterMap.mpr ⟨_, .tail _ (mem_map_of_mem among), named⟩)

/-- An element of the graph: a stored vertex, or a stored edge between two such. -/
def Exists (space : String) (kv : KV) : Element → Prop
  | .vertex vid => (kv.get (vertex space vid)).isSome = true
  | .edge edge => HasEdge space kv edge ∧ (kv.get (vertex space edge.srcVid)).isSome = true ∧
      (kv.get (vertex space edge.dstVid)).isSome = true

theorem Follows.exists (follows : Follows space kv hops u steps)
    (stored : (kv.get (vertex space u)).isSome = true) (mem : pair ∈ hopsNaming hops steps) :
    Exists space kv pair.2 := by
  induction hops generalizing u steps with
  | nil => simp [hopsNaming] at mem
  | cons hop hops ih =>
    cases steps with
    | nil => simp [hopsNaming] at mem
    | cons step steps =>
      obtain ⟨fits, later⟩ := follows
      rcases mem_append.mp mem with here | there
      · obtain ⟨name, element⟩ := pair
        rcases mem_hopNaming.mp here with ⟨-, edge, taken, rfl⟩ | ⟨-, rfl⟩
        · obtain ⟨link, v⟩ := step
          obtain rfl : link = some edge := taken
          have target := fits.1.stored
          cases range : hop.1.range with
          | some range' => simp [HopFits, range] at fits
          | none =>
            obtain ⟨_, ⟨⟩, ⟨has, -, leads⟩, -⟩ := (hopFits_fixed range).mp fits
            cases direction : hop.1.direction with
            | outgoing =>
              rw [direction] at leads
              exact ⟨has, leads.1 ▸ stored, leads.2 ▸ target⟩
            | incoming =>
              rw [direction] at leads
              exact ⟨has, leads.2 ▸ target, leads.1 ▸ stored⟩
            | undirected =>
              rw [direction] at leads
              rcases leads with ⟨src, dst⟩ | ⟨dst, src⟩
              · exact ⟨has, src ▸ stored, dst ▸ target⟩
              · exact ⟨has, src ▸ target, dst ▸ stored⟩
        · exact fits.1.stored
      · exact ih later fits.1.stored there

theorem Fits.exists (fits : Fits space kv flat trail) (mem : pair ∈ flat.naming trail) : Exists space kv pair.2 := by
  rcases mem_append.mp mem with start | later
  · obtain ⟨_, -, rfl⟩ := mem_map.mp start
    exact fits.1.stored
  · exact fits.2.exists fits.1.stored later

theorem Fits.storedEdges (fits : Fits space kv flat trail) : StoredEdges space kv (flat.naming trail) :=
  fun _ _ mem => (fits.exists mem).1

theorem join_eq_some {next : MatchBindings} {result : Except ExecutionError (Option MatchBindings)}
    (bound : result.toOption.join = some next) : result = .ok (some next) := by
  cases result with
  | error reason => cases bound
  | ok inner =>
    cases inner with
    | none => cases bound
    | some value =>
      cases bound
      rfl

theorem bindSteps_kinds (mixed : Clashes raise vertexNames edgeNames)
    (allowed : ∀ hop ∈ hops, HopAllowed raise vertexNames edgeNames hop)
    (kinds : Kinds vertexNames edgeNames bindings)
    (bound : bindSteps bindings hops steps = some row) : Kinds vertexNames edgeNames row := by
  induction hops generalizing bindings steps with
  | nil =>
    cases bound
    exact kinds
  | cons hop hops ih =>
    cases steps with
    | nil =>
      cases bound
      exact kinds
    | cons step steps =>
      obtain ⟨here, later⟩ := forall_mem_cons.mp allowed
      obtain ⟨next, first, rest⟩ := Option.bind_eq_some_iff.mp bound
      refine ih later ?_ rest
      obtain ⟨taken, vid⟩ := step
      cases taken with
      | none => exact (bindNode_returns kinds mixed here.2.named vid).value (join_eq_some first) next rfl
      | some edge => exact (bindHop_returns kinds mixed here.1.named here.2.named ⟨vid, edge⟩).value (join_eq_some first) next rfl

theorem bindTrail_kinds (mixed : Clashes raise vertexNames edgeNames)
    (allowed : FlatAllowed space kv raise vertexNames edgeNames flat) (kinds : Kinds vertexNames edgeNames bindings)
    (matched : Matches space kv flat bindings trail row) : Kinds vertexNames edgeNames row := by
  obtain ⟨fits, bound⟩ := matched
  obtain ⟨next, first, rest⟩ := Option.bind_eq_some_iff.mp bound
  have started := (bindStart_returns kinds mixed allowed fits.1).value (join_eq_some first) next rfl
  exact bindSteps_kinds mixed allowed.hops started rest

section

variable (stored : StoredRow space kv bindings)

include stored

theorem StoredRow.vertex
    (here : (kv.get (vertex space vid)).isSome = true) (name : String) :
    StoredRow space kv { bindings with values := bindings.values.insert name (.int vid) } := by
  refine ⟨fun other own found => ?_, stored.2⟩
  rw [get_insert] at found
  split at found
  · cases found
    exact here
  · exact stored.1 other own found

theorem bindElement_stored (here : Exists space kv element)
    (bound : bindElement bindings name element = some row) : StoredRow space kv row := by
  cases element with
  | vertex vid =>
    have result := join_eq_some bound
    unfold bindVertexVariable at result
    split at result
    · cases result
    · split at result
      · split at result <;> cases result
        exact stored
      · cases result
      · cases result
      · cases result
        exact stored.vertex here name
  | edge edge =>
    have result := join_eq_some bound
    unfold bindEdgeVariable at result
    split at result
    · split at result <;> cases result
      exact stored
    · split at result
      · cases result
      · cases result
      · cases result
        refine ⟨(stored.vertex here.2.2 name).1, fun other own found => ?_⟩
        rw [get_insert] at found
        split at found
        · cases found
          exact here.2
        · exact stored.2 other own found

theorem bindTrail_stored (fits : Fits space kv flat trail)
    (bound : bindTrail bindings flat trail = some row) : StoredRow space kv row := by
  rw [bindTrail_naming] at bound
  refine bindNaming_keeps ?_ (fun pair mem _ _ stored => bindElement_stored stored (fits.exists mem)) bound
  unfold trailStart
  split
  · exact stored
  · exact stored.vertex fits.1.stored _

end

section

variable (space : String) (kv : KV) (flats : List FlatPattern) (trails : List Trail)

def namingOf : Naming := (List.zipWith FlatPattern.naming flats trails).flatten

/-- The assignments of the patterns: a trail for each of them, where repeated variables
agree. -/
structure Satisfies : Prop where
  fits : Forall₂ (Fits space kv) flats trails
  coherent : Coherent (namingOf flats trails)

def bindTrails : MatchBindings → List FlatPattern → List Trail → Option MatchBindings
  | bindings, flat :: flats, trail :: trails => (bindTrail bindings flat trail).bind fun next => bindTrails next flats trails
  | bindings, _, _ => some bindings

/-- The trails are those of the patterns and lead to these bindings. -/
def Joined (row : MatchBindings) : Prop :=
  Forall₂ (Fits space kv) flats trails ∧ bindTrails .empty flats trails = some row

end

/-- The variables of the pattern are among these, and a vertex that it starts with is not
mistaken for one of them. -/
structure Separates (space : String) (kv : KV) (names : String → Prop) (flat : FlatPattern) : Prop where
  listed : ∀ name ∈ flat.variables, names name
  apart : ∀ vid, NodeFits space kv flat.start vid → flat.start.variableName = none → ¬ names anonymousStart

theorem Carries.trailStart (carries : Carries names start naming bindings)
    (own : Separates space kv names flat) (fits : Fits space kv flat trail) :
    Carries names start naming (trailStart bindings flat trail) := by
  unfold Executor.trailStart
  split
  · exact carries
  · rename_i unnamed
    intro name among
    have other : name ≠ anonymousStart := by
      rintro rfl
      exact own.apart _ fits.1 unnamed among
    have same : (bindings.values.insert anonymousStart (.int trail.1)).get name = bindings.values.get name := by
      rw [get_insert, if_neg other]
    refine ⟨fun element mem => ?_, fun nowhere => ?_⟩
    · have shows := (carries name among).1 element mem
      cases element <;> simpa [Shows, same] using shows
    · simpa [same] using (carries name among).2 nowhere

section

variable {flats : List FlatPattern} {trails : List Trail} (own : ∀ flat ∈ flats, Separates space kv names flat)
  (fits : Forall₂ (Fits space kv) flats trails) (carries : Carries names .empty naming bindings)
  (stored : StoredEdges space kv naming)

include own fits carries stored

theorem bindTrails_carries (bound : bindTrails bindings flats trails = some row) :
    Carries names .empty (naming ++ namingOf flats trails) row := by
  induction fits generalizing bindings naming with
  | nil =>
    cases bound
    simpa [namingOf] using carries
  | @cons flat trail flats trails here _ ih =>
    obtain ⟨first, later⟩ := forall_mem_cons.mp own
    obtain ⟨next, now, rest⟩ := Option.bind_eq_some_iff.mp bound
    rw [bindTrail_naming] at now
    have more : StoredEdges space kv (naming ++ flat.naming trail) :=
      fun name edge mem => (mem_append.mp mem).elim (stored name edge) (here.storedEdges name edge)
    have carried := (bindNaming_carries (carries.trailStart first here) sane_empty more
      (fun pair mem => first.listed _ (mem_naming mem)) (fun pair _ => .inl unbound_empty) now).1
    have whole : naming ++ namingOf (flat :: flats) (trail :: trails) = naming ++ flat.naming trail ++ namingOf flats trails := by
      simp [namingOf]
    rw [whole]
    exact ih later carried more rest

theorem bindTrails_coherent (coherent : Coherent (naming ++ namingOf flats trails)) :
    ∃ row, bindTrails bindings flats trails = some row := by
  induction fits generalizing bindings naming with
  | nil => exact ⟨bindings, rfl⟩
  | @cons flat trail flats trails here _ ih =>
    obtain ⟨first, later⟩ := forall_mem_cons.mp own
    have whole : naming ++ namingOf (flat :: flats) (trail :: trails) = naming ++ flat.naming trail ++ namingOf flats trails := by
      simp [namingOf]
    rw [whole] at coherent
    have more : StoredEdges space kv (naming ++ flat.naming trail) :=
      fun name edge mem => (mem_append.mp mem).elim (stored name edge) (here.storedEdges name edge)
    have named : ∀ pair ∈ flat.naming trail, names pair.1 := fun pair mem => first.listed _ (mem_naming mem)
    have carried := carries.trailStart first here
    obtain ⟨next, now⟩ := bindNaming_coherent carried more named
      (fun name left right one other => coherent name left right (mem_append_left _ one) (mem_append_left _ other))
      fun pair _ => .inl unbound_empty
    have carried' := (bindNaming_carries carried sane_empty more named (fun pair _ => .inl unbound_empty) now).1
    obtain ⟨row, rest⟩ := ih later carried' more coherent
    exact ⟨row, by simp [bindTrails, bindTrail_naming, now, rest]⟩

end

def RowOf (flats : List FlatPattern) (trails : List Trail) (row : MatchBindings) : Prop :=
  ∀ pair ∈ namingOf flats trails, Shows row pair.1 pair.2

section

variable {flats : List FlatPattern} {trails : List Trail} (own : ∀ flat ∈ flats, Separates space kv names flat)

include own

theorem names_namingOf (mem : pair ∈ namingOf flats trails) : names pair.1 := by
  obtain ⟨part, listed, inside⟩ := mem_flatten.mp mem
  rw [← map_uncurry_zip_eq_zipWith] at listed
  obtain ⟨⟨flat, trail⟩, place, rfl⟩ := mem_map.mp listed
  exact (own flat (of_mem_zip place).1).listed _ (mem_naming inside)

/-- Trails that lead to bindings are an assignment, and the bindings show it. -/
theorem Joined.satisfies (joined : Joined space kv flats trails row) :
    Satisfies space kv flats trails ∧ RowOf flats trails row := by
  have carries := bindTrails_carries own joined.1 (carries_refl names) (fun _ _ mem => by simp at mem) joined.2
  have named : ∀ pair ∈ namingOf flats trails, names pair.1 := fun pair => names_namingOf own
  exact ⟨⟨joined.1, carries.coherent named⟩, fun pair mem => (carries pair.1 (named pair mem)).1 pair.2 mem⟩

theorem Satisfies.joined (satisfies : Satisfies space kv flats trails) : ∃ row, Joined space kv flats trails row := by
  obtain ⟨row, bound⟩ := bindTrails_coherent own satisfies.fits (carries_refl names) (fun _ _ mem => by simp at mem)
    (by simpa using satisfies.coherent)
  exact ⟨row, satisfies.fits, bound⟩

end

theorem bindTrails_append (fits : Forall₂ (Fits space kv) flats trails) (trail : Trail) :
    bindTrails bindings (flats ++ [flat]) (trails ++ [trail]) =
      (bindTrails bindings flats trails).bind fun next => bindTrail next flat trail := by
  induction fits generalizing bindings with
  | nil => simp [bindTrails]
  | cons _ _ ih => simp [bindTrails, ih, Option.bind_assoc]

theorem joined_append : Joined space kv (flats ++ [flat]) trails row ↔ ∃ before trail next, trails = before ++ [trail] ∧
      Joined space kv flats before next ∧ Matches space kv flat next trail row := by
  constructor
  · rintro ⟨fits, bound⟩
    obtain ⟨before, trail, rfl, early, here⟩ := forall₂_concat.mp fits
    rw [bindTrails_append early] at bound
    obtain ⟨next, first, second⟩ := Option.bind_eq_some_iff.mp bound
    exact ⟨before, trail, next, rfl, ⟨early, first⟩, here, second⟩
  · rintro ⟨before, trail, next, rfl, ⟨early, first⟩, here, second⟩
    exact ⟨forall₂_concat.mpr ⟨before, trail, rfl, early, here⟩, by simp [bindTrails_append early, first, second]⟩

theorem Joined.unique (first : Joined space kv flats trails row)
    (second : Joined space kv flats trails row') : row = row' :=
  Option.some.inj (first.2.symm.trans second.2)

theorem renames_join {flats : List FlatPattern} {found : List (List Trail × MatchBindings)}
    (listed : Enumerates found fun find => Joined space kv flats find.1 find.2) :
    Renames (fun find : (List Trail × MatchBindings) × Trail => find.1.1 ++ [find.2])
      (fun find row => find.1 ∈ found ∧ Matches space kv flat find.1.2 find.2 row) (Joined space kv (flats ++ [flat])) where
  inj := by
    rintro ⟨⟨trails, row⟩, trail⟩ ⟨⟨trails', row'⟩, trail'⟩ _ _ ⟨here, -⟩ ⟨there, -⟩ same
    obtain ⟨first, last⟩ := append_inj' same rfl
    subst first
    have rows : row = row' := ((listed.mem _).mp here).unique ((listed.mem _).mp there)
    simp only [List.cons.injEq, and_true] at last
    rw [rows, last]
  sound := by
    rintro ⟨⟨trails, row⟩, trail⟩ row' ⟨here, matched⟩
    exact joined_append.mpr ⟨trails, trail, row, rfl, (listed.mem _).mp here, matched⟩
  complete := by
    intro trails row joined
    obtain ⟨before, trail, next, rfl, early, matched⟩ := joined_append.mp joined
    exact ⟨((before, next), trail), rfl, (listed.mem _).mpr early, matched⟩

theorem TooMany.mono {ctx : Ctx} (past : TooMany ctx few) (more : few ≤ many) : TooMany ctx many :=
  ⟨past.1, past.2.trans_le (Nat.mul_le_mul_right _ more)⟩

theorem answers_joinPattern (tidy : Tidy space world.kv)
    (mixed : Clashes raise vertexNames edgeNames)
    (allowed : ∀ trails row, Joined space world.kv flats trails row →
      FlatAllowed space world.kv raise vertexNames edgeNames flat)
    (finds : Finds env ctx space world raise flat)
    (fuel : Nat) (flattens : flattenPattern pattern = .ok flat)
    (collected : Collects (Joined space world.kv flats) [] rows)
    (kinds : ∀ row ∈ rows, Kinds vertexNames edgeNames row)
    (few : ¬ Overfull (TooMany ctx.toCtx) (Joined space world.kv (flats ++ [flat])) 0) :
    (joinPattern fuel ctx space rows pattern).Answers (handler env) world raise
      (Collects (Joined space world.kv (flats ++ [flat])) []) := by
  obtain ⟨found, listed, rfl⟩ := collected
  have renames : Renames _ _ (Joined space world.kv (flats ++ [flat])) := renames_join listed
  have each : ∀ find ∈ found, ∀ acc : List MatchBindings, Answers (handler env) world
      (fun reason => raise reason ∨ (reason = crowded ctx.toCtx ∧
        Overfull (TooMany ctx.toCtx) (Matches space world.kv flat find.2) acc.length))
      (Collects (Matches space world.kv flat find.2) acc)
      (do
        let matched ← matchFlatPattern fuel ctx space flat find.2 none (alreadyBoundVid flat find.2)
        pure (acc ++ matched)) := by
    intro find mem acc
    have matching := answers_matchFlatPattern tidy mixed fuel ctx (allowed _ _ ((listed.mem find).mp mem))
      (kinds find.2 (mem_append_right _ (mem_map_of_mem mem))) finds
    refine answers_seq (answers_mono matching (fun reason => Or.imp_right ?_) fun _ => id) ?_
    · rintro ⟨same, more, nodup, holds, many⟩
      exact ⟨same, more, nodup, holds, many.mono (by omega)⟩
    · rintro matched ⟨more, enumerates, rfl⟩
      exact answers_pure ⟨more, enumerates, rfl⟩
  unfold joinPattern
  rw [flattens]
  refine answers_bind (answers_pure ?_)
  rw [nil_append, foldlM_map]
  refine answers_bind (answers_mono (answers_collect listed.nodup each) ?_ ?_)
  · rintro reason (raised | ⟨-, overfull⟩)
    · exact raised
    · exact (few (overfull.rename renames)).elim
  · intro next collects
    obtain ⟨more, enumerates, rfl⟩ := collects.rename renames
    refine answers_seq (answers_ofExcept (checkRowBudget_returns fun many => ?_)) fun _ _ =>
      answers_pure ⟨more, enumerates, rfl⟩
    exact (few ⟨more, enumerates.nodup, fun find => (enumerates.mem find).mp, by simpa using many⟩).elim

theorem bindTrails_keeps {inv : MatchBindings → Prop} (fits : Forall₂ (Fits space kv) flats trails)
    (keeps : ∀ flat ∈ flats, ∀ {trail bindings next}, Fits space kv flat trail →
      inv bindings → bindTrail bindings flat trail = some next → inv next) (holds : inv bindings)
    (bound : bindTrails bindings flats trails = some row) : inv row := by
  induction fits generalizing bindings with
  | nil =>
    cases bound
    exact holds
  | cons here _ ih =>
    obtain ⟨first, later⟩ := forall_mem_cons.mp keeps
    obtain ⟨next, now, rest⟩ := Option.bind_eq_some_iff.mp bound
    exact ih later (first here holds now) rest

/-- The patterns of a statement are allowed, each where those before it have been joined. -/
def JoinsAllowed (space : String) (kv : KV) (raise : ExecutionError → Prop)
    (vertexNames edgeNames : String → Prop) (flats : List FlatPattern) : Prop :=
  ∀ done flat, done ++ [flat] <+: flats → ∀ trails row, Joined space kv done trails row →
    FlatAllowed space kv raise vertexNames edgeNames flat

theorem Joined.kinds (mixed : Clashes raise vertexNames edgeNames)
    (allowed : JoinsAllowed space kv raise vertexNames edgeNames flats)
    (joined : Joined space kv done trails row) (inside : done <+: flats) : Kinds vertexNames edgeNames row := by
  induction done using reverseRecOn generalizing trails row with
  | nil =>
    obtain ⟨fits, bound⟩ := joined
    cases fits
    cases bound
    exact ⟨by simp [empty], by simp [empty]⟩
  | append_singleton done flat ih =>
    obtain ⟨before, trail, next, rfl, early, matched⟩ := joined_append.mp joined
    exact bindTrail_kinds mixed (allowed done flat inside before next early) (ih early ((prefix_append _ _).trans inside)) matched

theorem Joined.stored (joined : Joined space kv flats trails row) : StoredRow space kv row := by
  have start : StoredRow space kv .empty := ⟨by simp [empty], by simp [empty]⟩
  exact bindTrails_keeps joined.1 (fun _ _ _ _ _ here stored => bindTrail_stored stored here) start joined.2

theorem renames_first : Renames (fun trail => [trail]) (Matches space kv flat .empty) (Joined space kv [flat]) where
  inj _ _ same := (List.cons.inj same).1
  sound matched := joined_append.mpr ⟨[], _, .empty, rfl, ⟨.nil, rfl⟩, matched⟩
  complete {trails row} joined := by
    have split : Joined space kv ([] ++ [flat]) trails row := joined
    obtain ⟨before, trail, next, rfl, ⟨fits, bound⟩, matched⟩ := joined_append.mp split
    cases fits
    cases bound
    exact ⟨trail, rfl, matched⟩

inductive Pattern.Lists : Pattern → List PathPattern → Prop where
  | single (path : PathPattern) : (Pattern.path path).Lists [path]
  | several (path : PathPattern) (paths : List PathPattern) : (Pattern.multiple ((path :: paths).map .path)).Lists (path :: paths)

theorem Pattern.Lists.split (lists : pattern.Lists paths) : ∃ first rest, paths = first :: rest ∧
      flattenPattern pattern = .ok first.flatten ∧ pattern.joined = rest.map .path := by
  cases lists with
  | single path => exact ⟨path, [], rfl, rfl, rfl⟩
  | several path paths => exact ⟨path, paths, rfl, rfl, by simp [Pattern.joined]⟩

section

variable {flats : List FlatPattern}
  (tidy : Tidy space world.kv) (mixed : Clashes raise vertexNames edgeNames)
  (allowed : JoinsAllowed space world.kv raise vertexNames edgeNames flats)
  (finds : ∀ flat ∈ flats, Finds env ctx space world raise flat)
  (few : ∀ done, done <+: flats → ¬ Overfull (TooMany ctx.toCtx) (Joined space world.kv done) 0)

include tidy mixed allowed finds few

theorem answers_joinPatterns (fuel : Nat) {paths : List PathPattern}
    (whole : done ++ paths.map PathPattern.flatten = flats)
    (collected : Collects (Joined space world.kv done) [] rows) :
    ((paths.map Pattern.path).foldlM (joinPattern fuel ctx space) rows).Answers
      (handler env) world raise (Collects (Joined space world.kv flats) []) := by
  induction paths generalizing done rows with
  | nil =>
    rw [map_nil, append_nil] at whole
    exact answers_pure (whole ▸ collected)
  | cons path paths ih =>
    have grown : done ++ [path.flatten] ++ paths.map PathPattern.flatten = flats := by simpa using whole
    have mem : path.flatten ∈ flats := by simp [← whole]
    refine answers_seq (answers_joinPattern tidy mixed (allowed done _ ⟨_, grown⟩) (finds _ mem) fuel rfl collected ?_
      (few _ ⟨_, grown⟩)) fun next joined => ih grown joined
    intro row listed
    obtain ⟨found, enumerates, rfl⟩ := collected
    obtain ⟨find, among, rfl⟩ := mem_map.mp listed
    exact ((enumerates.mem find).mp among).kinds mixed allowed ⟨_, whole⟩

theorem answers_executeMatch_joined (presentable : Presentable env space vidType world)
    (selected : ctx.space = some space) (lists : plan.pattern.Lists paths)
    (own : paths.map PathPattern.flatten = flats) (mandatory : plan.optionalPatterns = [])
    (unlimited : plan.limit = none) (plain : plan.simpleCount = none) (fuel : Nat) :
    (executeMatchUnfenced fuel ctx plan).Answers (handler env) world raise fun outcome =>
      ∃ rows, outcome = .bound rows ∧ Collects (Joined space world.kv flats) [] rows := by
  obtain ⟨path, rest, rfl, flattens, joined⟩ := lists.split
  have window : plan.window = .ok none := by
    unfold MatchPlan.window
    rw [unlimited]
    cases plan.offset <;> rfl
  have open' : plan.rowLimit none = none := by
    unfold MatchPlan.rowLimit
    split <;> rfl
  have mem : path.flatten ∈ flats := by simp [← own]
  unfold executeMatchUnfenced
  rw [window, flattens, plain, joined, mandatory]
  refine answers_bind (answers_pure ?_)
  rw [Ctx.requireSpace, selected]
  refine answers_bind (answers_pure ?_)
  refine answers_bind (answers_spaceVidType presentable.type ?_)
  refine answers_bind (answers_pure ?_)
  rw [open']
  have within : ∀ {done : List FlatPattern} {rows : List MatchBindings}, done <+: flats →
      Collects (Joined space world.kv done) [] rows → Returns raise (fun _ => True) (checkRowBudget ctx.toCtx rows) := by
    rintro done _ inside ⟨found, enumerates, rfl⟩
    exact checkRowBudget_returns fun many =>
      (few done inside ⟨found, enumerates.nodup, fun find => (enumerates.mem find).mp, by simpa using many⟩).elim
  have firstly : [path.flatten] <+: flats := ⟨rest.map PathPattern.flatten, by simpa using own⟩
  have start : Kinds vertexNames edgeNames .empty := ⟨by simp [empty], by simp [empty]⟩
  have unbound : alreadyBoundVid path.flatten .empty = none := by
    unfold alreadyBoundVid
    cases path.flatten.start.variableName <;> simp [empty]
  have matching := answers_matchFlatPattern tidy mixed fuel ctx (allowed [] _ firstly [] .empty ⟨.nil, rfl⟩) start (finds _ mem)
  rw [unbound] at matching
  refine answers_bind (answers_mono matching ?_ ?_)
  · rintro reason (raised | ⟨-, overfull⟩)
    · exact raised
    · exact (few _ firstly (overfull.rename renames_first)).elim
  intro rows collected
  refine answers_seq (answers_ofExcept (within firstly (collected.rename renames_first))) fun _ _ => ?_
  refine answers_seq (answers_joinPatterns tidy mixed allowed finds few fuel
    (by simpa using own) (collected.rename renames_first))
    fun rows collected => ?_
  rw [optionalRows_nil]
  refine answers_bind (answers_pure ?_)
  refine answers_seq (answers_ofExcept (within (prefix_refl _) collected)) fun _ _ => ?_
  refine answers_seq (answers_validateMatchVidMappings presentable ?_) fun _ _ => answers_pure ⟨rows, rfl, collected⟩
  intro row listed
  obtain ⟨found, enumerates, rfl⟩ := collected
  obtain ⟨find, among, rfl⟩ := mem_map.mp listed
  exact ((enumerates.mem find).mp among).stored

end

end ByoriDB.Executor
