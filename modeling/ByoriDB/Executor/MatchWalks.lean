import ByoriDB.Executor.VarLength

namespace ByoriDB.Executor

open Data Program
open Prog (Answers Returns)
open Store ByoriDB.Graph

variable {world : World} {raise : ExecutionError → Prop} {vertexNames edgeNames : String → Prop}

/-- What is bound to edges and to vertices has names for edges and for vertices.
Null may be bound to either. -/
structure Kinds (vertexNames edgeNames : String → Prop) (bindings : MatchBindings) : Prop where
  edges : ∀ name edge, bindings.edges.get name = some edge → edgeNames name
  values : ∀ name value, bindings.values.get name = some value → bindings.edges.get name = none →
    (∃ vid, value = .int vid ∧ vertexNames name) ∨ value = .null

/-- A name of both kinds is refused. -/
def Clashes (raise : ExecutionError → Prop) (vertexNames edgeNames : String → Prop) : Prop :=
  ∀ name, vertexNames name → edgeNames name → raise (bindingKindError name)

/-- The search for the start of a pattern finds every vertex that fits it. -/
def Finds (env : Env) (ctx : QueryCtx) (space : String) (world : World)
    (raise : ExecutionError → Prop) (flat : FlatPattern) : Prop :=
  (findNodeCandidates ctx space flat.start).Answers (handler env) world raise
    fun vids => Enumerates vids (NodeFits space world.kv flat.start)

section

variable {bindings : MatchBindings} (kinds : Kinds vertexNames edgeNames bindings)
  (mixed : Clashes raise vertexNames edgeNames)

include kinds mixed

theorem bindVertexVariable_returns (named : vertexNames name) (vid : Int) :
    Returns raise (fun next => ∀ bound ∈ next, Kinds vertexNames edgeNames bound)
      (bindVertexVariable bindings name vid) := by
  unfold bindVertexVariable
  split
  · rename_i isEdge
    obtain ⟨edge, found⟩ := Option.isSome_iff_exists.mp isEdge
    exact mixed name named (kinds.edges name edge found)
  · rename_i noEdge
    have unbound : bindings.edges.get name = none := by simpa using noEdge
    split
    · intro bound same
      split at same
      · cases same
        exact kinds
      · cases same
    · exact fun _ impossible => by cases impossible
    · rename_i value notInt notNull found
      rcases kinds.values name _ found unbound with ⟨own, same, -⟩ | same
      · exact (notInt own same).elim
      · exact (notNull same).elim
    · intro bound same
      cases same
      refine ⟨kinds.edges, fun other value found noEdge => ?_⟩
      rw [get_insert] at found
      split at found
      · rename_i same
        cases found
        exact .inl ⟨vid, rfl, same ▸ named⟩
      · exact kinds.values other value found noEdge

theorem bindEdgeVariable_returns (named : edgeNames name) (edge : EdgeData) :
    Returns raise (fun next => ∀ bound ∈ next, Kinds vertexNames edgeNames bound)
      (bindEdgeVariable bindings name edge) := by
  unfold bindEdgeVariable
  split
  · intro bound same
    split at same
    · cases same
      exact kinds
    · cases same
  · rename_i unbound
    split
    · exact fun _ impossible => by cases impossible
    · rename_i value notNull found
      rcases kinds.values name _ found unbound with ⟨vid, -, isVertex⟩ | same
      · exact mixed name isVertex named
      · exact (notNull same).elim
    · intro bound same
      cases same
      refine ⟨fun other own found => ?_, fun other value found noEdge => ?_⟩
      · rw [get_insert] at found
        split at found
        · rename_i same
          exact same ▸ named
        · exact kinds.edges other own found
      · rw [get_insert] at found noEdge
        split at found
        · rename_i same
          simp [same] at noEdge
        · rename_i apart
          rw [if_neg apart] at noEdge
          exact kinds.values other value found noEdge

theorem bindNode_returns (named : ∀ name, node.variableName = some name → vertexNames name)
    (vid : Int) : Returns raise (fun next => ∀ bound ∈ next, Kinds vertexNames edgeNames bound)
      (bindNode bindings node vid) := by
  unfold bindNode
  split
  · rename_i name isNamed
    exact bindVertexVariable_returns kinds mixed (named name isNamed) vid
  · intro bound same
    cases same
    exact kinds

theorem bindEdge_returns (named : ∀ name, pattern.variableName = some name → edgeNames name) (edge : EdgeData) :
    Returns raise (fun next => ∀ bound ∈ next, Kinds vertexNames edgeNames bound)
      (bindEdge bindings pattern edge) := by
  unfold bindEdge
  split
  · rename_i name isNamed
    exact bindEdgeVariable_returns kinds mixed (named name isNamed) edge
  · intro bound same
    cases same
    exact kinds

theorem bindHop_returns (edgeNamed : ∀ name, hop.1.variableName = some name → edgeNames name)
    (nodeNamed : ∀ name, hop.2.variableName = some name → vertexNames name) (neighbor : GraphNeighbor) :
    Returns raise (fun next => ∀ bound ∈ next, Kinds vertexNames edgeNames bound)
      (bindHop bindings hop neighbor) := by
  refine (bindEdge_returns kinds mixed edgeNamed neighbor.edge).bind fun next kept => ?_
  cases next with
  | none => exact fun _ impossible => by cases impossible
  | some bound => exact bindNode_returns (kept bound rfl) mixed nodeNamed neighbor.dst

end

abbrev Hop := EdgePattern × NodePattern

/-- The edge that a hop takes, unless it is of variable length, and the vertex it
leads to. -/
abbrev HopStep := Option EdgeData × Int

def HopFits (space : String) (kv : KV) (hop : Hop) (u : Int) (step : HopStep) : Prop :=
  NodeFits space kv hop.2 step.2 ∧ match hop.1.range, step.1 with
    | none, some edge => IsNeighbor space kv hop.1.edgeTypes hop.1.direction u ⟨step.2, edge⟩ ∧
        PropsFit (EdgeData.holds edge) hop.1.props
    | some (min, max), none => Spans space kv hop.1 min max u step.2
    | _, _ => False

theorem hopFits_fixed (fixed : hop.1.range = none) : HopFits space kv hop u step ↔ ∃ edge, step.1 =
      some edge ∧ IsNeighbor space kv hop.1.edgeTypes hop.1.direction u ⟨step.2, edge⟩ ∧
      PropsFit (EdgeData.holds edge) hop.1.props ∧ NodeFits space kv hop.2 step.2 := by
  obtain ⟨link, v⟩ := step
  cases link <;> simp [HopFits, fixed, and_comm, and_assoc]

theorem hopFits_ranged (ranged : hop.1.range = some range) : HopFits space kv hop u step ↔ step.1 =
      none ∧ Spans space kv hop.1 range.1 range.2 u step.2 ∧ NodeFits space kv hop.2 step.2 := by
  obtain ⟨link, v⟩ := step
  cases link <;> simp [HopFits, ranged, and_comm]

def Follows (space : String) (kv : KV) : List Hop → Int → List HopStep → Prop
  | [], _, [] => True
  | hop :: hops, u, step :: steps => HopFits space kv hop u step ∧ Follows space kv hops step.2 steps
  | _, _, _ => False

def bindStep (bindings : MatchBindings) (hop : Hop) (step : HopStep) : Option MatchBindings :=
  (match step.1 with
    | some edge => bindHop bindings hop ⟨step.2, edge⟩
    | none => bindNode bindings hop.2 step.2).toOption.join

def bindSteps : MatchBindings → List Hop → List HopStep → Option MatchBindings
  | bindings, hop :: hops, step :: steps => (bindStep bindings hop step).bind fun next => bindSteps next hops steps
  | bindings, _, _ => some bindings

def Walks (space : String) (kv : KV) (hops : List Hop) (u : Int)
    (bindings : MatchBindings) (steps : List HopStep) (row : MatchBindings) : Prop :=
  Follows space kv hops u steps ∧ bindSteps bindings hops steps = some row

theorem walks_nil : Walks space kv [] u bindings steps row ↔ steps = [] ∧ row = bindings := by
  cases steps <;> simp [Walks, Follows, bindSteps, eq_comm]

theorem walks_cons : Walks space kv (hop :: hops) u bindings steps row ↔
      ∃ step rest next, steps = step :: rest ∧ HopFits space kv hop u step ∧
      bindStep bindings hop step = some next ∧ Walks space kv hops step.2 next rest row := by
  cases steps with
  | nil => simp [Walks, Follows]
  | cons step rest =>
    simp only [Walks, Follows, bindSteps, Option.bind_eq_some_iff, List.cons.injEq]
    constructor
    · rintro ⟨⟨fits, follows⟩, next, bound, later⟩
      exact ⟨step, rest, next, ⟨rfl, rfl⟩, fits, bound, follows, later⟩
    · rintro ⟨step, rest, next, ⟨rfl, rfl⟩, fits, bound, follows, later⟩
      exact ⟨⟨fits, follows⟩, next, bound, later⟩

def crowded (ctx : Ctx) : ExecutionError :=
  .resourceExhausted s!"query exceeded the {ctx.maxMemoryMb} MB result-memory cap (max_memory_mb) while materializing rows — add a LIMIT or narrow the query"

def TooMany (ctx : Ctx) (rows : Nat) : Prop := 0 < ctx.memoryCap ∧ ctx.memoryCap < rows * bindingRowBytes

theorem checkRowBudget_returns (raises : TooMany ctx rows.length → raise (crowded ctx)) :
    Returns raise (fun _ => True) (checkRowBudget ctx rows) := by
  unfold checkRowBudget checkResultBudget
  split
  · rename_i past
    exact raises ⟨past.1, by omega⟩
  · trivial

theorem pushRow_returns (raises : TooMany ctx (rows.length + 1) → raise (crowded ctx)) :
    Returns raise (· = rows ++ [row]) (pushRow ctx rows row) := by
  unfold pushRow
  dsimp only
  split
  · have checked : Returns raise (fun _ => True) (checkRowBudget ctx (rows ++ [row])) :=
      checkRowBudget_returns (by simpa using raises)
    cases outcome : checkRowBudget ctx (rows ++ [row]) with
    | ok _ => rfl
    | error reason => exact checked.raised outcome
  · rfl

/-- The errors that are raised anyway, and the one for too many rows. -/
abbrev OrCrowded {τ : Type} (raise : ExecutionError → Prop) (ctx : Ctx)
    (yields : τ → MatchBindings → Prop) (count : Nat) (reason : ExecutionError) : Prop :=
  raise reason ∨ (reason = crowded ctx ∧ Overfull (TooMany ctx) yields count)

section

variable {ctx : QueryCtx} {hops : List Hop} {vid : Int}
  (rest : ∀ next, Kinds vertexNames edgeNames next → Answers (handler env) world
    (OrCrowded raise ctx.toCtx (Walks space world.kv hops vid next) acc.length)
    (Collects (Walks space world.kv hops vid next) acc) (matchEdges fuel ctx space hops vid next acc))

include rest

theorem answers_onward (kinds : ∀ bindings ∈ next, Kinds vertexNames edgeNames bindings)
    (yields : List HopStep → MatchBindings → Prop) (same : ∀ steps row, yields steps row ↔
      ∃ bindings, next = some bindings ∧ Walks space world.kv hops vid bindings steps row) :
    Answers (handler env) world (OrCrowded raise ctx.toCtx yields acc.length) (Collects yields acc)
      (next.elim (pure acc) fun next => matchEdges fuel ctx space hops vid next acc) := by
  cases next with
  | none =>
    refine answers_pure (.none fun steps row yielded => ?_)
    obtain ⟨bindings, impossible, -⟩ := (same steps row).mp yielded
    cases impossible
  | some next =>
    have walks : ∀ steps row, Walks space world.kv hops vid next steps row ↔ yields steps row := by
      simp [same]
    refine answers_mono (rest next (kinds next rfl)) (fun reason => Or.imp_right ?_) fun rows collects => collects.congr walks
    exact fun ⟨isCrowded, overfull⟩ => ⟨isCrowded, overfull.congr fun steps row => (walks steps row).mp⟩

theorem answers_enter (tidy : Tidy space world.kv) (allowed : NodeAllowed raise vertexNames node)
    (binds : Returns raise (fun next => ∀ bindings ∈ next, Kinds vertexNames edgeNames bindings) bound) :
    Answers (handler env) world
      (OrCrowded raise ctx.toCtx (fun steps row => NodeFits space world.kv node vid ∧
        ∃ next, bound.toOption.join = some next ∧ Walks space world.kv hops vid next steps row) acc.length)
      (Collects (fun steps row => NodeFits space world.kv node vid ∧
        ∃ next, bound.toOption.join = some next ∧ Walks space world.kv hops vid next steps row) acc)
      (do
        match ← ofExcept (enterNode node vid (world.kv.get (.vertex space vid)) bound) with
        | some next => matchEdges fuel ctx space hops vid next acc
        | none => pure acc) := by
  refine answers_seq (answers_mono (answers_ofExcept (enterNode_returns tidy allowed binds))
    (fun _ => .inl) fun _ => id) fun next entered => ?_
  rcases entered with ⟨fits, rfl⟩ | ⟨unfit, rfl⟩
  · have onward := answers_onward rest (binds.value rfl) (fun steps row => NodeFits space world.kv node vid ∧ ∃ bindings,
      next = some bindings ∧ Walks space world.kv hops vid bindings steps row) (by simp [fits])
    cases next <;> exact onward
  · exact answers_pure (.none fun steps row holds => unfit holds.1)

theorem answers_begin
    (binds : Returns raise (fun next => ∀ bindings ∈ next, Kinds vertexNames edgeNames bindings) bound) :
    Answers (handler env) world
      (OrCrowded raise ctx.toCtx (fun steps row => ∃ next, bound.toOption.join = some next ∧
        Walks space world.kv hops vid next steps row) acc.length)
      (Collects (fun steps row => ∃ next, bound.toOption.join = some next ∧ Walks space world.kv hops vid next steps row) acc)
      (do
        match ← ofExcept bound with
        | some next => matchEdges fuel ctx space hops vid next acc
        | none => pure acc) := by
  cases bound with
  | error reason => exact answers_fail (.inl binds)
  | ok next =>
    have onward := answers_onward rest binds (fun steps row => ∃ bindings, next = some bindings ∧
      Walks space world.kv hops vid bindings steps row) fun _ _ => .rfl
    cases next <;> exact onward

end

/-- What the hops may be called, and the errors they may raise. -/
abbrev HopAllowed (raise : ExecutionError → Prop) (vertexNames edgeNames : String → Prop) (hop : Hop) : Prop :=
  EdgeAllowed raise edgeNames hop.1 ∧ NodeAllowed raise vertexNames hop.2

theorem renames_hop {γ : Type} {hop : Hop} {hops : List Hop}
    {u : Int} {bindings : MatchBindings} (items : List γ) (toStep : γ → HopStep)
    {bound : γ → Except ExecutionError (Option MatchBindings)} (inj : Function.Injective toStep)
    (listed : ∀ step, HopFits space kv hop u step ↔
      ∃ item ∈ items, toStep item = step ∧ NodeFits space kv hop.2 step.2)
    (binds : ∀ item, bindStep bindings hop (toStep item) = (bound item).toOption.join) :
    Renames (fun find : γ × List HopStep => toStep find.1 :: find.2)
      (fun find row => find.1 ∈ items ∧ NodeFits space kv hop.2 (toStep find.1).2 ∧
        ∃ next, (bound find.1).toOption.join = some next ∧
        Walks space kv hops (toStep find.1).2 next find.2 row)
      (Walks space kv (hop :: hops) u bindings) where
  inj := by
    rintro ⟨item, steps⟩ ⟨other, steps'⟩ _ _ - - same
    rw [List.cons.injEq] at same
    exact Prod.ext (inj same.1) same.2
  sound := by
    rintro ⟨item, steps⟩ row ⟨mem, fits, next, bind, walks⟩
    exact walks_cons.mpr ⟨toStep item, steps, next, rfl, (listed _).mpr ⟨item, mem, rfl, fits⟩, (binds item).trans bind, walks⟩
  complete := by
    intro steps row walks
    obtain ⟨step, rest, next, rfl, fits, bind, walks⟩ := walks_cons.mp walks
    obtain ⟨item, mem, rfl, fits⟩ := (listed step).mp fits
    exact ⟨(item, rest), rfl, mem, fits, next, (binds item).symm.trans bind, walks⟩

theorem answers_matchEdges (tidy : Tidy space world.kv)
    (mixed : Clashes raise vertexNames edgeNames) (fuel : Nat) (ctx : QueryCtx)
    (allowed : ∀ hop ∈ hops, HopAllowed raise vertexNames edgeNames hop) (u : Int)
    (kinds : Kinds vertexNames edgeNames bindings) (rows : List MatchBindings) :
    Answers (handler env) world (OrCrowded raise ctx.toCtx (Walks space world.kv hops u bindings) rows.length)
      (Collects (Walks space world.kv hops u bindings) rows) (matchEdges fuel ctx space hops u bindings rows) := by
  induction hops generalizing u bindings rows with
  | nil =>
    refine answers_imp (answers_ofExcept (pushRow_returns fun many => ?_)) ?_
    · exact .inr ⟨rfl, .one (walks_nil.mpr ⟨rfl, rfl⟩) many⟩
    · rintro _ rfl
      exact .one [] bindings fun steps row => walks_nil
  | cons hop hops ih =>
    obtain ⟨⟨edgeAllowed, nodeAllowed⟩, later⟩ := List.forall_mem_cons.mp allowed
    obtain ⟨edge, node⟩ := hop
    unfold matchEdges
    cases range : edge.range with
    | none =>
      refine answers_seq (answers_imp (answers_neighborsForDirection
        tidy.edges u edge.edgeTypes edge.direction) fun _ => id) fun neighbors listed => ?_
      refine answers_seq (answers_mono (surviving_answers edgeAllowed neighbors) (fun _ => .inl) fun _ => id)
        fun fitting kept => ?_
      refine answers_bind (answers_batchGet ?_)
      rw [List.map_map, ← List.map_prod_left_eq_zip, List.foldlM_map]
      have renames : Renames _ _ (Walks space world.kv ((edge, node) :: hops) u bindings) :=
        renames_hop fitting (fun neighbor => (some neighbor.edge, neighbor.dst)) ?_ ?_ fun _ => rfl
      · refine answers_mono (answers_collect (listed.nodup.sublist kept.1) fun neighbor mem acc =>
          answers_enter (fun next bound => ih later neighbor.dst bound acc) tidy nodeAllowed
            (bindHop_returns kinds mixed edgeAllowed.named nodeAllowed.named neighbor)) ?_ ?_
        · exact fun reason => Or.imp_right (And.imp_right (·.rename renames))
        · exact fun _ collects => collects.rename renames
      · rintro ⟨u, left⟩ ⟨v, right⟩ same
        simp only [Prod.mk.injEq, Option.some.injEq] at same
        rw [same.1, same.2]
      · intro step
        rw [hopFits_fixed range]
        constructor
        · rintro ⟨own, link, isNeighbor, props, fits⟩
          exact ⟨⟨step.2, own⟩, (kept.2 _).mpr ⟨(listed.mem _).mpr isNeighbor, props⟩, Prod.ext link.symm rfl, fits⟩
        · rintro ⟨neighbor, mem, rfl, fits⟩
          obtain ⟨among, props⟩ := (kept.2 _).mp mem
          exact ⟨neighbor.edge, rfl, (listed.mem _).mp among, props, fits⟩
    | some range' =>
      have anything := edgeAllowed.ranged (by simp [range])
      refine answers_seq (answers_mono (answers_expandVarLength tidy.edges anything edgeAllowed fuel ctx u range')
        (fun _ => .inl) fun _ => id) fun terminals listed => ?_
      refine answers_bind (answers_batchGet ?_)
      rw [List.map_map, ← List.map_prod_left_eq_zip, List.foldlM_map]
      have renames : Renames _ _ (Walks space world.kv ((edge, node) :: hops) u bindings) :=
        renames_hop terminals (fun vid => (none, vid)) ?_ ?_ fun _ => rfl
      · refine answers_mono (answers_collect listed.nodup fun vid mem acc =>
          answers_enter (fun next bound => ih later vid bound acc) tidy nodeAllowed
            (bindNode_returns kinds mixed nodeAllowed.named vid)) ?_ ?_
        · exact fun reason => Or.imp_right (And.imp_right (·.rename renames))
        · exact fun _ collects => collects.rename renames
      · exact fun left right same => (Prod.mk.inj same).2
      · intro step
        rw [hopFits_ranged range]
        constructor
        · rintro ⟨link, spans, fits⟩
          exact ⟨step.2, (listed.mem _).mpr spans, Prod.ext link.symm rfl, fits⟩
        · rintro ⟨vid, mem, rfl, fits⟩
          exact ⟨rfl, (listed.mem _).mp mem, fits⟩

/-- The vertex a pattern starts from and the steps from there. -/
abbrev Trail := Int × List HopStep

def bindTrail (bindings : MatchBindings) (flat : FlatPattern) (trail : Trail) : Option MatchBindings :=
  (bindStart bindings flat.start trail.1).toOption.join.bind fun next => bindSteps next flat.hops trail.2

def Fits (space : String) (kv : KV) (flat : FlatPattern) (trail : Trail) : Prop :=
  NodeFits space kv flat.start trail.1 ∧ Follows space kv flat.hops trail.1 trail.2

/-- The trail is one of the pattern and leads to these bindings. -/
def Matches (space : String) (kv : KV) (flat : FlatPattern) (bindings : MatchBindings)
    (trail : Trail) (row : MatchBindings) : Prop :=
  Fits space kv flat trail ∧ bindTrail bindings flat trail = some row

structure FlatAllowed (space : String) (kv : KV) (raise : ExecutionError → Prop)
    (vertexNames edgeNames : String → Prop) (flat : FlatPattern) : Prop where
  start : NodeAllowed raise vertexNames flat.start
  anonymous : ∀ vid, NodeFits space kv flat.start vid → flat.start.variableName = none → vertexNames anonymousStart
  hops : ∀ hop ∈ flat.hops, HopAllowed raise vertexNames edgeNames hop

section

variable {flat : FlatPattern} {bindings : MatchBindings}

theorem bindStart_returns (kinds : Kinds vertexNames edgeNames bindings)
    (mixed : Clashes raise vertexNames edgeNames)
    (allowed : FlatAllowed space kv raise vertexNames edgeNames flat)
    (fits : NodeFits space kv flat.start vid) : Returns raise (fun next =>
      ∀ bound ∈ next, Kinds vertexNames edgeNames bound) (bindStart bindings flat.start vid) := by
  unfold bindStart
  split
  · rename_i name named
    exact bindVertexVariable_returns kinds mixed (allowed.start.named name named) vid
  · rename_i unnamed
    intro bound same
    cases same
    refine ⟨kinds.edges, fun name value found noEdge => ?_⟩
    rw [get_insert] at found
    split at found
    · rename_i same
      cases found
      exact .inl ⟨vid, rfl, same ▸ allowed.anonymous vid fits unnamed⟩
    · exact kinds.values name value found noEdge

theorem bindStart_bound (bound : alreadyBoundVid flat bindings = some vid)
    (binds : (bindStart bindings flat.start v).toOption.join = some next) : v = vid := by
  unfold alreadyBoundVid at bound
  unfold bindStart bindVertexVariable at binds
  cases named : flat.start.variableName with
  | none => simp [named] at bound
  | some name =>
    simp only [named, Option.bind_some] at bound binds
    split at bound
    · rename_i value found
      cases bound
      simp only [found] at binds
      split at binds
      · simp [Except.toOption] at binds
      · split at binds
        · rename_i same
          exact same.symm
        · simp [Except.toOption] at binds
    · cases bound

theorem startBinding_returns (kinds : Kinds vertexNames edgeNames bindings)
    (mixed : Clashes raise vertexNames edgeNames)
    (allowed : FlatAllowed space kv raise vertexNames edgeNames flat) : Returns raise
      (fun proceeds => proceeds = false → ∀ vid, (bindStart bindings flat.start vid).toOption.join =
      none) (startBinding bindings flat.start) := by
  unfold startBinding
  split
  · simp
  · rename_i name named
    split
    · rename_i isEdge
      obtain ⟨edge, found⟩ := Option.isSome_iff_exists.mp isEdge
      exact mixed name (allowed.start.named name named) (kinds.edges name edge found)
    · rename_i noEdge
      split
      · rename_i isNull
        intro _ vid
        simp [bindStart, named, bindVertexVariable, noEdge, isNull, Except.toOption]
      · simp

theorem answers_startCandidates (tidy : Tidy space world.kv)
    (allowed : FlatAllowed space world.kv raise vertexNames edgeNames flat)
    (finds : Finds env ctx space world raise flat) :
    (startCandidates ctx space flat.start (alreadyBoundVid flat bindings)).Answers
      (handler env) world raise fun vids =>
      Enumerates vids fun vid => NodeFits space world.kv flat.start vid ∧
      ∀ bound ∈ alreadyBoundVid flat bindings, vid = bound := by
  cases already : alreadyBoundVid flat bindings with
  | none => exact answers_imp finds fun vids listed => ⟨listed.nodup, fun vid => by simp [listed.mem]⟩
  | some bound =>
    refine answers_bind (answers_get ?_)
    cases found : world.kv.get (.vertex space bound) with
    | none =>
      refine answers_pure ⟨.nil, fun vid => ?_⟩
      simp only [List.not_mem_nil, Option.mem_def, Option.some.injEq, forall_eq', false_iff, not_and]
      rintro ⟨vertex, stored, -⟩ rfl
      rw [found] at stored
      cases stored
    | some value =>
      refine answers_seq (answers_ofExcept (matchesNode_returns tidy allowed.start found)) fun result same => ?_
      refine answers_pure ⟨by split <;> simp, fun vid => ?_⟩
      simp only [Option.mem_def, Option.some.injEq, forall_eq']
      split
      · rename_i fits
        rw [List.mem_singleton]
        exact ⟨fun here => ⟨here ▸ same.mp fits, here⟩, And.right⟩
      · rename_i unfit
        simp only [List.not_mem_nil, false_iff, not_and]
        rintro fits rfl
        exact unfit (same.mpr fits)

theorem answers_matchFlatPattern (tidy : Tidy space world.kv)
    (mixed : Clashes raise vertexNames edgeNames) (fuel : Nat) (ctx : QueryCtx)
    (allowed : FlatAllowed space world.kv raise vertexNames edgeNames flat)
    (kinds : Kinds vertexNames edgeNames bindings) (finds : Finds env ctx space world raise flat) :
    Answers (handler env) world (OrCrowded raise ctx.toCtx (Matches space world.kv flat bindings) 0)
      (Collects (Matches space world.kv flat bindings) [])
      (matchFlatPattern fuel ctx space flat bindings none (alreadyBoundVid flat bindings)) := by
  refine answers_seq (answers_mono (answers_ofExcept (startBinding_returns kinds mixed allowed)) (fun _ => .inl)
    fun _ => id) fun proceeds isNull => ?_
  cases proceeds with
  | false =>
    refine answers_pure (.none fun trail row matched => ?_)
    rw [Matches, bindTrail, isNull rfl] at matched
    cases matched.2
  | true =>
    refine answers_seq (answers_mono (answers_startCandidates tidy allowed finds) (fun _ => .inl) fun _ => id)
      fun candidates listed => ?_
    have renames : Renames id
        (fun (find : Int × List HopStep) row => find.1 ∈ candidates ∧ ∃ next,
          (bindStart bindings flat.start find.1).toOption.join = some next ∧
            Walks space world.kv flat.hops find.1 next find.2 row)
        (Matches space world.kv flat bindings) := by
      refine ⟨fun _ _ => id, fun {trail row} => ?_, fun {trail row} => ?_⟩
      · rintro ⟨mem, next, binds, follows, bound⟩
        exact ⟨⟨((listed.mem _).mp mem).1, follows⟩, by simp [bindTrail, binds, bound]⟩
      · rintro ⟨⟨fits, follows⟩, bound⟩
        obtain ⟨next, binds, bound⟩ := Option.bind_eq_some_iff.mp bound
        refine ⟨trail, rfl, (listed.mem _).mpr ⟨fits,
          fun vid already => bindStart_bound already binds⟩, next, binds, follows, bound⟩
    refine answers_mono (answers_collect listed.nodup fun vid mem acc =>
      answers_begin (fun next bound => answers_matchEdges tidy mixed fuel ctx allowed.hops vid bound acc)
        (bindStart_returns kinds mixed allowed ((listed.mem vid).mp mem).1)) ?_ ?_
    · exact fun reason => Or.imp_right fun ⟨same, overfull⟩ => ⟨same, overfull.rename renames⟩
    · exact fun _ collects => collects.rename renames

end

end ByoriDB.Executor
