import ByoriDB.Executor.Go
import ByoriDB.Executor.Runs

namespace ByoriDB.Executor

open List Data Program Store ByoriDB.Graph

variable {env : Env} {world : World} {space : String}

/-- A stored edge of one of the types leads from a vertex to this neighbour. -/
def IsNeighbor (space : String) (kv : KV) (edgeTypes : List String)
    (direction : EdgeDirection) (vid : Int) (neighbor : GraphNeighbor) : Prop :=
  HasEdge space kv neighbor.edge ∧ OfType edgeTypes neighbor.edge ∧ Leads neighbor.edge vid neighbor.dst direction

theorem allows_iff : Allows space kv edgeTypes direction u v ↔
      ∃ neighbor, IsNeighbor space kv edgeTypes direction u neighbor ∧ neighbor.dst = v := by
  constructor
  · rintro ⟨edge, allowed⟩
    exact ⟨⟨v, edge⟩, allowed, rfl⟩
  · rintro ⟨neighbor, allowed, rfl⟩
    exact ⟨neighbor.edge, allowed⟩

theorem Legible.mem_neighbors (legible : Legible space kv) (incoming : Bool) :
    neighbor ∈ ((env.arrange (kv.select (edgesAt space incoming vid).covers)).filter fun entry =>
        admitsType edgeTypes entry.1).filterMap (decodeNeighbor (farEnd incoming)) ↔
      IsNeighbor space kv edgeTypes (if incoming then .incoming else .outgoing) vid neighbor := by
  rw [mem_filterMap, IsNeighbor, leads_farEnd]
  constructor
  · rintro ⟨entry, mem, decoded⟩
    obtain ⟨mem, admitted⟩ := mem_filter.mp mem
    obtain ⟨edge, stored, -, here, rfl⟩ := (legible.mem_edges incoming).mp mem
    cases decoded
    exact ⟨stored, admitsType_edgeEntry.mp admitted, here, rfl⟩
  · rintro ⟨stored, typed, here, there⟩
    refine ⟨_, mem_filter.mpr ⟨(legible.mem_edges incoming).mpr ⟨_, stored, legible.named stored, here, rfl⟩,
      admitsType_edgeEntry.mpr typed⟩, ?_⟩
    simp [decodeNeighbor, edgeEntry, there]

section

variable (legible : Legible space world.kv)

include legible

theorem answers_getNeighbors (vid : Int) (edgeTypes : List String) :
    (getNeighbors space vid edgeTypes).Answers (handler env) world raise fun neighbors =>
      ∀ neighbor, neighbor ∈ neighbors ↔ IsNeighbor space world.kv edgeTypes .outgoing vid neighbor :=
  answers_bind (answers_scanPrefix (answers_pure fun _ => legible.mem_neighbors false))

theorem answers_getIncomingNeighbors (vid : Int) (edgeTypes : List String) :
    (getIncomingNeighbors space vid edgeTypes).Answers (handler env) world raise fun neighbors =>
      ∀ neighbor, neighbor ∈ neighbors ↔ IsNeighbor space world.kv edgeTypes .incoming vid neighbor :=
  answers_bind (answers_scanPrefix (answers_pure fun _ => legible.mem_neighbors true))

theorem answers_neighbors (plan : GoPlan) (vid : Int) :
    (plan.neighbors space vid).Answers (handler env) world raise fun neighbors =>
      ∀ neighbor, neighbor ∈ neighbors ↔ IsNeighbor space world.kv plan.overEdges plan.direction vid neighbor := by
  rw [GoPlan.neighbors]
  cases direction : plan.direction with
  | outgoing => exact answers_getNeighbors legible vid plan.overEdges
  | incoming => exact answers_getIncomingNeighbors legible vid plan.overEdges
  | undirected =>
    refine answers_seq (answers_getNeighbors legible vid plan.overEdges) fun neighbors outgoing => ?_
    refine answers_seq (answers_getIncomingNeighbors legible vid plan.overEdges) fun neighbors' incoming => ?_
    refine answers_pure fun neighbor => ?_
    rw [mem_append, outgoing, incoming]
    simp only [IsNeighbor, Leads]
    tauto

end

section

variable (step : Int → Int → Prop) (isNeighbor : Int → GraphNeighbor → Prop) (src : Int) (minSteps : Nat)

/-- The edge to this neighbour is passed at one of the first `k` hops, or it is one
of those passed since. -/
def Passes (k : Nat) (passed : Int → GraphNeighbor → Prop) (neighbor : GraphNeighbor) : Prop :=
  ∃ hop vid, minSteps ≤ hop ∧
    (1 ≤ hop ∧ hop ≤ k ∧ AtDistance step src (hop - 1) vid ∧ isNeighbor vid neighbor ∨ hop = k + 1 ∧ passed vid neighbor)

/-- The rows are one for each identity of an edge that was passed, after the start
vertex itself. -/
structure ReportsRows (passes : GraphNeighbor → Prop) (rows : List GoRow) (reported : List (Int × String × Int)) : Prop where
  listed : ∃ found : List GraphNeighbor, rows = (if minSteps = 0 then [⟨src, src, none⟩] else []) ++
    found.map (fun neighbor => ⟨src, neighbor.dst, some neighbor.edge⟩) ∧ reported = found.map GraphNeighbor.identity ∧
    ∀ neighbor ∈ found, passes neighbor
  distinct : reported.Nodup
  complete : ∀ neighbor, passes neighbor → neighbor.identity ∈ reported

structure GoSearch.Valid (k : Nat) (passed : Int → GraphNeighbor → Prop) (search : GoSearch) : Prop where
  level : Level step src k (fun u v => ∃ neighbor, passed u neighbor ∧ neighbor.dst = v) (· ∈ search.visited) search.nextFrontier
  reports : ReportsRows src minSteps (Passes step isNeighbor src minSteps k passed) search.rows search.reported

variable {step isNeighbor src minSteps} {search : GoSearch} {vid : Int}

theorem ReportsRows.congr {passes : GraphNeighbor → Prop} (reports : ReportsRows src minSteps passes rows reported)
    (same : ∀ neighbor, passes' neighbor ↔ passes neighbor) : ReportsRows src minSteps passes' rows reported := by
  obtain rfl : passes' = passes := funext fun neighbor => propext (same neighbor)
  exact reports

theorem GoSearch.Valid.congr (valid : search.Valid step isNeighbor src minSteps k passed)
    (same : ∀ u neighbor, passed' u neighbor ↔ passed u neighbor) :
    search.Valid step isNeighbor src minSteps k passed' := by
  obtain rfl : passed' = passed := funext fun u => funext fun neighbor => propext (same u neighbor)
  exact valid

theorem ReportsRows.report (vid : Int) (neighbor : GraphNeighbor) (reports : ReportsRows
      src minSteps (Passes step isNeighbor src minSteps k passed) search.rows search.reported) :
    ReportsRows src minSteps (Passes step isNeighbor src minSteps k fun u other => (u = vid ∧
      other = neighbor) ∨ passed u other) (search.report src minSteps (k + 1) neighbor).rows
      (search.report src minSteps (k + 1) neighbor).reported := by
  obtain ⟨⟨found, rows, reported, passes⟩, distinct, complete⟩ := reports
  have more : ∀ other, Passes step isNeighbor src minSteps k
    (fun u other => (u = vid ∧ other = neighbor) ∨ passed u other) other ↔
      (minSteps ≤ k + 1 ∧ other = neighbor) ∨ Passes step isNeighbor src minSteps k passed other := by
    intro other
    constructor
    · rintro ⟨hop, u, from_, early | ⟨rfl, ⟨-, rfl⟩ | late⟩⟩
      · exact .inr ⟨hop, u, from_, .inl early⟩
      · exact .inl ⟨from_, rfl⟩
      · exact .inr ⟨k + 1, u, from_, .inr ⟨rfl, late⟩⟩
    · rintro (⟨from_, rfl⟩ | ⟨hop, u, from_, early | ⟨rfl, late⟩⟩)
      · exact ⟨k + 1, vid, from_, .inr ⟨rfl, .inl ⟨rfl, rfl⟩⟩⟩
      · exact ⟨hop, u, from_, .inl early⟩
      · exact ⟨k + 1, u, from_, .inr ⟨rfl, .inr late⟩⟩
  rw [GoSearch.report]
  split
  · rename_i new
    refine ⟨⟨found ++ [neighbor], by simp [rows], by simp [reported], ?_⟩, ?_, ?_⟩
    · intro other mem
      rw [more]
      rcases mem_append.mp mem with old | last
      · exact .inr (passes other old)
      · exact .inl ⟨new.1, mem_singleton.mp last⟩
    · refine nodup_append.mpr ⟨distinct, nodup_singleton _, ?_⟩
      rintro identity mem _ last rfl
      rw [mem_singleton.mp last] at mem
      exact new.2 mem
    · intro other passing
      rw [mem_append, mem_singleton]
      rcases (more other).mp passing with ⟨-, rfl⟩ | old
      · exact .inr rfl
      · exact .inl (complete other old)
  · rename_i old
    refine ⟨⟨found, rows, reported, fun other mem => (more other).mpr (.inr (passes other mem))⟩, distinct, ?_⟩
    intro other passing
    rcases (more other).mp passing with ⟨from_, rfl⟩ | before
    · by_contra absent
      exact old ⟨from_, absent⟩
    · exact complete other before

theorem GoSearch.Valid.pass (valid : search.Valid step isNeighbor src minSteps k passed)
    (here : AtDistance step src k vid) (edge : step vid neighbor.dst) :
    (search.pass src minSteps (k + 1) neighbor).Valid step isNeighbor src minSteps k
      fun u other => (u = vid ∧ other = neighbor) ∨ passed u other := by
  have more : ∀ a b, (∃ other, ((a = vid ∧ other = neighbor) ∨ passed a other) ∧ other.dst = b) ↔
      (a = vid ∧ b = neighbor.dst) ∨ ∃ other, passed a other ∧ other.dst = b := by
    intro a b
    constructor
    · rintro ⟨other, ⟨rfl, rfl⟩ | before, rfl⟩
      · exact .inl ⟨rfl, rfl⟩
      · exact .inr ⟨other, before, rfl⟩
    · rintro (⟨rfl, rfl⟩ | ⟨other, before, rfl⟩)
      · exact ⟨neighbor, .inl ⟨rfl, rfl⟩, rfl⟩
      · exact ⟨other, .inr before, rfl⟩
  have reports := valid.reports.report vid neighbor
  have visited : (search.report src minSteps (k + 1) neighbor).visited = search.visited := by
    rw [GoSearch.report]
    split <;> rfl
  have next : (search.report src minSteps (k + 1) neighbor).nextFrontier = search.nextFrontier := by
    rw [GoSearch.report]
    split <;> rfl
  rw [GoSearch.pass, GoSearch.visit]
  split
  · rename_i known
    refine ⟨?_, reports⟩
    rw [visited] at known ⊢
    rw [next]
    exact valid.level.known known more
  · rename_i fresh
    refine ⟨?_, reports⟩
    rw [visited] at fresh
    rw [visited, next]
    exact valid.level.fresh here edge fresh more (by simp)

theorem GoSearch.Valid.passes (here : AtDistance step src k vid) {neighbors : List GraphNeighbor}
    (edges : ∀ neighbor ∈ neighbors, step vid neighbor.dst) (search : GoSearch)
    (valid : search.Valid step isNeighbor src minSteps k passed) :
    (neighbors.foldl (GoSearch.pass src minSteps (k + 1)) search).Valid step isNeighbor
      src minSteps k fun u neighbor => (u = vid ∧ neighbor ∈ neighbors) ∨ passed u neighbor := by
  induction neighbors generalizing search passed with
  | nil => exact valid.congr (by simp)
  | cons neighbor rest ih =>
    refine (ih (fun other mem => edges other (.tail _ mem)) _
      (valid.pass here (edges neighbor (.head _)))).congr fun u other => ?_
    rw [mem_cons]
    tauto

theorem GoSearch.Valid.advance (valid : search.Valid step isNeighbor src minSteps k passed)
    (meaning : ∀ u v, step u v ↔ ∃ neighbor, isNeighbor u neighbor ∧ neighbor.dst = v)
    (all : ∀ u neighbor, passed u neighbor ↔ AtDistance step src k u ∧ isNeighbor u neighbor) :
    (∀ v, v ∈ search.nextFrontier ↔ AtDistance step src (k + 1) v) ∧ search.nextFrontier.Nodup ∧
      { search with nextFrontier := [] }.Valid step isNeighbor src minSteps (k + 1) fun _ _ => False := by
  have tried : ∀ u v, AtDistance step src k u → step u v → ∃ neighbor, passed u neighbor ∧ neighbor.dst = v := by
    intro u v near edge
    obtain ⟨neighbor, allowed, there⟩ := (meaning u v).mp edge
    exact ⟨neighbor, (all u neighbor).mpr ⟨near, allowed⟩, there⟩
  refine ⟨valid.level.mem_next tried, valid.level.distinct, ?_, valid.reports.congr fun neighbor => ?_⟩
  · simpa using valid.level.advance tried
  · constructor
    · rintro ⟨hop, u, from_, ⟨positive, below, near, allowed⟩ | ⟨-, impossible⟩⟩
      · rcases Nat.lt_or_ge k hop with above | within
        · obtain rfl : hop = k + 1 := by omega
          exact ⟨k + 1, u, from_, .inr ⟨rfl, (all u neighbor).mpr ⟨near, allowed⟩⟩⟩
        · exact ⟨hop, u, from_, .inl ⟨positive, within, near, allowed⟩⟩
      · cases impossible
    · rintro ⟨hop, u, from_, ⟨positive, below, near, allowed⟩ | ⟨rfl, taken⟩⟩
      · exact ⟨hop, u, from_, .inl ⟨positive, by omega, near, allowed⟩⟩
      · exact ⟨k + 1, u, from_, .inl ⟨by omega, Nat.le_refl _, (all u neighbor).mp taken⟩⟩

end

section

variable (plan : GoPlan) (space : String) (kv : KV)

abbrev GoPlan.step : Int → Int → Prop :=
  Allows space kv plan.overEdges plan.direction

/-- An edge to this neighbour leaves a vertex at a distance that the hops in
question come after. -/
def GoPlan.Reaches (src : Int) (neighbor : GraphNeighbor) : Prop :=
  ∃ hop vid, plan.steps.bounds.1 ≤ hop ∧ 1 ≤ hop ∧ hop ≤ plan.steps.bounds.2 ∧
    AtDistance (plan.step space kv) src (hop - 1) vid ∧ IsNeighbor space kv plan.overEdges plan.direction vid neighbor

/-- The rows of a start vertex: the vertex itself if no step is enough, and one row
for each neighbour, edge type and rank that is reached. -/
def GoPlan.IsAnswer (src : Int) (rows : List GoRow) : Prop :=
  ∃ reported, ReportsRows src plan.steps.bounds.1 (plan.Reaches space kv src) rows reported

end

variable {plan : GoPlan} {src : Int}

theorem answers_goExpand (legible : Legible space world.kv)
    (here : AtDistance (plan.step space world.kv) src k vid) (valid : search.Valid (plan.step space
      world.kv) (IsNeighbor space world.kv plan.overEdges plan.direction) src minSteps k passed) :
    (goExpand space plan src minSteps (k + 1) search vid).Answers
      (handler env) world raise fun search' => search'.Valid (plan.step space world.kv)
      (IsNeighbor space world.kv plan.overEdges plan.direction) src minSteps k fun u neighbor =>
        (u = vid ∧ IsNeighbor space world.kv plan.overEdges plan.direction u neighbor) ∨
        passed u neighbor := by
  refine answers_seq (answers_neighbors legible plan vid) fun neighbors members => answers_pure ?_
  have edges : ∀ neighbor ∈ neighbors, plan.step space world.kv vid neighbor.dst :=
    fun neighbor mem => allows_iff.mpr ⟨neighbor, (members neighbor).mp mem, rfl⟩
  refine (GoSearch.Valid.passes here edges search valid).congr fun u neighbor => or_congr_left (and_congr_right fun same => ?_)
  rw [same, members]

theorem GoSearch.Valid.isAnswer {search : GoSearch} (valid : search.Valid (plan.step space kv)
    (IsNeighbor space kv plan.overEdges plan.direction) src plan.steps.bounds.1 k fun _ _ => False)
    (within : k ≤ plan.steps.bounds.2)
    (past : k = plan.steps.bounds.2 ∨ ∀ v, ¬ AtDistance (plan.step space kv) src k v) :
    plan.IsAnswer space kv src search.rows := by
  refine ⟨search.reported, valid.reports.congr fun neighbor => ⟨?_, ?_⟩⟩
  · rintro ⟨hop, vid, from_, positive, below, near, allowed⟩
    refine ⟨hop, vid, from_, .inl ⟨positive, ?_, near, allowed⟩⟩
    by_contra above
    rcases past with rfl | none
    · exact above below
    · obtain ⟨u, layer⟩ := near.layer (show k ≤ hop - 1 by omega)
      exact none u layer
  · rintro ⟨hop, vid, from_, ⟨positive, below, near, allowed⟩ | ⟨-, impossible⟩⟩
    · exact ⟨hop, vid, from_, positive, by omega, near, allowed⟩
    · cases impossible

theorem answers_goHops {frontier : List Int} (legible : Legible space world.kv) (bounded : k + left = plan.steps.bounds.2)
    (distinct : frontier.Nodup) (members : ∀ v, v ∈ frontier ↔ AtDistance (plan.step space world.kv) src k v)
    (valid : { search with nextFrontier := [] }.Valid (plan.step space world.kv)
      (IsNeighbor space world.kv plan.overEdges plan.direction) src plan.steps.bounds.1 k fun _ _ => False) :
    (goHops space plan src plan.steps.bounds.1 left (k + 1) frontier search).Answers (handler env) world raise fun search' =>
      plan.IsAnswer space world.kv src search'.rows := by
  induction left generalizing k frontier search with
  | zero => exact answers_pure (valid.isAnswer (by omega) (.inl (by omega)))
  | succ left ih =>
    refine answers_seq (answers_foldlM_done (fun done search' => search'.Valid (plan.step space world.kv)
      (IsNeighbor space world.kv plan.overEdges plan.direction) src plan.steps.bounds.1 k
      fun u neighbor => done u ∧ IsNeighbor space world.kv plan.overEdges plan.direction u neighbor)
      distinct (valid.congr (by simp)) ?_) ?_
    · intro vid mem done search' _ valid'
      refine answers_imp (answers_goExpand legible ((members vid).mp mem) valid') fun search'' valid'' => ?_
      exact valid''.congr fun u neighbor => or_and_right
    · intro search' valid'
      obtain ⟨members', distinct', next⟩ := valid'.advance (fun _ _ => allows_iff) (fun u neighbor => by simp [members])
      split
      · rename_i empty
        rw [List.isEmpty_iff] at empty
        refine answers_pure (next.isAnswer (by omega) (.inr fun v far => ?_))
        rw [← members', empty] at far
        cases far
      · exact ih (by omega) distinct' members' next

theorem answers_goFrom (legible : Legible space world.kv) :
    (goFrom space plan src).Answers (handler env) world raise (plan.IsAnswer space world.kv src) := by
  refine answers_seq (answers_goHops legible (Nat.zero_add _) (nodup_singleton src) (fun v => ?_) ⟨?_, ?_⟩)
    fun search answer => answers_pure answer
  · rw [mem_singleton]
    exact ⟨fun same => same ▸ atDistance_start _ _, fun far => far.eq_start⟩
  · simpa using Level.init (plan.step space world.kv) (by simp)
  · refine ⟨⟨[], (append_nil _).symm, rfl, by simp⟩, .nil, ?_⟩
    rintro neighbor ⟨hop, vid, -, ⟨positive, below, -⟩ | ⟨-, impossible⟩⟩
    · omega
    · cases impossible

theorem answers_representativeOf (flat : Flat space world.kv) :
    (representativeOf space vid).Answers (handler env) world raise (· = repAt space world.kv vid) := by
  refine answers_bind (answers_get ?_)
  cases found : world.kv.get (sameas space vid) with
  | none => exact answers_pure (by rw [repAt, found])
  | some value =>
    obtain ⟨rep, rfl, below, last⟩ := flat.pointer vid value found
    simp only [decodeInternal]
    rw [if_neg (Int.ne_of_lt below), followSameas]
    refine answers_bind (answers_get ?_)
    rw [last]
    exact answers_pure (by rw [repAt, found])

/-- The limit on the number of steps is reported. -/
def ExceedsSteps (ctx : QueryCtx) (plan : GoPlan) (reason : ExecutionError) : Prop :=
  0 < ctx.maxGoSteps ∧ ctx.maxGoSteps < plan.steps.bounds.2 ∧
    reason = .invalidOperation s!"GO step count {plan.steps.bounds.2} exceeds maximum allowed {ctx.maxGoSteps}"

/-- The rows are those of the start vertices one after the other, each with the neighbours it reaches. -/
theorem goTraversal_rows (legible : Legible space world.kv)
    (flat : Flat space world.kv) (ctx : QueryCtx) (plan : GoPlan)
    (fromVids : List Int) : (goTraversal ctx space plan fromVids).Answers
      (handler env) world (ExceedsSteps ctx plan) fun rows => ∃ parts,
      Forall₂ (fun vid => plan.IsAnswer space world.kv (repAt space world.kv vid)) fromVids parts ∧
        rows = parts.flatten := by
  refine answers_seq (answers_mapM _ fun vid _ => answers_representativeOf flat) fun starts same => ?_
  obtain rfl := eq_map_of_forall₂ same
  dsimp only
  split
  · rename_i exceeded
    exact answers_fail ⟨exceeded.1, exceeded.2, rfl⟩
  · refine answers_seq (answers_mapM _ fun vid _ => answers_goFrom legible) fun parts answers => ?_
    exact answers_pure ⟨parts, forall₂_map_left_iff.mp answers, rfl⟩

theorem goTraversal_rows_acquaintances : (goTraversal ⟨graphCtx,
      0, 2⟩ "g" ⟨["knows"], .incoming, .range 0 2⟩ [1, 3]).Answers (handler graphEnv) acquaintances
      (ExceedsSteps ⟨graphCtx, 0, 2⟩ ⟨["knows"], .incoming, .range 0 2⟩) fun rows => ∃ parts,
      Forall₂ (fun vid => GoPlan.IsAnswer ⟨["knows"], .incoming, .range 0 2⟩ "g" acquaintances.kv
        (repAt "g" acquaintances.kv vid)) [1, 3] parts ∧ rows = parts.flatten :=
  goTraversal_rows legible_acquaintances flat_storeEdges ⟨graphCtx, 0, 2⟩ ⟨["knows"], .incoming, .range 0 2⟩ [1, 3]

example : ((goTraversal ⟨graphCtx, 0, 2⟩ "g" ⟨[], .outgoing, .exactly 2⟩ [1]).run (handler graphEnv) acquaintances).1.toOption.map
    (·.map fun row => (row.src, row.dst)) = some [(1, 3), (1, 4)] := by decide +kernel

end ByoriDB.Executor
