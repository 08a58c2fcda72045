import ByoriDB.Data.Dijkstra
import ByoriDB.Executor.ShortestPath
import ByoriDB.Executor.Weighted
import Mathlib.Algebra.Order.Ring.Rat
import Mathlib.Data.List.ProdSigma

namespace ByoriDB.Executor

open List Data Program Store ByoriDB.Graph

variable {env : Env} {world : World} {kv : KV} {query : WeightedQuery} {search : WeightedSearch}

theorem heapPush_perm (entry : ℚ × HopState) : (heapPush entry heap).Perm (entry :: heap) := by
  induction heap with
  | nil => exact .refl _
  | cons first rest ih =>
    rw [heapPush]
    split
    · exact .refl _
    · exact (ih.cons first).trans (.swap entry first rest)

theorem heapPush_sorted (sorted : heap.Pairwise fun left right => left.1 ≤ right.1) :
    (heapPush entry heap).Pairwise fun left right => left.1 ≤ right.1 := by
  induction heap with
  | nil => exact pairwise_singleton _ _
  | cons first rest ih =>
    obtain ⟨least, sorted⟩ := pairwise_cons.mp sorted
    rw [heapPush]
    split
    · rename_i before
      have below : entry.1 ≤ first.1 := by
        simp only [heapBefore, Bool.or_eq_true, decide_eq_true_eq, Bool.and_eq_true, beq_iff_eq] at before
        rcases before with less | ⟨same, -⟩
        · exact le_of_lt less
        · exact le_of_eq same
      refine pairwise_cons.mpr ⟨fun other mem => ?_, pairwise_cons.mpr ⟨least, sorted⟩⟩
      rcases mem_cons.mp mem with rfl | later
      · exact below
      · exact below.trans (least other later)
    · rename_i after
      have below : first.1 ≤ entry.1 := by
        simp only [heapBefore, Bool.or_eq_true, decide_eq_true_eq, not_or] at after
        exact le_of_not_gt after.1
      refine pairwise_cons.mpr ⟨fun other mem => ?_, ih sorted⟩
      rcases mem_cons.mp ((heapPush_perm entry).mem_iff.mp mem) with rfl | later
      · exact below
      · exact least other later

section

variable (query : WeightedQuery) (space : String) (kv : KV)

/-- A stored edge of one of the types leads from one vertex to the other and has
this weight. -/
def Weighs (u v : Int) (weight : ℚ) : Prop :=
  ∃ edge, HasEdge space kv edge ∧ OfType query.edgeTypes edge ∧ edge.srcVid = u ∧ edge.dstVid = v ∧
    edgeWeight query.weightProp edge = some weight

/-- The edges that a query may follow have finite weights that are not negative. -/
def Weighted : Prop :=
  ∀ edge, HasEdge space kv edge → OfType query.edgeTypes edge →
    ∃ weight, edgeWeight query.weightProp edge = some weight ∧ 0 ≤ weight

structure StateStep (u v : HopState) (weight : ℚ) : Prop where
  away : u.1 ≠ query.target
  within : ∀ limit, query.maxSteps = some limit → u.2 < limit
  hops : v.2 = query.nextHops u.2
  weighs : Weighs query space kv u.1 v.1 weight

end

theorem Weighted.nonneg (weighted : Weighted query space kv)
    (weighs : Weighs query space kv u v weight) : 0 ≤ weight := by
  obtain ⟨edge, stored, typed, -, -, found⟩ := weighs
  obtain ⟨weight', found', positive⟩ := weighted edge stored typed
  rw [found, Option.some.injEq] at found'
  exact found' ▸ positive

def Best (query : WeightedQuery) (dist : HopState → Option ℚ) (settled : List HopState) : Option (HopState × ℚ) → Prop
  | none => ∀ state ∈ settled, state.1 ≠ query.target
  | some (state, cost) => state ∈ settled ∧ state.1 = query.target ∧ dist state = some cost ∧
      ∀ other ∈ settled, other.1 = query.target → ∀ cost', dist other = some cost' → cost ≤ cost'

def hopStates (query : WeightedQuery) (kv : KV) : List HopState :=
  (query.start :: edgeEnds kv) ×ˢ List.range (query.maxSteps.getD 0 + 1)

structure WeightedSearch.Valid (query : WeightedQuery) (space : String) (kv : KV) (settled : List HopState)
    (pending : HopState → HopState → ℚ → Prop) (level : ℚ) (search : WeightedSearch) : Prop where
  settling : Settling (StateStep query space kv) (query.start, 0) search.dist
    (fun state => search.parent.lookup state) search.heap
    settled pending level
  best : Best query search.dist settled search.bestTarget
  known : ∀ state cost, search.dist state = some cost → state ∈ hopStates query kv

theorem mem_hopStates : state ∈ hopStates query kv ↔
    (state.1 = query.start ∨ state.1 ∈ edgeEnds kv) ∧ state.2 ≤ query.maxSteps.getD 0 := by
  obtain ⟨vid, hops⟩ := state
  rw [hopStates, mem_product, mem_cons, mem_range, Nat.lt_add_one_iff]

theorem StateStep.known (step : StateStep query space kv u v weight) : v ∈ hopStates query kv := by
  obtain ⟨edge, stored, typed, src, dst, -⟩ := step.weighs
  have allows : Allows space kv query.edgeTypes .outgoing u.1 v.1 := ⟨edge, stored, typed, src, dst⟩
  refine mem_hopStates.mpr ⟨.inr allows.mem_edgeEnds.2, ?_⟩
  rw [step.hops, WeightedQuery.nextHops]
  cases limit : query.maxSteps with
  | none => simp
  | some steps =>
    have := step.within steps limit
    simp only [Option.isSome_some, if_true, Option.getD_some]
    omega

section

variable {settled : List HopState} {cost weight : ℚ} {search : WeightedSearch} {state : HopState}

theorem WeightedSearch.Valid.reach {next : HopState} (weighted : Weighted query space kv)
    (valid : search.Valid query space kv settled pending level) (taken : state ∈ settled) (here : search.dist state = some level)
    (step : StateStep query space kv state next weight)
    (fewer : ∀ u v w, pending u v w → pending' u v w ∨ u = state ∧ v = next ∧ w = weight) :
    let search' := search.reach state next (level + weight)
    search'.Valid query space kv settled pending' level ∧
      search'.dist state = some level ∧ search'.heap.length ≤ search.heap.length + 1 := by
  intro search'
  have cost := weighted.nonneg step.weighs
  by_cases better : (search.dist next).all (level + weight < ·) = true
  · have improved : search' = _ := if_pos better
    have strict : ∀ e, search.dist next = some e → level + weight < e := by
      intro e found
      simpa [found] using better
    have dists : ∀ u, search'.dist u = if u = next then some (level + weight) else search.dist u := by
      rw [improved]
      exact fun _ => rfl
    have parents : ∀ u, search'.parent.lookup u = if u = next then some state else search.parent.lookup u := by
      rw [improved]
      intro u
      by_cases same : u = next
      · simp [same]
      · rw [if_neg same, lookup_cons, beq_eq_false_iff_ne.mpr same]
    have pushed : search'.heap = heapPush (level + weight, next) search.heap := by rw [improved]
    obtain ⟨unsettled, settling⟩ := valid.settling.relax taken here step cost strict dists parents
      (pushed ▸ heapPush_perm _) (pushed ▸ heapPush_sorted valid.settling.ordered) fewer
    have kept : ∀ other ∈ settled, search'.dist other = search.dist other := by
      intro other mem
      have apart : other ≠ next := by
        rintro rfl
        exact unsettled mem
      rw [dists, if_neg apart]
    refine ⟨⟨settling, ?_, ?_⟩, (kept state taken).trans here, ?_⟩
    · have target : search'.bestTarget = search.bestTarget := by rw [improved]
      have best := valid.best
      rw [target]
      cases found : search.bestTarget with
      | none =>
        rw [found] at best
        exact best
      | some entry =>
        rw [found] at best
        obtain ⟨mem, isTarget, stored, least⟩ := best
        refine ⟨mem, isTarget, (kept _ mem).trans stored, fun other listed same cost' stored' => ?_⟩
        exact least other listed same cost' ((kept other listed).symm.trans stored')
    · intro other cost' found
      by_cases same : other = next
      · exact same ▸ step.known
      · rw [dists, if_neg same] at found
        exact valid.known other cost' found
    · rw [pushed]
      exact (heapPush_perm _).length_eq.le
  · have same : search' = search := if_neg better
    rw [same]
    refine ⟨⟨?_, valid.best, valid.known⟩, here, Nat.le_succ _⟩
    cases found : search.dist next with
    | none => simp [found] at better
    | some e =>
      rw [found] at better
      exact valid.settling.keep here found (by simpa using better) fewer

/-- The steps that the entries still to come lead to. -/
def PendingEntries (query : WeightedQuery) (state : HopState)
    (entries : List (Key × Val)) (u v : HopState) (weight : ℚ) : Prop :=
  u = state ∧ ∃ entry ∈ entries, ∃ edge, entry.2 = .edge edge ∧ admitsType query.edgeTypes entry.1 = true ∧
    v = (edge.dstVid, query.nextHops state.2) ∧ edgeWeight query.weightProp edge = some weight

theorem WeightedSearch.Valid.relaxEdges (weighted : Weighted query space kv)
    (taken : state ∈ settled) (away : state.1 ≠ query.target)
    (within : ∀ limit, query.maxSteps = some limit → state.2 < limit)
    (edges : ∀ entry ∈ entries, ∃ edge, HasEdge space kv edge ∧
      edge.edgeType ≠ "" ∧ edge.srcVid = state.1 ∧ entry = (edge.key space, .edge edge))
    (search : WeightedSearch) (here : search.dist state = some level)
    (valid : search.Valid query space kv settled (PendingEntries query state entries) level) :
    ∃ search', entries.foldlM (relaxEdge query level state) search = .ok search' ∧
      search'.Valid query space kv settled (fun _ _ _ => False) level ∧
      search'.heap.length ≤ search.heap.length + entries.length := by
  induction entries generalizing search with
  | nil =>
    refine ⟨search, rfl, ⟨valid.settling.narrow ?_, valid.best, valid.known⟩, Nat.le_refl _⟩
    rintro u v w - ⟨-, entry, impossible, -⟩
    cases impossible
  | cons entry rest ih =>
    obtain ⟨edge, stored, named, src, rfl⟩ := edges _ (.head _)
    have later : ∀ entry ∈ rest, _ := fun other mem => edges other (.tail _ mem)
    rw [foldlM_cons]
    by_cases admitted : admitsType query.edgeTypes (edge.key space) = true
    · have typed := admitsType_edgeEntry.mp (show admitsType _ (edgeEntry space false edge).1 = true from admitted)
      obtain ⟨weight, found, positive⟩ := weighted edge stored typed
      have step : StateStep query space kv state (edge.dstVid, query.nextHops state.2) weight :=
        ⟨away, within, rfl, edge, stored, typed, src, rfl, found⟩
      simp only [relaxEdge, admitted, if_true, show decodeQueryEdge (edge.key space) _ =
        _ from decode_edgeEntry false named, bind, Except.bind, found,
        if_neg (not_lt_of_ge positive)]
      have fewer : ∀ u v w, PendingEntries query state ((edge.key space, .edge edge) :: rest) u v w →
          PendingEntries query state rest u v w ∨ u = state ∧ v = (edge.dstVid, query.nextHops state.2) ∧ w = weight := by
        rintro u v w ⟨rfl, other, mem, edge', payload, admitted', there, weight'⟩
        rcases mem_cons.mp mem with rfl | old
        · cases payload
          rw [found, Option.some.injEq] at weight'
          exact .inr ⟨rfl, there, weight'.symm⟩
        · exact .inl ⟨rfl, other, old, edge', payload, admitted', there, weight'⟩
      have counted : WeightedSearch.Valid query space kv settled _ level { search with metrics := { search.metrics with
          scannedEdges := search.metrics.scannedEdges + 1, decodedEdges := search.metrics.decodedEdges + 1 } } :=
        ⟨valid.settling, valid.best, valid.known⟩
      obtain ⟨valid', here', grown⟩ := counted.reach weighted taken here step fewer
      obtain ⟨search', ran, valid'', longer⟩ := ih later _ here' valid'
      refine ⟨search', ran, valid'', longer.trans ((Nat.add_le_add_right grown rest.length).trans ?_)⟩
      rw [length_cons]
      dsimp only
      omega
    · have narrowed : ∀ u v w, StateStep query space kv u v w →
        PendingEntries query state ((edge.key space, .edge edge) :: rest) u v w →
          PendingEntries query state rest u v w := by
        rintro u v w - ⟨rfl, other, mem, edge', payload, admitted', rest'⟩
        rcases mem_cons.mp mem with rfl | old
        · exact absurd admitted' admitted
        · exact ⟨rfl, other, old, edge', payload, admitted', rest'⟩
      simp only [relaxEdge, admitted, bind, Except.bind]
      obtain ⟨search', ran, valid', longer⟩ := ih later search here ⟨valid.settling.narrow narrowed, valid.best, valid.known⟩
      exact ⟨search', ran, valid', longer.trans (by rw [length_cons]; omega)⟩

theorem Best.other {dist : HopState → Option ℚ} (holds : Best query dist settled best)
    (away : state.1 ≠ query.target) : Best query dist (state :: settled) best := by
  cases best with
  | none =>
    intro other mem
    rcases mem_cons.mp mem with rfl | old
    · exact away
    · exact holds other old
  | some entry =>
    obtain ⟨mem, isTarget, stored, least⟩ := holds
    refine ⟨.tail _ mem, isTarget, stored, fun other listed same => ?_⟩
    rcases mem_cons.mp listed with rfl | old
    · exact absurd same away
    · exact least other old same

theorem Best.meet (search : WeightedSearch)
    (holds : Best query search.dist settled search.bestTarget) (isTarget : state.1 = query.target)
    (found : search.dist state = some cost) : Best query (search.meetTarget state cost).dist
      (state :: settled) (search.meetTarget state cost).bestTarget := by
  rw [WeightedSearch.meetTarget]
  split
  · rename_i cheaper
    refine ⟨.head _, isTarget, found, fun other listed same cost' stored => ?_⟩
    rcases mem_cons.mp listed with rfl | old
    · rw [found, Option.some.injEq] at stored
      exact le_of_eq stored
    · cases best : search.bestTarget with
      | none =>
        rw [best] at holds
        exact absurd same (holds other old)
      | some entry =>
        rw [best] at holds cheaper
        exact (le_of_lt (by simpa using cheaper)).trans (holds.2.2.2 other old same cost' stored)
  · rename_i dearer
    cases best : search.bestTarget with
    | none => simp [best] at dearer
    | some entry =>
      rw [best] at holds dearer
      obtain ⟨mem, isTarget', stored, least⟩ := holds
      refine ⟨.tail _ mem, isTarget', stored, fun other listed same cost' stored' => ?_⟩
      rcases mem_cons.mp listed with rfl | old
      · rw [found, Option.some.injEq] at stored'
        exact stored' ▸ (by simpa using dearer)
      · exact least other old same cost' stored'

end

/-- What is left to do: the entries on the heap, and those that states not yet taken
may add to it. -/
def WeightedSearch.left (query : WeightedQuery) (kv : KV) (settled : List HopState) (search : WeightedSearch) : Nat :=
  search.heap.length + kv.toList.length * ((hopStates query kv).length - settled.length)

theorem length_scan (env : Env) (kv : KV) (selects : Key → Bool) :
    (env.arrange (kv.select selects)).length ≤ kv.toList.length := by
  rw [(env.arrange_perm _).length_eq, Table.select]
  exact length_filter_le _ _

theorem reached_iff : query.maxSteps.any (hops ≥ ·) = true ↔ ¬ ∀ limit, query.maxSteps = some limit → hops < limit := by
  cases query.maxSteps <;> simp

section

variable {settled : List HopState} {cost : ℚ} {search : WeightedSearch} {state : HopState} {heap : List (ℚ × HopState)}

section

variable (valid : search.Valid query space kv settled (fun _ _ _ => False) level)
  (waiting : search.heap = (cost, state) :: heap) (stored : search.dist state = some cost)

include valid waiting stored

theorem WeightedSearch.Valid.settle : Settling (StateStep query space kv)
      (query.start, 0) search.dist (fun state => search.parent.lookup state) heap (state :: settled)
        (fun u _ _ => u = state) cost ∧ search.left query kv settled = heap.length + 1 +
        (kv.toList.length * ((hopStates query
        kv).length - (state :: settled).length) + kv.toList.length) := by
  have settling := valid.settling
  rw [waiting] at settling
  obtain ⟨-, settling⟩ := settling.settle stored
  have room : (state :: settled).length ≤ (hopStates query kv).length := by
    refine (subperm_of_subset settling.once fun other mem => ?_).length_le
    obtain ⟨cost', stored', -⟩ := settling.done other mem
    exact valid.known other cost' stored'
  refine ⟨settling, ?_⟩
  rw [WeightedSearch.left, waiting, length_cons, ← Nat.mul_succ]
  rw [length_cons] at room ⊢
  congr 2
  omega

theorem WeightedSearch.Valid.meetTarget (isTarget : state.1 = query.target) :
    ({ search with heap }.meetTarget state cost).Valid query space kv (state :: settled) (fun _ _ _ => False) cost ∧
      ({ search with heap }.meetTarget state cost).heap = heap := by
  have best := Best.meet { search with heap } valid.best isTarget stored
  have settling := (valid.settle waiting stored).1
  have stuck : ∀ u v w, StateStep query space kv u v w → u = state → False := by
    rintro u v w step rfl
    exact step.away isTarget
  rw [WeightedSearch.meetTarget] at best ⊢
  split <;> rename_i cheaper
  · rw [if_pos cheaper] at best
    exact ⟨⟨settling.narrow stuck, best, valid.known⟩, rfl⟩
  · rw [if_neg cheaper] at best
    exact ⟨⟨settling.narrow stuck, best, valid.known⟩, rfl⟩

end

theorem answers_weightedLoop (legible : Legible space world.kv)
    (weighted : Weighted query space world.kv)
    (valid : search.Valid query space world.kv settled (fun _ _ _ => False) level)
    (enough : search.left query world.kv settled ≤ fuel) :
    (weightedLoop space maxNodes query fuel search).Answers (handler env) world (Exceeds maxNodes weightedExceeded) fun search' =>
      ∃ settled level, search'.Valid query space world.kv settled (fun _ _ _ => False) level ∧ search'.heap = [] := by
  induction fuel generalizing settled level search with
  | zero =>
    cases waiting : search.heap with
    | nil =>
      rw [weightedLoop.eq_def]
      simp only [waiting]
      exact answers_pure ⟨settled, level, valid, waiting⟩
    | cons entry heap => simp [WeightedSearch.left, waiting] at enough
  | succ fuel ih =>
    cases waiting : search.heap with
    | nil =>
      rw [weightedLoop.eq_def]
      simp only [waiting]
      exact answers_pure ⟨settled, level, valid, waiting⟩
    | cons entry heap =>
      obtain ⟨cost, state⟩ := entry
      obtain ⟨-, e, stored, below⟩ := valid.settling.waiting (cost, state) (by rw [waiting]; exact .head _)
      rw [weightedLoop]
      simp only [waiting]
      by_cases outdated : e < cost
      · rw [if_pos (by simpa [stored] using outdated)]
        have settling := valid.settling
        rw [waiting] at settling
        rw [WeightedSearch.left, waiting, length_cons] at enough
        refine ih ⟨settling.skip stored outdated, valid.best, valid.known⟩ ?_
        rw [WeightedSearch.left]
        dsimp only
        omega
      · obtain rfl : e = cost := le_antisymm below (le_of_not_gt outdated)
        rw [if_neg (by simp [stored])]
        obtain ⟨settling, left⟩ := valid.settle waiting stored
        by_cases isTarget : state.1 = query.target
        · obtain ⟨valid', same⟩ := valid.meetTarget waiting stored isTarget
          rw [if_pos isTarget]
          refine ih valid' ?_
          rw [WeightedSearch.left, same]
          omega
        · rw [if_neg isTarget]
          by_cases limited : query.maxSteps.any (state.2 ≥ ·) = true
          · have stuck : ∀ u v w, StateStep query space world.kv u v w → u = state → False := by
              rintro u v w step rfl
              exact reached_iff.mp limited step.within
            rw [if_pos limited]
            refine ih ⟨settling.narrow stuck, valid.best.other isTarget, valid.known⟩ ?_
            rw [WeightedSearch.left]
            dsimp only
            omega
          · have within := not_not.mp (mt reached_iff.mpr limited)
            rw [if_neg limited]
            refine answers_bind (countVertex_spec _ fun metrics => ?_)
            refine answers_bind (answers_scanPrefix ?_)
            have pending : ∀ u v w, StateStep query space world.kv u v w → u = state → PendingEntries query state
                (env.arrange (world.kv.select (edgeDataSrcPrefix space state.1).covers)) u v w := by
              rintro u v w step rfl
              obtain ⟨edge, found, typed, src, dst, weight⟩ := step.weighs
              refine ⟨rfl, _, (legible.mem_edges false).mpr ⟨edge, found, legible.named found, src, rfl⟩, edge, rfl,
                admitsType_edgeEntry.mpr typed, Prod.ext dst.symm step.hops, weight⟩
            obtain ⟨search', ran, valid', longer⟩ := WeightedSearch.Valid.relaxEdges weighted (.head _) isTarget within
              (show ∀ entry ∈ env.arrange (world.kv.select (edgeDataSrcPrefix space state.1).covers), _ from
                fun _ => (legible.mem_edges false).mp) { search with heap, metrics } stored
              ⟨settling.narrow pending, valid.best.other isTarget, valid.known⟩
            rw [ran]
            refine answers_bind (answers_ofExcept (ih valid' ?_))
            have few := length_scan env world.kv (edgeDataSrcPrefix space state.1).covers
            rw [WeightedSearch.left]
            dsimp only at longer
            omega

end

/-- The parents of a state that was taken lead back along a walk of its cost. -/
theorem WeightedSearch.Valid.trace (valid : search.Valid query space kv settled pending level)
    {back : List HopState} (shape : settled = front ++ state :: back)
    (stored : search.dist state = some cost) (enough : back.length ≤ fuel) :
    ∃ path, traceStates search.parent (query.start, 0) fuel state = .ok path ∧
      WeightedWalk (Weighs query space kv) query.start state.1 path.reverse cost ∧
      (query.maxSteps.isSome = true → path.length = state.2 + 1) := by
  induction fuel generalizing front back state cost with
  | zero =>
    obtain rfl : back = [] := length_eq_zero_iff.mp (Nat.le_zero.mp enough)
    by_cases first : state = (query.start, 0)
    · subst first
      cases valid.settling.origin.symm.trans stored
      exact ⟨[query.start], by rw [traceStates.eq_def]; exact if_pos rfl, .here, fun _ => rfl⟩
    · obtain ⟨_, impossible, -⟩ := valid.settling.earlier front state [] shape first
      cases impossible
  | succ fuel ih =>
    by_cases first : state = (query.start, 0)
    · subst first
      cases valid.settling.origin.symm.trans stored
      exact ⟨[query.start], by rw [traceStates.eq_def]; exact if_pos rfl, .here, fun _ => rfl⟩
    · obtain ⟨before, listed, parent⟩ := valid.settling.earlier front state back shape first
      obtain ⟨_, e, c, parent', -, stored', step, rfl⟩ := (valid.settling.linked state cost stored).resolve_left first
      cases parent.symm.trans parent'
      obtain ⟨front', back', rfl⟩ := append_of_mem listed
      have shorter : back'.length ≤ fuel := by
        simp only [length_append, length_cons] at enough
        omega
      obtain ⟨path, traced, walk, length⟩ := ih
        (shape.trans (append_assoc front (state :: front') (before :: back')).symm) stored' shorter
      refine ⟨state.1 :: path, ?_, ?_, fun bounded => ?_⟩
      · rw [traceStates.eq_def]
        simp [if_neg first, parent, traced, bind, Except.bind]
      · rw [reverse_cons]
        exact .next walk step.weighs
      · rw [length_cons, length bounded, step.hops, WeightedQuery.nextHops, if_pos bounded]

structure IsCheapest (query : WeightedQuery) (space : String) (kv : KV) (path : List Int) (cost : ℚ) : Prop where
  walk : WeightedWalk (Weighs query space kv) query.start query.target path cost
  bounded : ∀ limit, query.maxSteps = some limit → path.length ≤ limit + 1
  least : ∀ other cost', WeightedWalk (Weighs query space kv) query.start query.target other cost' →
    (∀ limit, query.maxSteps = some limit → other.length ≤ limit + 1) → cost ≤ cost'

structure AnswersWeighted (query : WeightedQuery) (space : String) (kv : KV) (answer : Option (List Int × ℚ)) : Prop where
  found : answer.isSome = true ↔ ∃ path cost, WeightedWalk (Weighs query space kv) query.start query.target path cost ∧
    ∀ limit, query.maxSteps = some limit → path.length ≤ limit + 1
  cheapest : ∀ path cost, answer = some (path, cost) → IsCheapest query space kv path cost

theorem WeightedWalk.nonneg (weighted : Weighted query space kv)
    (walk : WeightedWalk (Weighs query space kv) start v path cost) : 0 ≤ cost := by
  induction walk with
  | here => exact le_refl 0
  | next _ edge ih => exact add_nonneg ih (weighted.nonneg edge)

/-- Every walk within the bound is matched by a state that costs no more, unless it
has passed the target before. -/
theorem WeightedSearch.Valid.match (weighted : Weighted query space kv)
    (valid : search.Valid query space kv settled (fun _ _ _ => False) level) (past : search.heap = [])
    {path : List Int} (walk : WeightedWalk (Weighs query space kv) query.start v path cost)
    (bounded : ∀ limit, query.maxSteps = some limit → path.length ≤ limit + 1) :
    (∃ state cost', search.dist state = some cost' ∧ cost' ≤ cost ∧ state.1 = query.target) ∨
      ∃ cost', search.dist (v, if query.maxSteps.isSome then path.length - 1 else 0) = some cost' ∧ cost' ≤ cost := by
  have settling := valid.settling
  rw [past] at settling
  induction walk with
  | here =>
    refine .inr ⟨0, ?_, le_refl 0⟩
    simpa using settling.origin
  | @next u v path total weight walk edge ih =>
    have positive := weighted.nonneg edge
    have longer : (path ++ [v]).length = path.length + 1 := by simp
    have nonempty : 0 < path.length := by cases walk <;> simp
    rcases ih fun limit bound => by have := bounded limit bound; omega with
      ⟨state, cost', stored, below, isTarget⟩ | ⟨cost', stored, below⟩
    · exact .inl ⟨state, cost', stored, below.trans (le_add_of_nonneg_right positive), isTarget⟩
    · by_cases isTarget : u = query.target
      · exact .inl ⟨_, cost', stored, below.trans (le_add_of_nonneg_right positive), isTarget⟩
      · have step : StateStep query space kv (u, if query.maxSteps.isSome then path.length - 1 else 0)
            (v, if query.maxSteps.isSome then (path ++ [v]).length - 1 else 0) weight := by
          refine ⟨isTarget, fun limit bound => ?_, ?_, edge⟩
          · have := bounded limit bound
            simp only [bound, Option.isSome_some, if_true]
            omega
          · simp only [WeightedQuery.nextHops, longer]
            split
            · omega
            · rfl
        obtain ⟨-, e, found, less⟩ := settling.exhausted stored step
        exact .inr ⟨e, found, less.trans (add_le_add_left below weight)⟩

section

variable {settled : List HopState} {search : WeightedSearch}

/-- In the end, every walk to the target is matched by a target that was taken. -/
theorem WeightedSearch.Valid.target (weighted : Weighted query space kv)
    (valid : search.Valid query space kv settled (fun _ _ _ => False) level) (past : search.heap = [])
    (walk : WeightedWalk (Weighs query space kv) query.start query.target path cost)
    (bounded : ∀ limit, query.maxSteps = some limit → path.length ≤ limit + 1) :
    ∃ state ∈ settled, state.1 = query.target ∧ ∃ cost', search.dist state = some cost' ∧ cost' ≤ cost := by
  have taken : ∀ {state cost'}, search.dist state = some cost' → state ∈ settled := fun stored =>
    (valid.settling.covered _ _ stored).resolve_right (by simp [past])
  rcases valid.match weighted past walk bounded with ⟨state, cost', stored, below, isTarget⟩ | ⟨cost', stored, below⟩
  · exact ⟨state, taken stored, isTarget, cost', stored, below⟩
  · exact ⟨_, taken stored, rfl, cost', stored, below⟩

theorem WeightedSearch.Valid.length_settled (valid : search.Valid query space kv settled (fun _ _ _ => False) level) :
    settled.length ≤ search.parent.length + 1 := by
  have within : settled ⊆ (query.start, 0) :: search.parent.map Prod.fst := by
    intro state mem
    by_cases first : state = (query.start, 0)
    · exact first ▸ .head _
    · obtain ⟨cost, stored, -⟩ := valid.settling.done state mem
      obtain ⟨before, -, -, parent, -⟩ := (valid.settling.linked state cost stored).resolve_left first
      obtain ⟨listed, other, shape, -⟩ := lookup_eq_some_iff.mp parent
      rw [shape]
      simp
  simpa using (subperm_of_subset valid.settling.once within).length_le

theorem WeightedSearch.Valid.cheapest (weighted : Weighted query space kv)
    (valid : search.Valid query space kv settled (fun _ _ _ => False) level)
    (past : search.heap = []) (best : search.bestTarget = some (state, cost)) :
    ∃ path, traceStates search.parent (query.start, 0) search.parent.length state = .ok path ∧
      IsCheapest query space kv path.reverse cost := by
  have holds := valid.best
  rw [best] at holds
  obtain ⟨mem, isTarget, stored, least⟩ := holds
  obtain ⟨front, back, shape⟩ := append_of_mem mem
  have few : back.length ≤ search.parent.length := by
    have := valid.length_settled
    rw [shape, length_append, length_cons] at this
    omega
  obtain ⟨path, traced, walk, length⟩ := valid.trace shape stored few
  refine ⟨path, traced, isTarget ▸ walk, fun limit bound => ?_, fun other cost' walk' bounded => ?_⟩
  · have within := (mem_hopStates.mp (valid.known state cost stored)).2
    rw [bound, Option.getD_some] at within
    rw [length_reverse, length (by simp [bound])]
    omega
  · obtain ⟨state', listed, isTarget', cost'', stored', below⟩ := valid.target weighted past walk' bounded
    exact (least state' listed isTarget' cost'' stored').trans below

end

/-- The answer is a cheapest walk within the bound on steps, whose cost is the sum of its weights. -/
theorem dijkstraShortestPathWithSteps_correct (ctx : Ctx)
    (query : WeightedQuery) (legible : Legible (traversalSpace ctx) world.kv)
    (weighted : Weighted query (traversalSpace ctx) world.kv) {fuel : Nat}
    (enough : world.kv.toList.length * (hopStates query world.kv).length < fuel) :
    (dijkstraShortestPathWithSteps fuel ctx query).Answers
      (handler env) world (Exceeds ctx.maxTraversalNodes weightedExceeded)
      fun answer => AnswersWeighted query (traversalSpace ctx) world.kv answer.1 := by
  rw [dijkstraShortestPathWithSteps]
  split
  · rename_i same
    have trivial : IsCheapest query (traversalSpace ctx) world.kv [query.start] 0 :=
      ⟨same ▸ .here, fun limit _ => by simp, fun other cost walk _ => WeightedWalk.nonneg weighted walk⟩
    refine answers_pure ⟨⟨fun _ => ⟨_, _, trivial.walk, trivial.bounded⟩, fun _ => rfl⟩, ?_⟩
    rintro path cost ⟨⟩
    exact trivial
  · refine answers_seq (answers_weightedLoop legible weighted ⟨.start _ ?_, ?_, ?_⟩ ?_) ?_
    · intro state cost
      dsimp only
      split <;> simp_all [eq_comm]
    · exact fun state mem => by cases mem
    · intro state cost found
      dsimp only at found
      split at found
      · rename_i first
        exact mem_hopStates.mpr (by simp [first])
      · cases found
    · simp only [WeightedSearch.left, length_singleton, length_nil, Nat.sub_zero]
      omega
    · rintro search ⟨settled, level, valid, past⟩
      cases best : search.bestTarget with
      | none =>
        refine answers_pure ⟨⟨by simp, ?_⟩, by simp⟩
        rintro ⟨path, cost, walk, bounded⟩
        obtain ⟨state, listed, isTarget, -⟩ := valid.target weighted past walk bounded
        have none := valid.best
        rw [best] at none
        exact absurd isTarget (none state listed)
      | some entry =>
        obtain ⟨state, cost⟩ := entry
        obtain ⟨path, traced, cheapest⟩ := valid.cheapest weighted past best
        dsimp only
        rw [traced]
        refine answers_bind (answers_ofExcept (Prog.returns_ok.mpr (answers_pure ?_)))
        refine ⟨⟨fun _ => ⟨_, _, cheapest.walk, cheapest.bounded⟩, fun _ => rfl⟩, ?_⟩
        rintro path' cost' ⟨⟩
        exact cheapest

def road (src dst length : Int) : EdgeData := ⟨src, dst, "road", 0, Table.ofList [("length", .int length)]⟩

def roads : World where
  content := ⟨storeEdges "g" [road 1 2 5, road 1 3 1, road 3 2 1, road 2 4 1], .empty⟩
  lastTx := 0
  readings := 0

theorem edgeWeight_road (src dst length : Int) : edgeWeight "length" (road src dst length) = some (length : ℚ) := by
  simp [edgeWeight, road, lastPut]

theorem legible_roads : Legible "g" roads.kv := legible_storeEdges (by simp [road])

theorem weighted_roads : Weighted ⟨1, 4, ["road"], "length", limit⟩ "g" roads.kv := by
  intro edge stored _
  have listed := mem_of_storeEdges stored
  simp only [mem_cons, not_mem_nil, or_false] at listed
  rcases listed with rfl | rfl | rfl | rfl <;> exact ⟨_, edgeWeight_road .., by norm_num⟩

theorem dijkstraShortestPathWithSteps_correct_roads :
    (dijkstraShortestPathWithSteps 500 graphCtx ⟨1, 4, ["road"], "length", some 2⟩).Answers
      (handler graphEnv) roads (Exceeds 0 weightedExceeded)
      fun answer => AnswersWeighted ⟨1, 4, ["road"], "length", some 2⟩ "g" roads.kv answer.1 :=
  dijkstraShortestPathWithSteps_correct graphCtx ⟨1, 4, ["road"], "length", some 2⟩ legible_roads weighted_roads
    (by decide +kernel)

/-- With two hops the direct road has to be taken. -/
example : ((dijkstraShortestPathWithSteps 500 graphCtx ⟨1, 4, ["road"], "length", some 2⟩).run (handler graphEnv)
      roads).1.toOption.map Prod.fst = some (some ([1, 2, 4], 6)) ∧
    ((dijkstraShortestPathWithSteps 500 graphCtx ⟨1, 4, ["road"], "length", none⟩).run (handler graphEnv)
      roads).1.toOption.map Prod.fst = some (some ([1, 3, 2, 4], 3)) := by
  decide +kernel

end ByoriDB.Executor
