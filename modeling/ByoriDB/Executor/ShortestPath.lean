import ByoriDB.Data.Walks
import ByoriDB.Executor.Neighbors
import ByoriDB.Executor.Runs

namespace ByoriDB.Executor

open List Data Program Store ByoriDB.Graph

variable {env : Env} {world : World}

abbrev PathQuery.step (query : PathQuery) (space : String) (kv : KV) : Int → Int → Prop :=
  Allows space kv query.edgeTypes (expansion query.bidirect)

/-- Every visited vertex but the start has a parent that is one step nearer. -/
structure Parented (step : Int → Int → Prop) (start : Int) (visited : List Int) (parent : Table Int Int) : Prop where
  linked : ∀ v ∈ visited, v = start ∨ ∃ u n, parent.get v = some u ∧ u ∈ visited ∧ step u v ∧
    AtDistance step start n u ∧ AtDistance step start (n + 1) v
  within : ∀ v, (parent.get v).isSome = true → v ∈ visited
  counted : ∀ v n, v ∈ visited → AtDistance step start n v → n ≤ parent.toList.length

section

variable {u v : Int} {visited : List Int} {n : Nat}

theorem Parented.init (step : Int → Int → Prop) (start : Int) : Parented step start [start] .empty where
  linked v mem := .inl (mem_singleton.mp mem)
  within v found := by simp at found
  counted v n mem far := by
    rw [mem_singleton.mp mem] at far
    rw [far.unique (atDistance_start step start)]
    exact Nat.zero_le _

theorem length_insert_fresh {κ ν : Type} [Ord κ] [Std.TransOrd κ] [Std.LawfulEqOrd κ]
    [DecidableEq κ] {table : Table κ ν} {key : κ} {value : ν} (fresh : table.get key = none) :
    (table.insert key value).toList.length = table.toList.length + 1 := by
  rw [(table.toList_insert_perm key value).length_eq, Table.erase_of_none fresh]
  rfl

theorem Parented.extend (parented : Parented step start visited parent)
    (known : u ∈ visited) (fresh : v ∉ visited) (edge : step u v)
    (near : AtDistance step start n u) (far : AtDistance step start (n + 1) v) :
    Parented step start (v :: visited) (parent.insert v u) := by
  have absent : parent.get v = none := by
    rw [← Option.not_isSome_iff_eq_none]
    exact fun found => fresh (parented.within v found)
  refine ⟨?_, ?_, ?_⟩
  · intro w mem
    rcases mem_cons.mp mem with rfl | old
    · exact .inr ⟨u, n, by simp, .tail _ known, edge, near, far⟩
    · refine (parented.linked w old).imp_right ?_
      rintro ⟨before, m, found, listed, rest⟩
      refine ⟨before, m, ?_, .tail _ listed, rest⟩
      rw [get_insert, if_neg, found]
      rintro rfl
      exact fresh old
  · intro w found
    rw [get_insert] at found
    split at found
    · rename_i same
      exact same ▸ .head _
    · exact .tail _ (parented.within w found)
  · intro w m mem at_
    rw [length_insert_fresh absent]
    rcases mem_cons.mp mem with rfl | old
    · rw [at_.unique far]
      exact Nat.succ_le_succ (parented.counted u n known near)
    · exact Nat.le_succ_of_le (parented.counted w m old at_)

theorem Parented.followParents (parented : Parented step start visited parent) :
    ∀ {v n}, v ∈ visited → AtDistance step start n v → n ≤ fuel →
      IsWalk step start v (followParents parent start fuel v).reverse ∧ (followParents parent start fuel v).length = n + 1 := by
  induction fuel with
  | zero =>
    intro v n _ far enough
    obtain rfl := Nat.le_zero.mp enough
    rw [far.eq_start]
    exact ⟨by simp [Executor.followParents], rfl⟩
  | succ fuel ih =>
    intro v n known far enough
    rw [Executor.followParents]
    rcases parented.linked v known with rfl | ⟨u, m, found, listed, edge, near, far'⟩
    · rw [if_pos rfl, far.unique (atDistance_start step v)]
      exact ⟨by simp, rfl⟩
    · obtain rfl := far.unique far'
      have other : v ≠ start := by
        rintro rfl
        cases (atDistance_start step v).unique far
      obtain ⟨walk, length⟩ := ih listed near (by omega)
      simp only [if_neg other, found, reverse_cons, length_cons, length, and_true]
      exact walk.snoc edge

end

structure PathSearch.Valid (query : PathQuery) (step : Int → Int → Prop)
    (search : PathSearch) (busy : Option (Int × Nat)) : Prop where
  searching : Searching step query.start query.maxSteps (· ∈ search.visited) search.queue busy
  parented : Parented step query.start search.visited search.parent
  missing : query.target ∉ search.visited

/-- The vertices that may still enter the queue, and those that wait in it. -/
def PathSearch.left (known : List Int) (search : PathSearch) : Nat :=
  (known.filter fun vid => !search.visited.contains vid).length + search.queue.length

structure IsShortest (query : PathQuery) (step : Int → Int → Prop) (path : List Int) : Prop where
  walk : IsWalk step query.start query.target path
  bounded : path.length ≤ query.maxSteps + 1
  least : ∀ other, IsWalk step query.start query.target other → path.length ≤ other.length

section

variable {query : PathQuery} {known : List Int}

theorem length_unvisited (mem : dst ∈ known) (fresh : dst ∉ visited) :
    (known.filter fun vid => !(dst :: visited).contains vid).length + 1 ≤
      (known.filter fun vid => !visited.contains vid).length := by
  have narrower : (known.filter fun vid => !(dst :: visited).contains vid) =
      (known.filter fun vid => !visited.contains vid).filter (· != dst) := by
    rw [filter_filter]
    congr 1
    funext vid
    rw [contains_cons, Bool.not_or]
    rfl
  rw [narrower, Nat.succ_le_iff, length_filter_lt_length_iff_exists]
  exact ⟨dst, by simp [mem, fresh], by simp⟩

/-- What comes of visiting the neighbours of a vertex: the path is found, or all of
them are visited and none of them is the target. -/
def PathSearch.Outcome (query : PathQuery) (step : Int → Int → Prop) (known : List Int) (busy : Int × Nat) (neighbors : List Int)
    (search : PathSearch) : Bool × PathSearch → Prop
  | (true, search') => IsShortest query step (reconstructPath search'.parent query.start query.target)
  | (false, search') => search'.Valid query step (some busy) ∧ (∀ dst ∈ neighbors, dst ∈ search'.visited) ∧
      (∀ vid ∈ search.visited, vid ∈ search'.visited) ∧ search'.left known ≤ search.left known

theorem PathSearch.Outcome.later (outcome : PathSearch.Outcome query step known busy neighbors search' result)
    (met : dst ∈ search'.visited) (grown : ∀ vid ∈ search.visited, vid ∈ search'.visited)
    (fewer : search'.left known ≤ search.left known) :
    PathSearch.Outcome query step known busy (dst :: neighbors) search result := by
  rcases result with ⟨_ | _, final⟩
  · obtain ⟨valid, all, more, less⟩ := outcome
    refine ⟨valid, ?_, fun vid mem => more vid (grown vid mem), Nat.le_trans less fewer⟩
    intro other mem
    rcases mem_cons.mp mem with rfl | mem
    · exact more _ met
    · exact all other mem
  · exact outcome

theorem PathSearch.Valid.found {search : PathSearch} (here : current ∈ search.visited)
    (valid : search.Valid query step (some (current, hop))) (edge : step current query.target) :
    IsShortest query step (reconstructPath (search.parent.insert query.target current) query.start query.target) := by
  obtain ⟨within, near, -⟩ := valid.searching.layer _ rfl
  have far := valid.searching.fresh edge valid.missing
  have parented := valid.parented.extend here valid.missing edge near far
  obtain ⟨walk, length⟩ := parented.followParents (.head _) far (parented.counted _ _ (.head _) far)
  refine ⟨walk, ?_, fun other walk' => ?_⟩ <;> rw [reconstructPath, length_reverse, length]
  · omega
  · exact far.least other walk'

theorem PathSearch.Valid.visit (reaches : ∀ v w, step v w → w ∈ known)
    (steps : ∀ dst ∈ neighbors, step current dst) (search : PathSearch)
    (here : current ∈ search.visited) (valid : search.Valid query step (some (current, hop))) :
    PathSearch.Outcome query step known (current, hop) neighbors search
      (PathSearch.visit query.target current hop neighbors search) := by
  induction neighbors generalizing search with
  | nil => exact ⟨valid, by simp, fun _ => id, Nat.le_refl _⟩
  | cons dst rest ih =>
    have edge := steps dst (.head _)
    have later : ∀ other ∈ rest, step current other := fun other mem => steps other (.tail _ mem)
    rw [PathSearch.visit]
    by_cases visited : dst ∈ search.visited
    · rw [if_pos (by simpa using visited)]
      exact (ih later search here valid).later visited (fun _ => id) (Nat.le_refl _)
    · rw [if_neg (by simpa using visited)]
      by_cases isTarget : dst = query.target
      · rw [if_pos isTarget]
        subst isTarget
        exact valid.found here edge
      · rw [if_neg isTarget]
        obtain ⟨-, near, -⟩ := valid.searching.layer _ rfl
        refine (ih later _ (.tail _ here) ⟨valid.searching.discover edge visited (by simp), ?_, ?_⟩).later (.head _)
          (fun vid => .tail _) ?_
        · exact valid.parented.extend here visited edge near (valid.searching.fresh edge visited)
        · rw [mem_cons, not_or]
          exact ⟨fun same => isTarget same.symm, valid.missing⟩
        · have := length_unvisited (reaches _ _ edge) visited
          simp only [PathSearch.left, length_append, length_singleton]
          omega

end

structure AnswersPath (query : PathQuery) (step : Int → Int → Prop) (answer : Option (List Int)) : Prop where
  found : answer.isSome = true ↔ ∃ path, IsWalk step query.start query.target path ∧ path.length ≤ query.maxSteps + 1
  shortest : ∀ path, answer = some path → IsShortest query step path

theorem IsShortest.answers {query : PathQuery} {step : Int → Int → Prop} {path : List Int}
    (shortest : IsShortest query step path) : AnswersPath query step (some path) where
  found := ⟨fun _ => ⟨path, shortest.walk, shortest.bounded⟩, fun _ => rfl⟩
  shortest := by
    rintro _ ⟨⟩
    exact shortest

def Exceeds (maxNodes : Nat) (message : String) (reason : ExecutionError) : Prop :=
  0 < maxNodes ∧ reason = .resourceExhausted message

theorem countVertex_spec (metrics : TraversalMetrics) (holds : ∀ metrics', post metrics') :
    (ofExcept (metrics.countVertex maxNodes message) : Exec _).Answers
      (handler env) world (Exceeds maxNodes message) post := by
  rw [TraversalMetrics.countVertex]
  split
  · rename_i exceeded
    exact answers_fail ⟨exceeded.1, rfl⟩
  · exact answers_pure (holds _)

theorem answers_exhausted (valid : search.Valid query step none) (waiting : search.queue = []) :
    (searchPath space maxNodes query fuel search).Answers (handler env) world raise fun answer =>
      AnswersPath query step answer.1 := by
  rw [searchPath.eq_def]
  dsimp only
  rw [waiting]
  refine answers_pure ⟨⟨nofun, ?_⟩, nofun⟩
  rintro ⟨path, walk, short⟩
  have searching := valid.searching
  rw [waiting] at searching
  exact absurd (searching.exhausted walk short) valid.missing

theorem answers_searchPath (legible : Legible space world.kv)
    (reaches : ∀ v w, query.step space world.kv v w → w ∈ known)
    (valid : search.Valid query (query.step space world.kv) none) (enough : search.left known ≤ fuel) :
    (searchPath space maxNodes query fuel search).Answers (handler env) world (Exceeds maxNodes traversalExceeded)
      fun answer => AnswersPath query (query.step space world.kv) answer.1 := by
  induction fuel generalizing search with
  | zero =>
    cases waiting : search.queue with
    | nil => exact answers_exhausted valid waiting
    | cons entry queue => simp [PathSearch.left, waiting] at enough
  | succ fuel ih =>
    cases waiting : search.queue with
    | nil => exact answers_exhausted valid waiting
    | cons entry queue =>
      obtain ⟨searching, parented, missing⟩ := valid
      rw [PathSearch.left, waiting, length_cons] at enough
      rw [waiting] at searching
      rw [searchPath]
      simp only [waiting]
      by_cases limit : entry.2 ≥ query.maxSteps
      · rw [if_pos limit]
        refine ih ⟨searching.skip limit, parented, missing⟩ ?_
        rw [PathSearch.left]
        dsimp only
        omega
      · rw [if_neg limit]
        refine answers_bind (countVertex_spec _ fun metrics => ?_)
        refine answers_seq (answers_collectNeighborVids legible _) ?_
        rintro ⟨neighbors, metrics'⟩ ⟨-, -, members⟩
        have valid : PathSearch.Valid query _ { search with queue, metrics := metrics' } (some entry) :=
          ⟨searching.take (Nat.lt_of_not_le limit), parented, missing⟩
        have outcome := PathSearch.Valid.visit reaches (fun dst => (members dst).mp) { search with queue, metrics := metrics' }
          (searching.queued entry (.head _)).1 valid
        rcases result : PathSearch.visit query.target entry.1 entry.2 neighbors { search with queue, metrics := metrics' }
          with ⟨_ | _, search'⟩ <;> rw [result] at outcome
        · obtain ⟨valid', all, -, fewer⟩ := outcome
          refine ih ⟨valid'.searching.finish fun w edge => all w ((members w).mpr edge), valid'.parented, valid'.missing⟩ ?_
          simp only [PathSearch.left] at fewer ⊢
          omega
        · exact answers_pure outcome.answers

def edgeEnds (kv : KV) : List Int :=
  kv.toList.flatMap fun entry =>
    match entry.2 with
    | .edge edge => [edge.srcVid, edge.dstVid]
    | _ => []

theorem length_edgeEnds (kv : KV) : (edgeEnds kv).length ≤ 2 * kv.toList.length := by
  rw [edgeEnds]
  induction kv.toList with
  | nil => simp
  | cons entry rest ih =>
    rw [flatMap_cons, length_append, length_cons]
    have : (match entry.2 with | .edge edge => [edge.srcVid, edge.dstVid] | _ => []).length ≤ 2 := by
      split <;> simp
    omega

theorem Allows.mem_edgeEnds (allows : Allows space kv edgeTypes direction u v) : u ∈ edgeEnds kv ∧ v ∈ edgeEnds kv := by
  obtain ⟨edge, stored, -, leads⟩ := allows
  have listed : ∀ vid ∈ [edge.srcVid, edge.dstVid], vid ∈ edgeEnds kv :=
    fun vid mem => mem_flatMap.mpr ⟨_, mem_toList.mpr stored, mem⟩
  cases direction with
  | outgoing => exact ⟨leads.1 ▸ listed _ (by simp), leads.2 ▸ listed _ (by simp)⟩
  | incoming => exact ⟨leads.1 ▸ listed _ (by simp), leads.2 ▸ listed _ (by simp)⟩
  | undirected =>
    rcases leads with ⟨rfl, rfl⟩ | ⟨rfl, rfl⟩ <;> exact ⟨listed _ (by simp), listed _ (by simp)⟩

/-- The search answers with a shortest walk if there is one within the bound on steps, or reports the
limit on visited vertices. -/
theorem shortestPath_correct (ctx : Ctx) (legible : Legible (traversalSpace ctx) world.kv)
    (query : PathQuery) {fuel : Nat} (enough : 2 * world.kv.toList.length < fuel) :
    (shortestPath fuel ctx query).Answers (handler env) world
      (Exceeds ctx.maxTraversalNodes traversalExceeded)
      fun answer => AnswersPath query (query.step (traversalSpace ctx) world.kv) answer.1 := by
  rw [shortestPath]
  split
  · rename_i same
    refine answers_pure (IsShortest.answers ⟨?_, by simp, fun other walk => walk.length_pos⟩)
    simp [same]
  · rename_i other
    refine answers_searchPath legible (fun v w allows => allows.mem_edgeEnds.2) ⟨.init _ _ (by simp), .init _ _, ?_⟩ ?_
    · simpa using fun same => other same.symm
    · have := length_edgeEnds world.kv
      have := length_filter_le (fun vid => !(List.contains [query.start] vid)) (edgeEnds world.kv)
      simp only [PathSearch.left, length_singleton]
      omega

theorem shortestPath_correct_acquaintances :
    (shortestPath 30 graphCtx ⟨1, 4, ["knows"], 3, false⟩).Answers (handler graphEnv) acquaintances
      (Exceeds 0 traversalExceeded) fun answer => AnswersPath ⟨1, 4, ["knows"], 3, false⟩
      (Allows "g" acquaintances.kv ["knows"] .outgoing) answer.1 :=
  shortestPath_correct graphCtx legible_acquaintances ⟨1, 4, ["knows"], 3, false⟩ (by decide +kernel)

example : ((shortestPath 30 graphCtx ⟨1, 4, [], 3, true⟩).run (handler graphEnv) acquaintances).1.toOption.map Prod.fst =
    some (some [1, 4]) := by decide +kernel

end ByoriDB.Executor
