import ByoriDB.Data.Levels
import ByoriDB.Executor.ShortestPath
import Mathlib.Algebra.Order.BigOperators.Group.List

namespace ByoriDB.Executor

open List Data Program Store ByoriDB.Graph

variable {env : Env} {world : World}

structure LevelSearch.Valid (query : PathQuery) (step : Int → Int → Prop)
    (k : Nat) (tried : Int → Int → Prop) (search : LevelSearch) : Prop where
  level : Level step query.start k tried (fun vid => (search.depth.get vid).isSome = true) search.nextFrontier
  preds : Predecessors step query.start k tried search.depth.get search.parents.get
  found : search.found = true ↔ query.target ∈ search.nextFrontier

section

variable {query : PathQuery} {k : Nat} {search : LevelSearch} {vid : Int}

theorem LevelSearch.Valid.congr (valid : search.Valid query step k tried)
    (same : ∀ u v, tried' u v ↔ tried u v) : search.Valid query step k tried' := by
  obtain rfl : tried' = tried := funext fun u => funext fun v => propext (same u v)
  exact valid

theorem LevelSearch.Valid.meet (valid : search.Valid query step k tried)
    (here : AtDistance step query.start k vid) (edge : step vid neighbor)
    (untried : ¬ tried vid neighbor) : (search.meet query.target k vid neighbor).Valid query step k
      fun u v => (u = vid ∧ v = neighbor) ∨ tried u v := by
  rw [LevelSearch.meet]
  split
  · rename_i absent
    have unseen : ¬ (search.depth.get neighbor).isSome = true := by simp [absent]
    refine ⟨valid.level.fresh here edge unseen (fun _ _ => Iff.rfl) ?_, ?_, ?_⟩
    · intro w
      rw [get_insert]
      split <;> simp_all
    · refine valid.preds.fresh here edge absent (fun _ _ => Iff.rfl) (by simp) (by simp) ?_
      intro w other
      simp [other]
    · rw [Bool.or_eq_true, valid.found, mem_append, mem_singleton, beq_iff_eq, eq_comm]
  · rename_i depth found
    have known : (search.depth.get neighbor).isSome = true := by simp [found]
    split
    · rename_i next
      subst next
      obtain ⟨before, stored, -⟩ := valid.preds.listed neighbor k found
      refine ⟨valid.level.known known fun _ _ => Iff.rfl, ?_, valid.found⟩
      refine valid.preds.again here edge found untried (fun _ _ => Iff.rfl) stored (by simp [stored]) ?_
      intro w other
      simp [other]
    · rename_i earlier
      obtain ⟨near, below | ⟨at_, -⟩⟩ := (valid.preds.depths neighbor depth).mp found
      · exact ⟨valid.level.known known fun _ _ => Iff.rfl, valid.preds.nearer near below fun _ _ => Iff.rfl, valid.found⟩
      · exact absurd at_ earlier

theorem LevelSearch.Valid.meets (here : AtDistance step query.start k vid) {neighbors : List Int}
    (edges : ∀ v ∈ neighbors, step vid v) (distinct : neighbors.Nodup) (search : LevelSearch)
    (untried : ∀ v ∈ neighbors, ¬ tried vid v) (valid : search.Valid query step k tried) :
    (neighbors.foldl (LevelSearch.meet query.target k vid) search).Valid query step k fun u v =>
      (u = vid ∧ v ∈ neighbors) ∨ tried u v := by
  induction neighbors generalizing search tried with
  | nil => exact valid.congr (by simp)
  | cons neighbor rest ih =>
    obtain ⟨apart, distinct⟩ := nodup_cons.mp distinct
    refine (ih (fun v mem => edges v (.tail _ mem)) distinct _ ?_
      (valid.meet here (edges neighbor (.head _)) (untried neighbor (.head _)))).congr fun u v => ?_
    · rintro v mem (⟨-, rfl⟩ | before)
      · exact apart mem
      · exact untried v (.tail _ mem) before
    · rw [mem_cons]
      tauto

end

theorem answers_expandVertex (legible : Legible space world.kv)
    (here : AtDistance (query.step space world.kv) query.start k vid) (untried : ∀ v, ¬ tried vid v)
    (valid : search.Valid query (query.step space world.kv) k tried) :
    (expandVertex space maxNodes query k search vid).Answers (handler env) world (Exceeds maxNodes traversalExceeded)
      fun search' => search'.Valid query (query.step space world.kv) k
        fun u v => (u = vid ∧ query.step space world.kv u v) ∨ tried u v := by
  refine answers_bind (countVertex_spec _ fun metrics => ?_)
  refine answers_seq (answers_collectNeighborVids legible _) ?_
  rintro ⟨neighbors, metrics'⟩ ⟨distinct, -, members⟩
  have met := LevelSearch.Valid.meets here (fun v => (members v).mp) distinct
    { search with metrics := metrics' } (fun v _ => untried v)
    ⟨valid.level, valid.preds, valid.found⟩
  refine answers_pure (met.congr fun u v => or_congr_left (and_congr_right fun same => ?_))
  rw [same, members]

structure LevelSearch.Done (query : PathQuery) (step : Int → Int → Prop) (search : LevelSearch) : Prop where
  hit : search.found = true → ∃ k ≤ query.maxSteps, AtDistance step query.start k query.target ∧
    Predecessors step query.start k (fun _ _ => False) search.depth.get search.parents.get
  missed : search.found = false → ∀ path, IsWalk step query.start query.target path → query.maxSteps + 1 < path.length

theorem answers_searchLevels {frontier : List Int} (legible : Legible space world.kv)
    (bounded : k + left = query.maxSteps) (distinct : frontier.Nodup)
    (members : ∀ v, v ∈ frontier ↔ AtDistance (query.step space world.kv) query.start k v)
    (level : Level (query.step space world.kv) query.start k (fun _ _ => False)
      (fun vid => (search.depth.get vid).isSome = true) [])
    (preds : Predecessors (query.step space world.kv) query.start k (fun _ _ =>
      False) search.depth.get search.parents.get)
    (hit : search.found = true ↔ AtDistance (query.step space world.kv) query.start k query.target)
    (missed : ∀ n < k, ¬ AtDistance (query.step space world.kv) query.start n query.target) :
    (searchLevels space maxNodes query left k frontier search).Answers
      (handler env) world (Exceeds maxNodes traversalExceeded)
      (LevelSearch.Done query (query.step space world.kv)) := by
  induction left generalizing k frontier search with
  | zero =>
    refine answers_pure ⟨fun found => ⟨k, by omega, hit.mp found, preds⟩, fun unfound path walk => ?_⟩
    obtain ⟨n, far, short⟩ := walk.atDistance
    by_contra long
    rcases Nat.lt_or_ge n k with below | above
    · exact missed n below far
    · obtain rfl : n = k := by omega
      simp [hit.mpr far] at unfound
  | succ left ih =>
    rw [searchLevels]
    split
    · rename_i past
      refine answers_pure ⟨fun found => ⟨k, by omega, hit.mp found, preds⟩, fun unfound path walk => ?_⟩
      rw [unfound, Bool.or_false, List.isEmpty_iff] at past
      obtain ⟨n, far, short⟩ := walk.atDistance
      exfalso
      rcases Nat.lt_or_ge n k with below | above
      · exact missed n below far
      · obtain ⟨u, layer⟩ := far.layer above
        rw [← members, past] at layer
        cases layer
    · rename_i going
      rw [Bool.or_eq_true, not_or, Bool.not_eq_true, Bool.not_eq_true] at going
      have unfound : ¬ AtDistance (query.step space world.kv) query.start k query.target := by
        rw [← hit, going.2]
        simp
      refine answers_seq (answers_foldlM (fun rest search' =>
        rest.Nodup ∧ (∀ v ∈ rest, v ∈ frontier) ∧ search'.Valid query (query.step space world.kv) k
          fun u v => (u ∈ frontier ∧ u ∉ rest) ∧ query.step space world.kv u v) ?_ ?_) ?_
      · refine ⟨distinct, fun _ => id, LevelSearch.Valid.congr ⟨level, preds, ?_⟩ (by simp)⟩
        simp [going.2]
      · rintro vid rest search' ⟨distinct', among, valid⟩
        obtain ⟨apart, distinct'⟩ := nodup_cons.mp distinct'
        refine answers_imp (answers_expandVertex legible
          ((members vid).mp (among vid (.head _))) ?_ valid) fun search'' valid' =>
          ⟨distinct', fun v mem => among v (.tail _ mem), valid'.congr fun u v => ?_⟩
        · rintro v ⟨⟨-, processed⟩, -⟩
          exact processed (.head _)
        · rw [mem_cons]
          constructor
          · rintro ⟨⟨mem, later⟩, edge⟩
            by_cases same : u = vid
            · exact .inl ⟨same, edge⟩
            · exact .inr ⟨⟨mem, by tauto⟩, edge⟩
          · rintro (⟨rfl, edge⟩ | ⟨⟨mem, later⟩, edge⟩)
            · exact ⟨⟨among u (.head _), apart⟩, edge⟩
            · exact ⟨⟨mem, by tauto⟩, edge⟩
      · rintro search' ⟨-, -, valid⟩
        have all : ∀ u v, AtDistance (query.step space world.kv) query.start k u → query.step space world.kv u v →
            (u ∈ frontier ∧ u ∉ []) ∧ query.step space world.kv u v :=
          fun u v near edge => ⟨⟨(members u).mpr near, not_mem_nil⟩, edge⟩
        refine ih (by omega) valid.level.distinct (valid.level.mem_next all)
          (valid.level.advance all) (valid.preds.advance all) ?_ ?_
        · rw [valid.found, valid.level.mem_next all]
        · intro n below near
          rcases Nat.lt_or_ge n k with earlier | here
          · exact missed n earlier near
          · exact unfound ((show n = k by omega) ▸ near)

/-- The ways back from a vertex at some depth, in the order in which the stack gives
them. -/
def chains (parents : Table Int (List Int)) : Nat → Int → List (List Int)
  | 0, _ => [[]]
  | depth + 1, vid => ((parents.get vid).getD []).reverse.flatMap fun before => (chains parents depth before).map (before :: ·)

/-- How many partial paths are taken from the stack on these ways. -/
def effort (parents : Table Int (List Int)) : Nat → Int → Nat
  | 0, _ => 1
  | depth + 1, vid => 1 + (((parents.get vid).getD []).reverse.map (effort parents depth)).sum

def pathsExceeded : ExecutionError := .resourceExhausted "FIND ALL SHORTEST PATHS exceeded max_find_paths"

/-- Go on with more paths, if the limit admits them. -/
def withPaths (maxPaths : Nat) (paths more : List (List Int))
    (next : List (List Int) → Except ExecutionError (List (List Int))) :
    Except ExecutionError (List (List Int)) :=
  if maxPaths > 0 ∧ maxPaths < (paths ++ more).length then .error pathsExceeded else next (paths ++ more)

def Admitted (maxPaths : Nat) (paths : List (List Int)) : Prop := maxPaths = 0 ∨ paths.length ≤ maxPaths

theorem withPaths_nil {next : List (List Int) → _} (admitted : Admitted maxPaths paths) :
    withPaths maxPaths paths [] next = next paths := by
  rw [Admitted] at admitted
  rw [withPaths, append_nil, if_neg (by omega)]

theorem withPaths_append {next : List (List Int) → _}
    (later : ∀ paths, Admitted maxPaths paths → next paths = withPaths maxPaths paths second next') :
    withPaths maxPaths paths first next = withPaths maxPaths paths (first ++ second) next' := by
  by_cases exceeded : maxPaths > 0 ∧ maxPaths < (paths ++ first).length
  · have further : maxPaths < (paths ++ (first ++ second)).length := by
      rw [← append_assoc, length_append]
      omega
    rw [withPaths, withPaths, if_pos exceeded, if_pos ⟨exceeded.1, further⟩]
  · rw [withPaths, if_neg exceeded, later _ (by rw [Admitted]; omega), withPaths, withPaths, append_assoc]

section

variable {k : Nat} {depth : Int → Option Nat} {parents : Table Int (List Int)}

section

variable (preds : Predecessors step start k (fun _ _ => False) depth parents.get)
include preds

theorem Predecessors.before (far : AtDistance step start (n + 1) vid) (below : n + 1 ≤ k) :
    ∃ before, parents.get vid = some before ∧ before.Nodup ∧
      ∀ p, p ∈ before ↔ AtDistance step start n p ∧ step p vid := by
  obtain ⟨before, stored, distinct, members⟩ := preds.listed vid n ((preds.depths vid (n + 1)).mpr ⟨far, .inl below⟩)
  refine ⟨before, stored, distinct, fun p => (members p).trans ?_⟩
  simp only [or_false, and_congr_right_iff, and_iff_left_iff_imp]
  omega

theorem enumeratePaths_trail (within : n ≤ k)
    (far : AtDistance step start n vid) (last : trail.getLast? = some vid)
    (fuel : Nat) (stack : List (List Int)) (admitted : Admitted maxPaths paths) :
    enumeratePaths parents start maxPaths (fuel + effort parents n vid) (trail :: stack) paths =
      withPaths maxPaths paths ((chains parents n vid).map fun chain => (trail ++ chain).reverse)
        (enumeratePaths parents start maxPaths fuel stack) := by
  induction n generalizing vid trail fuel stack paths with
  | zero =>
    rw [effort, enumeratePaths, last]
    simp [if_pos far.eq_start, chains, withPaths, pathsExceeded, Nat.lt_add_one_iff]
  | succ n ih =>
    obtain ⟨before, stored, -, members⟩ := Predecessors.before preds far within
    have other : vid ≠ start := by
      rintro rfl
      cases (atDistance_start step vid).unique far
    -- the vertices before this one are taken from the stack one after the other
    have sweep : ∀ (before : List Int), (∀ p ∈ before, AtDistance step start n p) → ∀ {paths}, Admitted maxPaths paths →
        enumeratePaths parents start maxPaths (fuel + (before.map (effort parents n)).sum)
          (before.map (fun p => trail ++ [p]) ++ stack) paths =
        withPaths maxPaths paths (before.flatMap fun p => (chains parents n p).map fun chain => (trail ++ p :: chain).reverse)
          (enumeratePaths parents start maxPaths fuel stack) := by
      intro before
      induction before with
      | nil => exact fun _ _ admitted => (withPaths_nil admitted).symm
      | cons p rest inner =>
        intro near paths admitted
        have front := ih (Nat.le_of_succ_le within) (near p (.head _)) (show (trail ++ [p]).getLast? = some p by simp)
          (fuel + (rest.map (effort parents n)).sum) (rest.map (fun p => trail ++ [p]) ++ stack) admitted
        simp only [append_assoc, singleton_append] at front
        rw [map_cons, sum_cons, Nat.add_comm (effort parents n p), ← Nat.add_assoc, map_cons, cons_append, front,
          flatMap_cons]
        exact withPaths_append fun paths' admitted' => inner (fun q mem => near q (.tail _ mem)) admitted'
    rw [effort, Nat.add_comm 1, ← Nat.add_assoc, enumeratePaths, last]
    simp only [if_neg other, stored, Option.getD_some, ← map_reverse]
    rw [sweep before.reverse (fun p mem => ((members p).mp (mem_reverse.mp mem)).1) admitted, chains, stored, Option.getD_some,
      map_flatMap]
    simp [Function.comp_def]

theorem mem_chains (within : n ≤ k)
    (far : AtDistance step start n vid) :
    (chains parents n vid).Nodup ∧ ∀ chain, chain ∈ chains parents n vid ↔
      IsWalk step start vid (vid :: chain).reverse ∧ (vid :: chain).reverse.length = n + 1 := by
  induction n generalizing vid with
  | zero =>
    refine ⟨nodup_singleton _, fun chain => ?_⟩
    rw [chains, mem_singleton]
    constructor
    · rintro rfl
      simp [far.eq_start]
    · rintro ⟨-, length⟩
      simpa using length
  | succ n ih =>
    obtain ⟨before, stored, distinct, members⟩ := Predecessors.before preds far within
    have inner : ∀ p ∈ before.reverse, _ := fun p mem =>
      ih (Nat.le_of_succ_le within) ((members p).mp (mem_reverse.mp mem)).1
    rw [chains, stored, Option.getD_some]
    constructor
    · rw [nodup_flatMap]
      refine ⟨fun p mem => (inner p mem).1.map (cons_injective), ?_⟩
      refine (nodup_reverse.mpr distinct).imp ?_
      rintro p q apart chain left right
      obtain ⟨_, -, rfl⟩ := mem_map.mp left
      obtain ⟨_, -, same⟩ := mem_map.mp right
      exact apart (List.cons.inj same).1.symm
    · intro chain
      rw [shortest_snoc far]
      simp only [mem_flatMap, mem_map]
      constructor
      · rintro ⟨p, mem, chain, listed, rfl⟩
        obtain ⟨near, edge⟩ := (members p).mp (mem_reverse.mp mem)
        exact ⟨p, (p :: chain).reverse, near, edge, ((inner p mem).2 chain).mp listed, by simp⟩
      · rintro ⟨p, front, near, edge, walk, same⟩
        have mem : p ∈ before.reverse := mem_reverse.mpr ((members p).mpr ⟨near, edge⟩)
        rw [reverse_cons, append_left_inj] at same
        obtain ⟨initial, rfl⟩ := List.getLast?_eq_some_iff.mp walk.1.last
        rw [reverse_eq_iff, reverse_append, reverse_singleton, singleton_append] at same
        refine ⟨p, mem, initial.reverse, ((inner p mem).2 _).mpr ?_, same.symm⟩
        simpa using walk

theorem effort_le {ends : List Int}
    (sources : ∀ u v, step u v → u ∈ ends) (within : n ≤ k) (far : AtDistance step start n vid) :
    effort parents n vid ≤ (ends.length + 1) ^ n := by
  induction n generalizing vid with
  | zero => exact Nat.le_refl 1
  | succ n ih =>
    obtain ⟨before, stored, distinct, members⟩ := Predecessors.before preds far within
    have few : before.length ≤ ends.length :=
      (subperm_of_subset distinct fun p mem => sources p vid ((members p).mp mem).2).length_le
    have each : ((before.reverse.map (effort parents n)).sum) ≤ before.length * (ends.length + 1) ^ n := by
      refine (sum_le_card_nsmul _ ((ends.length + 1) ^ n) ?_).trans (by simp)
      intro cost mem
      obtain ⟨p, listed, rfl⟩ := mem_map.mp mem
      exact ih (Nat.le_of_succ_le within) ((members p).mp (mem_reverse.mp listed)).1
    have positive : 1 ≤ (ends.length + 1) ^ n := Nat.one_le_pow _ _ (Nat.succ_pos _)
    rw [effort, stored, Option.getD_some, Nat.pow_succ, Nat.mul_add, Nat.mul_one, Nat.mul_comm _ ends.length]
    have wider := Nat.mul_le_mul_right ((ends.length + 1) ^ n) few
    omega

end

end

/-- The shortest paths of a query, each of them once. -/
structure ListsShortest (query : PathQuery) (step : Int → Int → Prop) (paths : List (List Int)) : Prop where
  distinct : paths.Nodup
  exact : ∀ path, path ∈ paths ↔ IsShortest query step path

theorem AtDistance.isShortest (far : AtDistance step query.start n query.target)
    (within : n ≤ query.maxSteps) (path : List Int) : IsShortest query step path ↔
      IsWalk step query.start query.target path ∧ path.length = n + 1 := by
  constructor
  · rintro ⟨walk, -, least⟩
    obtain ⟨other, walk', length⟩ := far.reached
    have below := least other walk'
    have above := far.least path walk
    exact ⟨walk, by omega⟩
  · rintro ⟨walk, length⟩
    exact ⟨walk, by omega, fun other walk' => length ▸ far.least other walk'⟩

theorem listsShortest_chains (preds : Predecessors step query.start k (fun _ _ => False) depth parents.get)
    (far : AtDistance step query.start k query.target) (within : k ≤ query.maxSteps) :
    ListsShortest query step ((chains parents k query.target).map fun chain => ([query.target] ++ chain).reverse) := by
  obtain ⟨distinct, members⟩ := mem_chains preds (Nat.le_refl k) far
  refine ⟨distinct.map fun left right same => ?_, fun path => ?_⟩
  · simpa using same
  · rw [AtDistance.isShortest far within, mem_map]
    constructor
    · rintro ⟨chain, listed, rfl⟩
      exact (members chain).mp listed
    · rintro ⟨walk, length⟩
      obtain ⟨front, rfl⟩ := List.getLast?_eq_some_iff.mp walk.last
      refine ⟨front.reverse, (members _).mpr ?_, by simp⟩
      simpa using And.intro walk length

/-- What a query for all shortest paths fails with: the limit on vertices, or the
limit on paths when there are more of them. -/
def FailsToList (query : PathQuery) (step : Int → Int → Prop) (maxNodes maxPaths : Nat) (reason : ExecutionError) : Prop :=
  Exceeds maxNodes traversalExceeded reason ∨
    reason = pathsExceeded ∧ 0 < maxPaths ∧ ∃ paths, ListsShortest query step paths ∧ maxPaths < paths.length

/-- Both ways round the ring are listed, unless only one path is allowed. -/
example : ((allShortestPaths 500 graphCtx ⟨2, 4, ["knows"], 2, true⟩ 2).run (handler graphEnv) acquaintances).1.toOption.map
      Prod.fst = some [[2, 1, 4], [2, 3, 4]] ∧
    ((allShortestPaths 500 graphCtx ⟨2, 4, ["knows"], 2, true⟩ 1).run (handler graphEnv) acquaintances).1.isOk = false := by
  decide +kernel

end ByoriDB.Executor
