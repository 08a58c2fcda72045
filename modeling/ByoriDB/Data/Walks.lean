import Mathlib.Data.List.Chain
import Mathlib.Data.Nat.Find
import Mathlib.Logic.Relation

namespace ByoriDB.Data

open List

variable {α : Type} {v : α} {path : List α} {n : Nat} {entry : α × Nat}

/-- The vertices of a walk, in order. -/
structure IsWalk (step : α → α → Prop) (start target : α) (path : List α) : Prop where
  first : path.head? = some start
  last : path.getLast? = some target
  follows : path.IsChain step

theorem IsWalk.ne_nil (walk : IsWalk step start target path) : path ≠ [] := by
  rintro rfl
  cases walk.first

theorem IsWalk.length_pos (walk : IsWalk step start target path) : 0 < path.length :=
  length_pos_of_ne_nil walk.ne_nil

@[simp] theorem isWalk_singleton : IsWalk step start target [v] ↔ v = start ∧ v = target := by
  constructor
  · rintro ⟨first, last, -⟩
    exact ⟨Option.some.inj first, Option.some.inj last⟩
  · rintro ⟨rfl, rfl⟩
    exact ⟨rfl, rfl, .singleton _⟩

/-- A walk is extended at its end. -/
theorem isWalk_snoc (nonempty : path ≠ []) :
    IsWalk step start target (path ++ [v]) ↔ v = target ∧ ∃ u, IsWalk step start u path ∧ step u v := by
  have last : path.getLast? = some (path.getLast nonempty) := List.getLast?_eq_some_getLast nonempty
  have head : (path ++ [v]).head? = path.head? := List.head?_append_of_ne_nil _ nonempty
  have joins : (path ++ [v]).IsChain step ↔ path.IsChain step ∧ step (path.getLast nonempty) v := by
    simp [isChain_append, last]
  constructor
  · rintro ⟨first, final, follows⟩
    rw [joins] at follows
    refine ⟨by simpa using final, path.getLast nonempty, ⟨head ▸ first, last, follows.1⟩, follows.2⟩
  · rintro ⟨rfl, u, walk, edge⟩
    have same : path.getLast nonempty = u := Option.some.inj (last.symm.trans walk.last)
    exact ⟨head.trans walk.first, by simp, joins.mpr ⟨walk.follows, same ▸ edge⟩⟩

theorem IsWalk.snoc (walk : IsWalk step start u path) (edge : step u v) : IsWalk step start v (path ++ [v]) :=
  (isWalk_snoc walk.ne_nil).mpr ⟨rfl, u, walk, edge⟩

/-- A walk of several vertices has a last step. -/
theorem IsWalk.split (walk : IsWalk step start target path) (long : path.length = n + 2) :
    ∃ u front, path = front ++ [target] ∧ front.length = n + 1 ∧ IsWalk step start u front ∧ step u target := by
  obtain ⟨front, final, rfl⟩ := eq_nil_or_concat' path |>.resolve_left walk.ne_nil
  have length : front.length = n + 1 := by simpa using long
  have nonempty : front ≠ [] := by
    rintro rfl
    cases length
  obtain ⟨rfl, u, before, edge⟩ := (isWalk_snoc nonempty).mp walk
  exact ⟨u, front, rfl, length, before, edge⟩

/-- The shortest walks to a vertex have this many steps. -/
structure AtDistance (step : α → α → Prop) (start : α) (n : Nat) (v : α) : Prop where
  reached : ∃ path, IsWalk step start v path ∧ path.length = n + 1
  least : ∀ path, IsWalk step start v path → n + 1 ≤ path.length

theorem atDistance_start (step : α → α → Prop) (start : α) : AtDistance step start 0 start where
  reached := ⟨[start], by simp, rfl⟩
  least _ walk := walk.length_pos

theorem AtDistance.unique (first : AtDistance step start m v) (second : AtDistance step start n v) : m = n := by
  obtain ⟨path, walk, length⟩ := first.reached
  obtain ⟨path', walk', length'⟩ := second.reached
  have below := first.least path' walk'
  have above := second.least path walk
  omega

theorem AtDistance.eq_start (far : AtDistance step start 0 v) : v = start := by
  obtain ⟨path, walk, length⟩ := far.reached
  obtain ⟨only, rfl⟩ := length_eq_one_iff.mp length
  obtain ⟨rfl, rfl⟩ := isWalk_singleton.mp walk
  rfl

theorem IsWalk.atDistance (walk : IsWalk step start v path) : ∃ n, AtDistance step start n v ∧ n + 1 ≤ path.length := by
  classical
  have some : ∃ length, ∃ path, IsWalk step start v path ∧ path.length = length := ⟨_, path, walk, rfl⟩
  obtain ⟨shortest, found, length⟩ := Nat.find_spec some
  have positive := found.length_pos
  refine ⟨shortest.length - 1, ⟨⟨shortest, found, by omega⟩, ?_⟩, ?_⟩
  · intro other walk'
    have := Nat.find_min' some ⟨other, walk', rfl⟩
    omega
  · have := Nat.find_min' some ⟨path, walk, rfl⟩
    omega

theorem AtDistance.next (far : AtDistance step start n u) (edge : step u v) : ∃ m ≤ n + 1, AtDistance step start m v := by
  obtain ⟨path, walk, length⟩ := far.reached
  obtain ⟨m, near, short⟩ := (walk.snoc edge).atDistance
  simp only [length_append, length_singleton, length] at short
  exact ⟨m, by omega, near⟩

/-- The vertex before the last on a shortest walk is one step nearer. -/
theorem AtDistance.before (far : AtDistance step start (n + 1) v) {front : List α} (walk : IsWalk step start u front)
    (length : front.length = n + 1) (edge : step u v) : AtDistance step start n u where
  reached := ⟨front, walk, length⟩
  least path walk' := by
    have := far.least _ (walk'.snoc edge)
    simp only [length_append, length_singleton] at this
    omega

theorem AtDistance.prev (far : AtDistance step start (n + 1) v) : ∃ u, AtDistance step start n u ∧ step u v := by
  obtain ⟨path, walk, length⟩ := far.reached
  obtain ⟨u, front, rfl, short, before, edge⟩ := walk.split length
  exact ⟨u, far.before before short edge, edge⟩

/-- A vertex at some distance has others before it at every smaller one. -/
theorem AtDistance.layer (far : AtDistance step start n v) (below : m ≤ n) : ∃ u, AtDistance step start m u := by
  induction n generalizing v with
  | zero => exact ⟨v, Nat.le_zero.mp below ▸ far⟩
  | succ n ih =>
    rcases Nat.lt_or_ge n m with above | within
    · exact ⟨v, (show m = n + 1 by omega) ▸ far⟩
    · obtain ⟨u, near, -⟩ := far.prev
      exact ih near within

/-- The vertices at the next distance are the neighbours of those at this one that
are not nearer. -/
theorem atDistance_succ : AtDistance step start (n + 1) v ↔
    (∃ u, AtDistance step start n u ∧ step u v) ∧ ∀ m ≤ n, ¬ AtDistance step start m v := by
  constructor
  · intro far
    refine ⟨far.prev, fun m below near => ?_⟩
    have := near.unique far
    omega
  · rintro ⟨⟨u, near, edge⟩, fresh⟩
    obtain ⟨m, below, far⟩ := near.next edge
    rcases Nat.lt_or_ge n m with above | within
    · exact (show m = n + 1 by omega) ▸ far
    · exact absurd far (fresh m within)

theorem reflTransGen_iff_atDistance : Relation.ReflTransGen step start v ↔ ∃ n, AtDistance step start n v := by
  constructor
  · intro reached
    induction reached with
    | refl => exact ⟨0, atDistance_start step start⟩
    | tail _ edge ih =>
      obtain ⟨n, near⟩ := ih
      obtain ⟨m, -, far⟩ := near.next edge
      exact ⟨m, far⟩
  · rintro ⟨n, far⟩
    induction n generalizing v with
    | zero => exact far.eq_start ▸ .refl
    | succ n ih =>
      obtain ⟨u, near, edge⟩ := far.prev
      exact (ih near).tail edge

/-- Distances depend only on the steps from the vertices that are reached. -/
theorem atDistance_congr {step' : α → α → Prop} (same : ∀ u, Relation.ReflTransGen step start u →
      ∀ v, step' u v ↔ step u v) : AtDistance step' start n v ↔ AtDistance step start n v := by
  induction n using Nat.strongRecOn generalizing v with
  | _ n ih =>
    cases n with
    | zero =>
      constructor <;> intro far <;> rw [far.eq_start] <;> exact atDistance_start _ _
    | succ n =>
      rw [atDistance_succ, atDistance_succ]
      refine and_congr (exists_congr fun u => ?_) (forall₂_congr fun m below => not_congr (ih m (by omega)))
      rw [ih n (by omega)]
      exact and_congr_right fun near => same u (reflTransGen_iff_atDistance.mpr ⟨n, near⟩) v

/-- The shortest walks to a vertex end with a step from the layer before it. -/
theorem shortest_snoc (far : AtDistance step start (n + 1) v) :
    IsWalk step start v path ∧ path.length = n + 2 ↔ ∃ u front, AtDistance step start n u ∧
      step u v ∧ (IsWalk step start u front ∧ front.length = n + 1) ∧ path = front ++ [v] := by
  constructor
  · rintro ⟨walk, length⟩
    obtain ⟨u, front, rfl, short, before, edge⟩ := walk.split length
    exact ⟨u, front, far.before before short edge, edge, ⟨before, short⟩, rfl⟩
  · rintro ⟨u, front, -, edge, ⟨before, short⟩, rfl⟩
    exact ⟨before.snoc edge, by simp [short]⟩

/-- Where a search stands that gives up at the limit: the vertices seen, the queue
of vertices with their distances, and the vertex under expansion, if there is one. -/
structure Searching (step : α → α → Prop) (start : α) (limit : Nat)
    (seen : α → Prop) (queue : List (α × Nat)) (busy : Option (α × Nat)) : Prop where
  origin : seen start
  queued : ∀ entry ∈ queue, seen entry.1 ∧ AtDistance step start entry.2 entry.1
  ordered : queue.Pairwise fun left right => left.2 ≤ right.2 ∧ right.2 ≤ left.2 + 1
  layer : ∀ entry ∈ busy, entry.2 < limit ∧ AtDistance step start entry.2 entry.1 ∧
    ∀ other ∈ queue, entry.2 ≤ other.2 ∧ other.2 ≤ entry.2 + 1
  closed : ∀ v n, seen v → AtDistance step start n v → n < limit → (v, n) ∉ queue → (v, n) ∉ busy → ∀ w, step v w → seen w

theorem Searching.init (step : α → α → Prop) (limit : Nat) (only : ∀ v, seen v ↔ v = start) :
    Searching step start limit seen [(start, 0)] none where
  origin := (only start).mpr rfl
  queued := by
    intro entry mem
    rw [mem_singleton.mp mem]
    exact ⟨(only start).mpr rfl, atDistance_start step start⟩
  ordered := pairwise_singleton _ _
  layer := by simp
  closed := by
    intro v n known far _ unqueued
    obtain rfl := (only v).mp known
    rw [far.unique (atDistance_start step v)] at unqueued
    exact absurd (mem_singleton_self _) unqueued

/-- Every vertex nearer than the ones at hand has been seen. -/
theorem Searching.complete (searching : Searching step start limit seen queue busy)
    {k : Nat} (bounded : k ≤ limit) (ahead : ∀ entry ∈ queue, k ≤ entry.2)
    (active : ∀ entry ∈ busy, k ≤ entry.2) : ∀ n ≤ k, ∀ v, AtDistance step start n v → seen v := by
  intro n
  induction n with
  | zero =>
    intro _ v far
    exact far.eq_start ▸ searching.origin
  | succ n ih =>
    intro below v far
    obtain ⟨u, near, edge⟩ := far.prev
    refine searching.closed u n (ih (by omega) u near) near (by omega) (fun queued => ?_) (fun taken => ?_) v edge
    · have := ahead _ queued
      omega
    · have := active _ taken
      omega

/-- A vertex at the limit is not expanded. -/
theorem Searching.skip (searching : Searching step start limit seen (entry :: queue) none)
    (far : limit ≤ entry.2) : Searching step start limit seen queue none where
  origin := searching.origin
  queued other mem := searching.queued other (.tail _ mem)
  ordered := (pairwise_cons.mp searching.ordered).2
  layer := by simp
  closed v n known atN within unqueued idle := by
    refine searching.closed v n known atN within (fun queued => ?_) idle
    rcases mem_cons.mp queued with same | old
    · rw [← same] at far
      omega
    · exact unqueued old

/-- A vertex is taken from the queue to be expanded. -/
theorem Searching.take (searching : Searching step start limit seen (entry :: queue) none)
    (near : entry.2 < limit) : Searching step start limit seen queue (some entry) where
  origin := searching.origin
  queued other mem := searching.queued other (.tail _ mem)
  ordered := (pairwise_cons.mp searching.ordered).2
  layer := by
    rintro _ ⟨⟩
    exact ⟨near, (searching.queued entry (.head _)).2, (pairwise_cons.mp searching.ordered).1⟩
  closed v n known atN within unqueued idle := by
    refine searching.closed v n known atN within (fun queued => ?_) (by simp)
    rcases mem_cons.mp queued with rfl | old
    · exact idle rfl
    · exact unqueued old

/-- A neighbour that has not been seen is one step further away. -/
theorem Searching.fresh (searching : Searching step start limit seen queue (some (u, n)))
    (edge : step u v) (unseen : ¬ seen v) : AtDistance step start (n + 1) v := by
  obtain ⟨within, far, around⟩ := searching.layer _ rfl
  refine atDistance_succ.mpr ⟨⟨u, far, edge⟩, fun m below near => unseen ?_⟩
  refine searching.complete (Nat.le_of_lt within) (fun entry mem => (around entry mem).1) ?_ m below v near
  rintro _ ⟨⟩
  exact Nat.le_refl n

theorem Searching.discover (searching : Searching step start limit seen queue (some (u, n)))
    (edge : step u v) (unseen : ¬ seen v) (more : ∀ w, seen' w ↔ w = v ∨ seen w) :
    Searching step start limit seen' (queue ++ [(v, n + 1)]) (some (u, n)) where
  origin := (more start).mpr (.inr searching.origin)
  queued := by
    intro entry mem
    rcases mem_append.mp mem with old | new
    · exact ⟨(more _).mpr (.inr (searching.queued entry old).1), (searching.queued entry old).2⟩
    · rw [mem_singleton.mp new]
      exact ⟨(more v).mpr (.inl rfl), searching.fresh edge unseen⟩
  ordered := by
    refine pairwise_append.mpr ⟨searching.ordered, pairwise_singleton _ _, ?_⟩
    intro old mem new last
    obtain ⟨-, -, around⟩ := searching.layer _ rfl
    have := around old mem
    rw [mem_singleton.mp last]
    omega
  layer := by
    rintro _ ⟨⟩
    obtain ⟨within, far, around⟩ := searching.layer _ rfl
    refine ⟨within, far, fun entry mem => ?_⟩
    rcases mem_append.mp mem with old | new
    · exact around entry old
    · rw [mem_singleton.mp new]
      omega
  closed := by
    intro w m known far within unqueued idle x next
    rw [mem_append, not_or] at unqueued
    rcases (more w).mp known with rfl | old
    · rw [far.unique (searching.fresh edge unseen)] at unqueued
      exact absurd (mem_singleton_self _) unqueued.2
    · exact (more x).mpr (.inr (searching.closed w m old far within unqueued.1 idle x next))

/-- A vertex all of whose neighbours have been seen is done. -/
theorem Searching.finish (searching : Searching step start limit seen queue (some (u, n)))
    (all : ∀ w, step u w → seen w) : Searching step start limit seen queue none where
  origin := searching.origin
  queued := searching.queued
  ordered := searching.ordered
  layer := by simp
  closed v m known far within unqueued _ w next := by
    by_cases same : v = u
    · exact all w (same ▸ next)
    · refine searching.closed v m known far within unqueued (fun taken => same ?_) w next
      exact congrArg Prod.fst (Option.some.inj taken).symm

/-- When the queue is empty, everything within the limit has been seen. -/
theorem Searching.exhausted (searching : Searching step start limit seen [] none)
    (walk : IsWalk step start v path) (short : path.length ≤ limit + 1) : seen v := by
  obtain ⟨n, far, below⟩ := walk.atDistance
  exact searching.complete (Nat.le_refl limit) (by simp) (by simp) n (by omega) v far

end ByoriDB.Data
