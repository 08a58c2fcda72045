import Mathlib.Algebra.Order.Monoid.Defs
import Mathlib.Data.List.Nodup

namespace ByoriDB.Data

open List

variable {α K : Type} [AddCommMonoid K] [LinearOrder K]

/-- The vertices of a walk in order, and the sum of the weights of its steps. -/
inductive WeightedWalk (step : α → α → K → Prop) (start : α) : α → List α → K → Prop where
  | here : WeightedWalk step start start [start] 0
  | next {u v : α} {path : List α} {total weight : K} (walk : WeightedWalk step start u path total) (edge : step u v weight) :
      WeightedWalk step start v (path ++ [v]) (total + weight)

/-- Where a search stands.  `settled` lists the nodes that were taken, the last one
first; their weights are up to `level`, those on the heap from there on.  The steps
in `pending` have not been tried yet. -/
structure Settling (step : α → α → K → Prop) (init : α) (dist : α → Option K) (parent : α → Option α) (heap : List (K × α))
    (settled : List α) (pending : α → α → K → Prop) (level : K) : Prop where
  origin : dist init = some 0
  nonneg : 0 ≤ level
  linked : ∀ s d, dist s = some d → s = init ∨ ∃ p e c, parent s = some p ∧ p ∈ settled ∧ dist p = some e ∧ step p s c ∧ d = e + c
  earlier : ∀ front s back, settled = front ++ s :: back → s ≠ init → ∃ p ∈ back, parent s = some p
  waiting : ∀ entry ∈ heap, level ≤ entry.1 ∧ ∃ d, dist entry.2 = some d ∧ d ≤ entry.1
  ordered : heap.Pairwise fun left right => left.1 ≤ right.1
  distinct : heap.Nodup
  done : ∀ s ∈ settled, ∃ d, dist s = some d ∧ d ≤ level ∧ (d, s) ∉ heap
  once : settled.Nodup
  covered : ∀ s d, dist s = some d → s ∈ settled ∨ (d, s) ∈ heap
  closed : ∀ s ∈ settled, ∀ d t c, dist s = some d → step s t c → ¬ pending s t c → ∃ e, dist t = some e ∧ e ≤ d + c

section

variable {step : α → α → K → Prop} {init s t : α} {dist : α → Option K} {parent : α → Option α} {heap : List (K × α)}
  {settled : List α} {pending pending' : α → α → K → Prop} {level d c : K}

theorem Settling.start (step : α → α → K → Prop) (only : ∀ s d, dist s = some d ↔ s = init ∧ d = 0) :
    Settling step init dist parent [(0, init)] [] (fun _ _ _ => False) 0 where
  origin := (only init 0).mpr ⟨rfl, rfl⟩
  nonneg := le_refl 0
  linked s d found := .inl ((only s d).mp found).1
  earlier := by simp
  waiting := by
    intro entry mem
    rw [mem_singleton.mp mem]
    exact ⟨le_refl 0, 0, (only init 0).mpr ⟨rfl, rfl⟩, le_refl 0⟩
  ordered := pairwise_singleton _ _
  distinct := nodup_singleton _
  done := by simp
  once := .nil
  covered s d found := by
    obtain ⟨rfl, rfl⟩ := (only s d).mp found
    exact .inr (mem_singleton_self _)
  closed := by simp

/-- An outdated entry is dropped. -/
theorem Settling.skip (settling : Settling step init dist parent ((d, s) :: heap) settled pending level)
    {e : K} (found : dist s = some e) (outdated : e < d) : Settling step init dist parent heap settled pending level where
  origin := settling.origin
  nonneg := settling.nonneg
  linked := settling.linked
  earlier := settling.earlier
  waiting entry mem := settling.waiting entry (.tail _ mem)
  ordered := (pairwise_cons.mp settling.ordered).2
  distinct := (nodup_cons.mp settling.distinct).2
  done t mem := by
    obtain ⟨e, stored, below, absent⟩ := settling.done t mem
    exact ⟨e, stored, below, fun old => absent (.tail _ old)⟩
  once := settling.once
  covered t e' stored := by
    refine (settling.covered t e' stored).imp_right fun mem => ?_
    rcases mem_cons.mp mem with same | old
    · obtain ⟨rfl, rfl⟩ := Prod.mk.inj same
      rw [found, Option.some.injEq] at stored
      exact absurd stored (ne_of_lt outdated)
    · exact old
  closed := settling.closed

/-- A node is taken with its weight, which no other node taken before exceeds. -/
theorem Settling.settle (settling : Settling step init dist parent ((d, s) :: heap) settled (fun _ _ _ => False) level)
    (found : dist s = some d) :
    s ∉ settled ∧ Settling step init dist parent heap (s :: settled) (fun u _ _ => u = s) d := by
  have above : level ≤ d := (settling.waiting _ (.head _)).1
  have fresh : s ∉ settled := by
    intro mem
    obtain ⟨e, stored, -, absent⟩ := settling.done s mem
    rw [found, Option.some.injEq] at stored
    exact absent (stored ▸ .head _)
  refine ⟨fresh, ?_⟩
  constructor
  · exact settling.origin
  · exact settling.nonneg.trans above
  · intro t e stored
    refine (settling.linked t e stored).imp_right ?_
    rintro ⟨p, e', c, known, mem, rest⟩
    exact ⟨p, e', c, known, .tail _ mem, rest⟩
  · intro front t back shape other
    cases front with
    | nil =>
      obtain ⟨rfl, rfl⟩ := List.cons.inj shape
      obtain ⟨p, -, -, known, mem, -⟩ := (settling.linked s d found).resolve_left other
      exact ⟨p, mem, known⟩
    | cons _ front => exact settling.earlier front t back (List.cons.inj shape).2 other
  · intro entry mem
    exact ⟨(pairwise_cons.mp settling.ordered).1 entry mem, (settling.waiting entry (.tail _ mem)).2⟩
  · exact (pairwise_cons.mp settling.ordered).2
  · exact (nodup_cons.mp settling.distinct).2
  · intro t mem
    rcases mem_cons.mp mem with rfl | old
    · exact ⟨d, found, le_refl d, (nodup_cons.mp settling.distinct).1⟩
    · obtain ⟨e, stored, below, absent⟩ := settling.done t old
      exact ⟨e, stored, below.trans above, fun later => absent (.tail _ later)⟩
  · exact nodup_cons.mpr ⟨fresh, settling.once⟩
  · intro t e stored
    rcases settling.covered t e stored with old | mem
    · exact .inl (.tail _ old)
    · rcases mem_cons.mp mem with same | later
      · exact .inl ((Prod.mk.inj same).2 ▸ .head _)
      · exact .inr later
  · intro u mem e t c stored edge tried
    rcases mem_cons.mp mem with rfl | old
    · exact absurd rfl tried
    · exact settling.closed u old e t c stored edge (by simp)

section

variable (settling : Settling step init dist parent heap settled pending level)

include settling

/-- A step does not improve the weight of the node it leads to. -/
theorem Settling.keep (here : dist s = some level) {e : K}
    (found : dist t = some e) (least : e ≤ level + c)
    (fewer : ∀ u v w, pending u v w → pending' u v w ∨ u = s ∧ v = t ∧ w = c) :
    Settling step init dist parent heap settled pending' level :=
  { settling with
    closed := by
      intro u mem d v w stored edge tried
      by_cases before : pending u v w
      · rcases fewer u v w before with still | ⟨rfl, rfl, rfl⟩
        · exact absurd still tried
        · rw [here, Option.some.injEq] at stored
          exact ⟨e, found, stored ▸ least⟩
      · exact settling.closed u mem d v w stored edge before }

/-- A step improves the weight of the node it leads to. -/
theorem Settling.relax [IsOrderedAddMonoid K] [DecidableEq α] (taken : s ∈ settled)
    (here : dist s = some level) (edge : step s t c) (cost : 0 ≤ c) (better : ∀ e, dist t = some e → level + c < e)
    (dists : ∀ u, dist' u = if u = t then some (level + c) else dist u)
    (parents : ∀ u, parent' u = if u = t then some s else parent u) (pushed : heap'.Perm ((level + c, t) :: heap))
    (sorted : heap'.Pairwise fun left right => left.1 ≤ right.1)
    (fewer : ∀ u v w, pending u v w → pending' u v w ∨ u = s ∧ v = t ∧ w = c) :
    t ∉ settled ∧ Settling step init dist' parent' heap' settled pending' level := by
  have above : level ≤ level + c := le_add_of_nonneg_right cost
  have unsettled : t ∉ settled := by
    intro mem
    obtain ⟨e, stored, below, -⟩ := settling.done t mem
    exact absurd (below.trans above) (not_le_of_gt (better e stored))
  have other : ∀ {u}, u ∈ settled → u ≠ t := by
    rintro u mem rfl
    exact unsettled mem
  have notInit : t ≠ init := by
    rintro rfl
    exact absurd (settling.nonneg.trans above) (not_le_of_gt (better 0 settling.origin))
  have unpushed : (level + c, t) ∉ heap := by
    intro mem
    obtain ⟨-, e, stored, below⟩ := settling.waiting _ mem
    exact absurd below (not_le_of_gt (better e stored))
  refine ⟨unsettled, ?_⟩
  constructor
  · rw [dists, if_neg (Ne.symm notInit)]
    exact settling.origin
  · exact settling.nonneg
  · intro u d stored
    rw [dists] at stored
    split at stored
    · rename_i same
      subst same
      cases stored
      refine .inr ⟨s, level, c, by rw [parents, if_pos rfl], taken, ?_, edge, rfl⟩
      rw [dists, if_neg (other taken)]
      exact here
    · rename_i apart
      refine (settling.linked u d stored).imp_right ?_
      rintro ⟨p, e, c', known, mem, weight, edge', sum⟩
      refine ⟨p, e, c', by rw [parents, if_neg apart, known], mem, ?_, edge', sum⟩
      rw [dists, if_neg (other mem), weight]
  · intro front u back shape apart
    have mem : u ∈ settled := by rw [shape]; simp
    obtain ⟨p, before, known⟩ := settling.earlier front u back shape apart
    exact ⟨p, before, by rw [parents, if_neg (other mem), known]⟩
  · intro entry mem
    rcases mem_cons.mp (pushed.mem_iff.mp mem) with rfl | old
    · exact ⟨above, level + c, by rw [dists, if_pos rfl], le_refl _⟩
    · obtain ⟨from_, e, stored, below⟩ := settling.waiting entry old
      refine ⟨from_, ?_⟩
      rw [dists]
      split
      · rename_i same
        exact ⟨level + c, rfl, (le_of_lt (better e (same ▸ stored))).trans below⟩
      · exact ⟨e, stored, below⟩
  · exact sorted
  · exact pushed.nodup_iff.mpr (nodup_cons.mpr ⟨unpushed, settling.distinct⟩)
  · intro u mem
    obtain ⟨e, stored, below, absent⟩ := settling.done u mem
    refine ⟨e, by rw [dists, if_neg (other mem), stored], below, fun present => ?_⟩
    rcases mem_cons.mp (pushed.mem_iff.mp present) with same | old
    · exact other mem (Prod.mk.inj same).2
    · exact absent old
  · exact settling.once
  · intro u e stored
    rw [dists] at stored
    split at stored
    · rename_i same
      cases stored
      exact .inr (pushed.mem_iff.mpr (same ▸ .head _))
    · exact (settling.covered u e stored).imp_right fun old => pushed.mem_iff.mpr (.tail _ old)
  · intro u mem d v w stored edge' tried
    rw [dists, if_neg (other mem)] at stored
    rw [dists]
    split
    · rename_i same
      subst same
      refine ⟨level + c, rfl, ?_⟩
      by_cases before : pending u v w
      · rcases fewer u v w before with still | ⟨rfl, -, rfl⟩
        · exact absurd still tried
        · rw [here, Option.some.injEq] at stored
          rw [stored]
      · obtain ⟨e, known, below⟩ := settling.closed u mem d v w stored edge' before
        exact (le_of_lt (better e known)).trans below
    · rename_i apart
      by_cases before : pending u v w
      · rcases fewer u v w before with still | ⟨-, rfl, -⟩
        · exact absurd still tried
        · exact absurd rfl apart
      · exact settling.closed u mem d v w stored edge' before

/-- Only the steps that exist can be pending. -/
theorem Settling.narrow (still : ∀ s t c, step s t c → pending s t c → pending' s t c) :
    Settling step init dist parent heap settled pending' level :=
  { settling with
    closed := fun s mem d t c stored edge tried =>
      settling.closed s mem d t c stored edge fun before => tried (still s t c edge before) }

end

/-- When the heap is empty, no step improves a weight. -/
theorem Settling.exhausted (settling : Settling step init dist parent [] settled (fun _ _ _ => False) level)
    (found : dist s = some d) (edge : step s t c) : s ∈ settled ∧ ∃ e, dist t = some e ∧ e ≤ d + c := by
  have taken : s ∈ settled := (settling.covered s d found).resolve_right not_mem_nil
  exact ⟨taken, settling.closed s taken d t c found edge (by simp)⟩

end

end ByoriDB.Data
