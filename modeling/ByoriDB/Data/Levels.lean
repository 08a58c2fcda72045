import ByoriDB.Data.Walks
import Mathlib.Data.List.Nodup

namespace ByoriDB.Data

open List

variable {α : Type} {step : α → α → Prop} {start u v : α} {k : Nat} {tried tried' : α → α → Prop}

/-- One level of a search: the vertices at distance `k` are under expansion, and
these edges have been tried. -/
structure Level (step : α → α → Prop) (start : α) (k : Nat) (tried : α → α → Prop)
    (seen : α → Prop) (next : List α) : Prop where
  met : ∀ v, seen v ↔ (∃ n ≤ k, AtDistance step start n v) ∨ v ∈ next
  listed : ∀ v, v ∈ next ↔ AtDistance step start (k + 1) v ∧ ∃ u, tried u v
  distinct : next.Nodup

section

variable {seen seen' : α → Prop} {next : List α}

theorem Level.init (step : α → α → Prop) (only : ∀ v, seen v ↔ v = start) :
    Level step start 0 (fun _ _ => False) seen [] where
  met := by
    intro v
    rw [only]
    constructor
    · rintro rfl
      exact .inl ⟨0, Nat.le_refl 0, atDistance_start step v⟩
    · rintro (⟨n, below, far⟩ | impossible)
      · rw [Nat.le_zero.mp below] at far
        exact far.eq_start
      · cases impossible
  listed := by simp
  distinct := .nil

variable (level : Level step start k tried seen next)
include level

/-- The edge leads to a vertex that has been met. -/
theorem Level.known (known : seen v) (more : ∀ a b, tried' a b ↔ (a = u ∧ b = v) ∨ tried a b) :
    Level step start k tried' seen next where
  met := level.met
  listed := by
    intro w
    rw [level.listed]
    refine and_congr_right fun far => ⟨?_, ?_⟩
    · rintro ⟨a, before⟩
      exact ⟨a, (more a w).mpr (.inr before)⟩
    · rintro ⟨a, edge⟩
      rcases (more a w).mp edge with ⟨-, rfl⟩ | before
      · rcases (level.met w).mp known with ⟨n, below, near⟩ | waiting
        · have := near.unique far
          omega
        · exact ((level.listed w).mp waiting).2
      · exact ⟨a, before⟩
  distinct := level.distinct

/-- A new vertex is one step further away. -/
theorem Level.far (here : AtDistance step start k u) (edge : step u v)
    (unseen : ¬ seen v) : AtDistance step start (k + 1) v :=
  atDistance_succ.mpr ⟨⟨u, here, edge⟩, fun n below near => unseen ((level.met v).mpr (.inl ⟨n, below, near⟩))⟩

theorem Level.fresh (here : AtDistance step start k u) (edge : step u v) (unseen : ¬ seen v)
    (more : ∀ a b, tried' a b ↔ (a = u ∧ b = v) ∨ tried a b)
    (grown : ∀ w, seen' w ↔ w = v ∨ seen w) : Level step start k tried' seen' (next ++ [v]) where
  met := by
    intro w
    rw [grown, level.met, mem_append, mem_singleton, or_comm, or_assoc]
  listed := by
    intro w
    rw [mem_append, mem_singleton, level.listed]
    constructor
    · rintro (⟨far, a, before⟩ | rfl)
      · exact ⟨far, a, (more a w).mpr (.inr before)⟩
      · exact ⟨level.far here edge unseen, u, (more u w).mpr (.inl ⟨rfl, rfl⟩)⟩
    · rintro ⟨far, a, taken⟩
      rcases (more a w).mp taken with ⟨-, rfl⟩ | before
      · exact .inr rfl
      · exact .inl ⟨far, a, before⟩
  distinct := by
    refine nodup_append.mpr ⟨level.distinct, nodup_singleton v, ?_⟩
    rintro w mem _ last rfl
    rw [mem_singleton.mp last] at mem
    exact unseen ((level.met v).mpr (.inr mem))

section

variable (all : ∀ u v, AtDistance step start k u → step u v → tried u v)

include all

theorem Level.mem_next (v : α) :
    v ∈ next ↔ AtDistance step start (k + 1) v := by
  rw [level.listed]
  refine ⟨And.left, fun far => ⟨far, ?_⟩⟩
  obtain ⟨u, near, edge⟩ := far.prev
  exact ⟨u, all u v near edge⟩

/-- When every edge of the level has been tried, the next level begins. -/
theorem Level.advance :
    Level step start (k + 1) (fun _ _ => False) seen [] where
  met := by
    intro v
    rw [level.met, level.mem_next all]
    constructor
    · rintro (⟨n, below, far⟩ | far)
      · exact .inl ⟨n, by omega, far⟩
      · exact .inl ⟨k + 1, Nat.le_refl _, far⟩
    · rintro (⟨n, below, far⟩ | impossible)
      · rcases Nat.lt_or_ge k n with above | within
        · exact .inr ((show n = k + 1 by omega) ▸ far)
        · exact .inl ⟨n, within, far⟩
      · cases impossible
  listed := by simp
  distinct := .nil

end

end

/-- The depths of the vertices a search by levels has met, and for each of them the
vertices of the level before from which it was met. -/
structure Predecessors (step : α → α → Prop) (start : α) (k : Nat)
    (tried : α → α → Prop) (depth : α → Option Nat) (parents : α → Option (List α)) : Prop where
  depths : ∀ v d, depth v = some d ↔ AtDistance step start d v ∧ (d ≤ k ∨ d = k + 1 ∧ ∃ u, tried u v)
  listed : ∀ v d, depth v = some (d + 1) → ∃ before, parents v = some before ∧ before.Nodup ∧
    ∀ p, p ∈ before ↔ AtDistance step start d p ∧ step p v ∧ (d < k ∨ tried p v)

section

variable {d : Nat} {depth depth' : α → Option Nat} {parents parents' : α → Option (List α)} {before : List α}

theorem Predecessors.init (step : α → α → Prop) (only : ∀ v d, depth v = some d ↔ v = start ∧ d = 0) :
    Predecessors step start 0 (fun _ _ => False) depth parents where
  depths := by
    intro v d
    rw [only]
    constructor
    · rintro ⟨rfl, rfl⟩
      exact ⟨atDistance_start step v, .inl (Nat.le_refl 0)⟩
    · rintro ⟨far, below | ⟨-, u, impossible⟩⟩
      · rw [Nat.le_zero.mp below] at far ⊢
        exact ⟨far.eq_start, rfl⟩
      · cases impossible
  listed := by
    intro v d found
    cases ((only v (d + 1)).mp found).2

variable (predecessors : Predecessors step start k tried depth parents)
include predecessors

theorem Predecessors.unseen (absent : depth v = none) {n : Nat} (below : n ≤ k) : ¬ AtDistance step start n v := by
  intro near
  rw [(predecessors.depths v n).mpr ⟨near, .inl below⟩] at absent
  cases absent

/-- A vertex is met for the first time. -/
theorem Predecessors.fresh (here : AtDistance step start k u) (edge : step u v)
    (absent : depth v = none) (more : ∀ a b, tried' a b ↔ (a = u ∧ b = v) ∨ tried a b)
    (self : depth' v = some (k + 1)) (own : parents' v = some [u])
    (others : ∀ w, w ≠ v → depth' w = depth w ∧ parents' w = parents w) :
    Predecessors step start k tried' depth' parents' := by
  have far : AtDistance step start (k + 1) v :=
    atDistance_succ.mpr ⟨⟨u, here, edge⟩, fun n below => predecessors.unseen absent below⟩
  have untried : ∀ a, ¬ tried a v := by
    intro a before
    rw [(predecessors.depths v (k + 1)).mpr ⟨far, .inr ⟨rfl, a, before⟩⟩] at absent
    cases absent
  constructor
  · intro w d
    by_cases same : w = v
    · subst same
      rw [self, Option.some.injEq]
      constructor
      · rintro rfl
        exact ⟨far, .inr ⟨rfl, u, (more u w).mpr (.inl ⟨rfl, rfl⟩)⟩⟩
      · rintro ⟨far', -⟩
        exact far.unique far'
    · rw [(others w same).1, predecessors.depths]
      refine and_congr_right fun _ => or_congr_right (and_congr_right fun _ => exists_congr fun a => ?_)
      rw [more]
      tauto
  · intro w d found
    by_cases same : w = v
    · subst same
      rw [self, Option.some.injEq, Nat.add_right_cancel_iff] at found
      subst found
      refine ⟨[u], own, nodup_singleton u, fun p => ?_⟩
      rw [mem_singleton]
      constructor
      · rintro rfl
        exact ⟨here, edge, .inr ((more p w).mpr (.inl ⟨rfl, rfl⟩))⟩
      · rintro ⟨-, -, below | taken⟩
        · omega
        · rcases (more p w).mp taken with ⟨rfl, -⟩ | old
          · rfl
          · exact absurd old (untried p)
    · rw [(others w same).1] at found
      obtain ⟨before, stored, distinct, members⟩ := predecessors.listed w d found
      refine ⟨before, (others w same).2.trans stored, distinct, fun p => ?_⟩
      rw [members, more]
      tauto

/-- A vertex of the next level is met again, from another vertex. -/
theorem Predecessors.again (here : AtDistance step start k u)
    (edge : step u v) (found : depth v = some (k + 1)) (untried : ¬ tried u v)
    (more : ∀ a b, tried' a b ↔ (a = u ∧ b = v) ∨ tried a b) (stored : parents v = some before)
    (own : parents' v = some (before ++ [u])) (others : ∀ w, w ≠ v → parents' w = parents w) :
    Predecessors step start k tried' depth parents' := by
  constructor
  · intro w d
    rw [predecessors.depths]
    refine and_congr_right fun far' => or_congr_right (and_congr_right fun at_ => ⟨?_, ?_⟩)
    · rintro ⟨a, old⟩
      exact ⟨a, (more a w).mpr (.inr old)⟩
    · rintro ⟨a, taken⟩
      rcases (more a w).mp taken with ⟨-, rfl⟩ | old
      · rcases ((predecessors.depths w (k + 1)).mp found).2 with impossible | ⟨-, earlier⟩
        · omega
        · exact earlier
      · exact ⟨a, old⟩
  · intro w d found'
    obtain ⟨before', stored', distinct, members⟩ := predecessors.listed w d found'
    by_cases same : w = v
    · subst same
      rw [found, Option.some.injEq, Nat.add_right_cancel_iff] at found'
      subst found'
      rw [stored, Option.some.injEq] at stored'
      subst stored'
      refine ⟨before ++ [u], own, ?_, fun p => ?_⟩
      · refine nodup_append.mpr ⟨distinct, nodup_singleton u, ?_⟩
        rintro p mem _ last rfl
        rw [mem_singleton.mp last] at mem
        rcases ((members u).mp mem).2.2 with impossible | old
        · omega
        · exact untried old
      · rw [mem_append, mem_singleton, members, more]
        constructor
        · rintro (⟨near, follows, old⟩ | rfl)
          · exact ⟨near, follows, old.imp_right .inr⟩
          · exact ⟨here, edge, .inr (.inl ⟨rfl, rfl⟩)⟩
        · rintro ⟨near, follows, below | ⟨rfl, -⟩ | old⟩
          · omega
          · exact .inr rfl
          · exact .inl ⟨near, follows, .inr old⟩
    · refine ⟨before', (others w same).trans stored', distinct, fun p => ?_⟩
      rw [members, more]
      tauto

/-- The edge does not lead to the next level. -/
theorem Predecessors.nearer (near : AtDistance step start d v) (below : d ≤ k)
    (more : ∀ a b, tried' a b ↔ (a = u ∧ b = v) ∨ tried a b) : Predecessors step start k tried' depth parents := by
  have other : ∀ {w n}, AtDistance step start n w → k < n → w ≠ v := by
    rintro w n far above rfl
    have := near.unique far
    omega
  constructor
  · intro w n
    rw [predecessors.depths]
    refine and_congr_right fun far => or_congr_right (and_congr_right fun at_ => exists_congr fun a => ?_)
    have apart := other far (by omega)
    rw [more]
    tauto
  · intro w n found
    obtain ⟨before, stored, distinct, members⟩ := predecessors.listed w n found
    refine ⟨before, stored, distinct, fun p => ?_⟩
    have far := ((predecessors.depths w (n + 1)).mp found).1
    rw [members, more]
    refine and_congr_right fun _ => and_congr_right fun _ => ⟨fun old => old.imp_right .inr, ?_⟩
    rintro (below' | ⟨-, same⟩ | old)
    · exact .inl below'
    · exact .inl (by
        by_contra above
        exact other far (by omega) same)
    · exact .inr old

/-- When every edge of the level has been tried, the next level begins. -/
theorem Predecessors.advance (all : ∀ u v, AtDistance step start k u → step u v → tried u v) :
    Predecessors step start (k + 1) (fun _ _ => False) depth parents where
  depths := by
    intro v d
    rw [predecessors.depths]
    refine and_congr_right fun far => ⟨?_, ?_⟩
    · rintro (below | ⟨at_, -⟩) <;> exact .inl (by omega)
    · rintro (below | ⟨-, u, impossible⟩)
      · rcases Nat.lt_or_ge k d with above | within
        · obtain rfl : d = k + 1 := by omega
          obtain ⟨u, near, edge⟩ := far.prev
          exact .inr ⟨rfl, u, all u v near edge⟩
        · exact .inl within
      · cases impossible
  listed := by
    intro v d found
    obtain ⟨before, stored, distinct, members⟩ := predecessors.listed v d found
    refine ⟨before, stored, distinct, fun p => ?_⟩
    rw [members]
    refine and_congr_right fun near => and_congr_right fun edge => ⟨?_, ?_⟩
    · intro taken
      rcases ((predecessors.depths v (d + 1)).mp found).2 with within | ⟨at_, -⟩ <;> exact .inl (by omega)
    · rintro (below | impossible)
      · rcases Nat.lt_or_ge d k with within | above
        · exact .inl within
        · obtain rfl : d = k := by omega
          exact .inr (all p v near edge)
      · cases impossible

end

end ByoriDB.Data
