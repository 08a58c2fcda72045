import Mathlib.Logic.Relation
import Mathlib.Order.Lattice

namespace ByoriDB.Data

open Relation

variable {α : Type}

def withPair (related : α → α → Prop) (left right : α) (a b : α) : Prop := related a b ∨ (a = left ∧ b = right)

def joined [DecidableEq α] (rep : α → α) (winner loser : α) (a : α) : α := if rep a = loser then winner else rep a

/-- The map sends every element to the least element of its class. -/
structure Least [LE α] (rep : α → α) (related : α → α → Prop) : Prop where
  reaches : ∀ a, EqvGen related a (rep a)
  same : ∀ {a b}, EqvGen related a b → rep a = rep b
  least : ∀ a, rep a ≤ a

theorem eqvGen_implies {related wider : α → α → Prop} (step : ∀ a b, related a b → EqvGen wider a b)
    {a b : α} (chain : EqvGen related a b) : EqvGen wider a b := by
  induction chain with
  | rel _ _ one => exact step _ _ one
  | refl a => exact .refl a
  | symm _ _ _ ih => exact .symm _ _ ih
  | trans _ _ _ _ _ first second => exact .trans _ _ _ first second

namespace Least

section

variable [LE α] {rep : α → α} {related wider : α → α → Prop}

theorem same_iff (least : Least rep related) {a b : α} : rep a = rep b ↔ EqvGen related a b := by
  constructor
  · intro same
    exact .trans _ _ _ (least.reaches a) (same ▸ .symm _ _ (least.reaches b))
  · exact least.same

/-- The representative is a lower bound of its class. -/
theorem le (least : Least rep related) {a b : α} (together : EqvGen related a b) : rep a ≤ b :=
  least.same together ▸ least.least b

theorem congr (least : Least rep related) (fewer : ∀ a b, related a b → EqvGen wider a b)
    (more : ∀ a b, wider a b → EqvGen related a b) : Least rep wider where
  reaches a := eqvGen_implies fewer (least.reaches a)
  same together := least.same (eqvGen_implies more together)
  least := least.least

end

theorem id [Preorder α] : Least (fun a : α => a) fun _ _ => False where
  reaches a := .refl a
  same := by
    intro a b together
    induction together with
    | rel _ _ impossible => exact impossible.elim
    | refl a => rfl
    | symm _ _ _ ih => exact ih.symm
    | trans _ _ _ _ _ first second => exact first.trans second
  least := le_refl

/-- The relation determines the map. -/
theorem unique [PartialOrder α] {rep rep' : α → α} {related : α → α → Prop}
    (least : Least rep related) (other : Least rep' related) : rep = rep' := by
  funext a
  apply le_antisymm
  · exact least.le (other.reaches a)
  · exact other.le (least.reaches a)

section

variable [LinearOrder α] {rep : α → α} {related : α → α → Prop}

/-- A pair across two classes joins them, under the smaller representative. -/
theorem join (least : Least rep related) (a b : α) :
    Least (joined rep (min (rep a) (rep b)) (max (rep a) (rep b))) (withPair related a b) := by
  have wider : ∀ {x y}, EqvGen related x y → EqvGen (withPair related a b) x y :=
    fun chain => eqvGen_implies (fun _ _ one => .rel _ _ (.inl one)) chain
  have across : EqvGen (withPair related a b) (rep a) (rep b) :=
    .trans _ _ _ (wider (.symm _ _ (least.reaches a)))
      (.trans _ _ _ (.rel _ _ (.inr ⟨rfl, rfl⟩)) (wider (least.reaches b)))
  have extremes : EqvGen (withPair related a b) (max (rep a) (rep b)) (min (rep a) (rep b)) := by
    rcases le_total (rep a) (rep b) with order | order
    · rw [max_eq_right order, min_eq_left order]
      exact .symm _ _ across
    · rw [max_eq_left order, min_eq_right order]
      exact across
  constructor
  · intro x
    unfold joined
    split
    · rename_i moved
      exact .trans _ _ _ (wider (least.reaches x)) (moved ▸ extremes)
    · exact wider (least.reaches x)
  · intro x y together
    induction together with
    | rel x y one =>
      rcases one with one | ⟨rfl, rfl⟩
      · simp [joined, least.same (.rel _ _ one)]
      · unfold joined
        rcases le_total (rep x) (rep y) with order | order
        · rw [max_eq_right order, min_eq_left order, if_pos rfl]
          split <;> rfl
        · rw [max_eq_left order, min_eq_right order, if_pos rfl]
          split <;> rfl
    | refl x => rfl
    | symm _ _ _ ih => exact ih.symm
    | trans _ _ _ _ _ first second => exact first.trans second
  · intro x
    unfold joined
    split
    · rename_i moved
      exact le_trans (min_le_left _ _) (le_trans (le_max_left _ _) (moved ▸ least.least x))
    · exact least.least x

end

end Least

end ByoriDB.Data
