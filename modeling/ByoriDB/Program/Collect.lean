import ByoriDB.Program.Answers
import Mathlib.Data.List.Nodup

namespace ByoriDB.Program

open List

variable {S : Signature} {ε α β γ σ τ τ' ρ : Type} {handler : Handler S σ} {state : σ} {raise : ε → Prop}
  {items : List γ} {other : τ → ρ → Prop}

/-- The list holds every item with the property once, and no other. -/
structure Enumerates (items : List α) (holds : α → Prop) : Prop where
  nodup : items.Nodup
  mem : ∀ item, item ∈ items ↔ holds item

theorem Enumerates.unmet {holds : α → Prop} (none : Enumerates [] holds) (item : α) : ¬ holds item := by
  simp [← none.mem]

theorem Enumerates.length_eq {items items' : List α} {holds : α → Prop}
    (first : Enumerates items holds) (second : Enumerates items' holds) :
    items.length = items'.length :=
  ((perm_ext_iff_of_nodup first.nodup second.nodup).mpr fun item => (first.mem item).trans (second.mem item).symm).length_eq

theorem nodup_eraseDups [DecidableEq α] (items : List α) : items.eraseDups.Nodup := by
  induction length : items.length using Nat.strongRecOn generalizing items with
  | _ count ih =>
    cases items with
    | nil => simp
    | cons item rest =>
      rw [eraseDups_cons, nodup_cons]
      have shorter : (rest.filter fun other => !other == item).length < count := by
        have bound := length_filter_le (fun other => !other == item) rest
        simp only [length_cons] at length
        omega
      exact ⟨by simp [mem_eraseDups], ih _ shorter _ rfl⟩

/-- The rows behind the former ones are those of the finds, one for each. -/
def Collects (yields : τ → ρ → Prop) (rows rows' : List ρ) : Prop :=
  ∃ found : List (τ × ρ), Enumerates found (fun find => yields find.1 find.2) ∧ rows' = rows ++ found.map Prod.snd

/-- The finds, or some of them, are too many on top of the rows there are. -/
def Overfull (full : Nat → Prop) (yields : τ → ρ → Prop) (count : Nat) : Prop :=
  ∃ found : List (τ × ρ), found.Nodup ∧ (∀ find ∈ found, yields find.1 find.2) ∧ full (count + found.length)

section

variable {yields : τ → ρ → Prop} {yields' : τ' → ρ → Prop} {rows : List ρ} {full : Nat → Prop} {count : Nat}

theorem Collects.none (nothing : ∀ find row, ¬ yields find row) : Collects yields rows rows :=
  ⟨[], ⟨.nil, fun find => by simp [nothing find.1 find.2]⟩, by simp⟩

theorem Collects.one (find : τ) (row : ρ) (only : ∀ other row', yields other row' ↔ other = find ∧ row' = row) :
    Collects yields rows (rows ++ [row]) := by
  refine ⟨[(find, row)], ⟨nodup_singleton _, fun other => ?_⟩, rfl⟩
  rw [mem_singleton, only, Prod.ext_iff]

theorem Overfull.one {find : τ} {row : ρ} (holds : yields find row)
    (many : full (count + 1)) : Overfull full yields count := by
  refine ⟨[(find, row)], nodup_singleton _, fun other listed => ?_, many⟩
  rw [mem_singleton.mp listed]
  exact holds

/-- Finds may be named otherwise. -/
structure Renames (rename : τ → τ') (yields : τ → ρ → Prop) (yields' : τ' → ρ → Prop) : Prop where
  inj : ∀ {find other row row'}, yields find row → yields other row' → rename find = rename other → find = other
  sound : ∀ {find row}, yields find row → yields' (rename find) row
  complete : ∀ {find row}, yields' find row → ∃ origin, rename origin = find ∧ yields origin row

theorem Renames.nodup {rename : τ → τ'} (renames : Renames rename yields yields')
    {found : List (τ × ρ)} (nodup : found.Nodup) (holds : ∀ find ∈ found, yields find.1 find.2) :
    (found.map fun find => (rename find.1, find.2)).Nodup := by
  refine nodup.map_on ?_
  rintro ⟨find, row⟩ listed ⟨other, row'⟩ listed' same
  obtain ⟨sameFind, sameRow⟩ := Prod.mk.inj same
  exact Prod.ext (renames.inj (holds _ listed) (holds _ listed') sameFind) sameRow

theorem Collects.rename {rename : τ → τ'} (collects : Collects yields rows rows')
    (renames : Renames rename yields yields') : Collects yields' rows rows' := by
  obtain ⟨found, ⟨nodup, mem⟩, rfl⟩ := collects
  refine ⟨found.map fun find => (rename find.1, find.2), ⟨renames.nodup nodup fun find => (mem find).mp, ?_⟩, by simp⟩
  rintro ⟨find, row⟩
  rw [mem_map]
  constructor
  · rintro ⟨origin, listed, same⟩
    obtain ⟨rfl, rfl⟩ := Prod.mk.inj same
    exact renames.sound ((mem origin).mp listed)
  · intro holds
    obtain ⟨origin, rfl, yielded⟩ := renames.complete holds
    exact ⟨(origin, row), (mem _).mpr yielded, rfl⟩

theorem Overfull.rename {rename : τ → τ'} (overfull : Overfull full yields count)
    (renames : Renames rename yields yields') : Overfull full yields' count := by
  obtain ⟨found, nodup, holds, many⟩ := overfull
  refine ⟨found.map fun find => (rename find.1, find.2), renames.nodup nodup holds, ?_, by simpa using many⟩
  intro find listed
  obtain ⟨origin, among, rfl⟩ := mem_map.mp listed
  exact renames.sound (holds origin among)

theorem Collects.congr (collects : Collects yields rows rows')
    (same : ∀ find row, yields find row ↔ other find row) : Collects other rows rows' := by
  obtain ⟨found, ⟨nodup, mem⟩, rfl⟩ := collects
  exact ⟨found, ⟨nodup, fun find => (mem find).trans (same find.1 find.2)⟩, rfl⟩

theorem Overfull.congr (overfull : Overfull full yields count)
    (more : ∀ find row, yields find row → other find row) : Overfull full other count := by
  obtain ⟨found, nodup, holds, many⟩ := overfull
  exact ⟨found, nodup, fun find listed => more _ _ (holds find listed), many⟩

end

/-- The finds of one item among those of all items. -/
theorem renames_item {item : γ} (listed : item ∈ items) (yields : γ → τ → ρ → Prop) :
    ∀ {found : List (τ × ρ)}, found.Nodup → (∀ find ∈ found, yields item find.1 find.2) →
      (found.map fun find => ((item, find.1), find.2)).Nodup ∧
        ∀ find ∈ found.map (fun find => ((item, find.1), find.2)), find.1.1 ∈ items ∧ yields find.1.1 find.1.2 find.2 := by
  intro found nodup holds
  refine ⟨nodup.map fun left right same => ?_, fun find among => ?_⟩
  · simp only [Prod.mk.injEq, true_and] at same
    exact Prod.ext same.1 same.2
  · obtain ⟨origin, mem, rfl⟩ := mem_map.mp among
    exact ⟨listed, holds origin mem⟩

/-- A loop over distinct items, each of which yields rows of its own. -/
theorem Prog.answers_collect {f : List ρ → γ → Prog S ε (List ρ)} {rows : List ρ}
    {yields : γ → τ → ρ → Prop} {full : Nat → Prop} {crowded : ε} (nodup : items.Nodup)
    (step : ∀ item ∈ items, ∀ acc, Answers handler state
      (fun reason => raise reason ∨ (reason = crowded ∧
      Overfull full (yields item) acc.length)) (Collects (yields item) acc) (f acc item)) :
    Answers handler state (fun reason => raise reason ∨
        (reason = crowded ∧ Overfull full (fun (find : γ × τ) row => find.1 ∈ items ∧
        yields find.1 find.2 row) rows.length))
      (Collects (fun (find : γ × τ) row => find.1 ∈ items ∧ yields find.1 find.2 row) rows)
      (items.foldlM f rows) := by
  induction items generalizing rows with
  | nil => exact answers_pure (.none (by simp))
  | cons item rest ih =>
    obtain ⟨fresh, distinct⟩ := nodup_cons.mp nodup
    refine answers_bind (answers_mono (step item (.head _) rows) ?_ ?_)
    · rintro reason (raised | ⟨rfl, found, once, holds, many⟩)
      · exact .inl raised
      · obtain ⟨once', holds'⟩ := renames_item (.head rest) yields once holds
        exact .inr ⟨rfl, _, once', holds', by simpa using many⟩
    rintro acc ⟨found, ⟨once, mem⟩, rfl⟩
    obtain ⟨once', holds'⟩ := renames_item (mem_cons_self (l := rest)) yields once fun find => (mem find).mp
    -- The finds of the other items come after those of this one, and are not among them.
    have apart : ∀ {later : List ((γ × τ) × ρ)}, later.Nodup →
        (∀ find ∈ later, find.1.1 ∈ rest ∧ yields find.1.1 find.1.2 find.2) →
        ((found.map fun find => ((item, find.1), find.2)) ++ later).Nodup := by
      intro later onceLater holdsLater
      refine once'.append onceLater fun find early late => ?_
      obtain ⟨origin, -, rfl⟩ := mem_map.mp early
      exact fresh (holdsLater _ late).1
    refine answers_mono (ih distinct fun other listed => step other (.tail _ listed)) ?_ ?_
    · rintro reason (raised | ⟨rfl, later, onceLater, holdsLater, many⟩)
      · exact .inl raised
      · refine .inr ⟨rfl, _, apart onceLater holdsLater, fun find among => ?_, by simpa [Nat.add_assoc] using many⟩
        rcases mem_append.mp among with early | late
        · exact holds' find early
        · exact ⟨.tail _ (holdsLater find late).1, (holdsLater find late).2⟩
    · rintro final ⟨later, ⟨onceLater, memLater⟩, rfl⟩
      refine ⟨_, ⟨apart onceLater fun find => (memLater find).mp, fun find => ?_⟩, by simp [Function.comp_def]⟩
      rw [mem_append, memLater]
      constructor
      · rintro (early | ⟨listed, yielded⟩)
        · exact holds' find early
        · exact ⟨.tail _ listed, yielded⟩
      · rintro ⟨listed, yielded⟩
        rcases mem_cons.mp listed with same | listed
        · left
          rw [mem_map]
          refine ⟨(find.1.2, find.2), (mem _).mpr (same ▸ yielded), ?_⟩
          rw [← same]
        · exact .inr ⟨listed, yielded⟩

/-- A loop that keeps the images of the items that fit. -/
theorem Prog.answers_filterMapM {pick : γ → Except ε (Option β)} (image : γ → β) (fits : γ → Prop)
    (each : ∀ item ∈ items, Returns raise (fun picked => picked = some (image item) ∧
      fits item ∨ picked = none ∧ ¬ fits item) (pick item)) :
    Answers handler state raise (fun picked => ∃ kept : List γ, kept.Sublist items ∧
      (∀ item, item ∈ kept ↔ item ∈ items ∧ fits item) ∧ picked = kept.map image)
      (ofExcept (items.filterMapM pick) : Prog S ε (List β)) := by
  refine answers_ofExcept ?_
  induction items with
  | nil => exact ⟨[], .refl [], by simp, rfl⟩
  | cons item rest ih =>
    rw [filterMapM_cons]
    refine (each item (.head _)).bind fun picked first => ?_
    have later := ih fun other listed => each other (.tail _ listed)
    rcases first with ⟨rfl, fit⟩ | ⟨rfl, unfit⟩
    · refine later.bind ?_
      rintro images ⟨kept, inside, mem, rfl⟩
      refine ⟨item :: kept, inside.cons_cons item, fun other => ?_, rfl⟩
      rw [mem_cons, mem, mem_cons]
      constructor
      · rintro (rfl | ⟨listed, fit⟩)
        · exact ⟨.inl rfl, fit⟩
        · exact ⟨.inr listed, fit⟩
      · rintro ⟨rfl | listed, fit⟩
        · exact .inl rfl
        · exact .inr ⟨listed, fit⟩
    · refine later.mono ?_
      rintro images ⟨kept, inside, mem, rfl⟩
      refine ⟨kept, inside.cons item, fun other => ?_, rfl⟩
      rw [mem, mem_cons]
      constructor
      · exact fun ⟨listed, fit⟩ => ⟨.inr listed, fit⟩
      · rintro ⟨rfl | listed, fit⟩
        · exact absurd fit unfit
        · exact ⟨listed, fit⟩

export Prog (answers_collect answers_filterMapM)

end ByoriDB.Program
