import ByoriDB.Data.Classes
import ByoriDB.Executor.Effects

namespace ByoriDB.Executor

open List Data Program Store ByoriDB.Graph

section

variable (space : String) (kv : KV)

def Points (vid rep : Int) : Prop :=
  ∃ value, kv.get (sameas space vid) = some value ∧ decodeInternal value = some rep

/-- The pointers lead from a vertex to one that was not merged away. -/
def Represents (vid rep : Int) : Prop :=
  Relation.ReflTransGen (Points space kv) vid rep ∧ Root space kv rep

def repAt (vid : Int) : Int :=
  match kv.get (sameas space vid) with
  | some (.vid rep) => rep
  | _ => vid

/-- Pointers lead to smaller vertices that have none, and the members of a vertex
are those that point at it. -/
structure Flat : Prop where
  pointer : ∀ vid value, kv.get (sameas space vid) = some value →
    ∃ rep, value = .vid rep ∧ rep < vid ∧ kv.get (sameas space rep) = none
  members : ∀ rep vid, (kv.get (sameasMember space rep vid)).isSome = true ↔ kv.get (sameas space vid) = some (.vid rep)
  listed : ∀ rep key value, kv.get key = some value → (sameasMembersPrefix space rep).covers key = true →
    ∃ vid, key = sameasMember space rep vid

end

@[simp] theorem sameas_inj : sameas space left = sameas space right ↔ left = right := by
  simp [sameas]

@[simp] theorem sameasMember_inj :
    sameasMember space rep vid = sameasMember space rep' vid' ↔ rep = rep' ∧ vid = vid' := by
  simp [sameasMember]

@[simp] theorem sameas_ne_sameasMember : sameas space vid ≠ sameasMember space rep member := by
  simp [sameas, sameasMember]

@[simp] theorem sameasMember_ne_sameas : sameasMember space rep member ≠ sameas space vid :=
  sameas_ne_sameasMember.symm

theorem covers_sameasMember : (sameasMembersPrefix space rep).covers (sameasMember space rep vid) = true :=
  covers_text.mpr ⟨[.num vid], by simp, rfl⟩

namespace Flat

variable (flat : Flat space kv)
include flat

theorem root_iff : Root space kv vid ↔ kv.get (sameas space vid) = none := by
  constructor
  · intro root
    cases found : kv.get (sameas space vid) with
    | none => rfl
    | some value =>
      obtain ⟨rep, rfl, below, -⟩ := flat.pointer vid value found
      have same := root _ found
      simp only [decodeInternal, Option.some.injEq] at same
      omega
  · intro none value found
    rw [none] at found
    cases found

theorem repAt_of_root (root : Root space kv vid) : repAt space kv vid = vid := by
  rw [repAt, flat.root_iff.mp root]

theorem root_repAt (vid : Int) : Root space kv (repAt space kv vid) := by
  rw [flat.root_iff]
  cases found : kv.get (sameas space vid) with
  | none => simp [repAt, found]
  | some value =>
    obtain ⟨rep, rfl, -, last⟩ := flat.pointer vid value found
    simpa [repAt, found] using last

theorem repAt_le (vid : Int) : repAt space kv vid ≤ vid := by
  cases found : kv.get (sameas space vid) with
  | none => simp [repAt, found]
  | some value =>
    obtain ⟨rep, rfl, below, -⟩ := flat.pointer vid value found
    simpa [repAt, found] using Int.le_of_lt below

theorem represents (represents : Represents space kv vid rep) : rep = repAt space kv vid := by
  obtain ⟨chain, root⟩ := represents
  have stays : ∀ {from_ : Int}, kv.get (sameas space from_) = none →
      Relation.ReflTransGen (Points space kv) from_ rep → rep = from_ := by
    intro from_ none chain
    rcases Relation.ReflTransGen.cases_head chain with same | ⟨next, ⟨value, found, -⟩, -⟩
    · exact same.symm
    · rw [none] at found
      cases found
  rcases Relation.ReflTransGen.cases_head chain with rfl | ⟨next, ⟨value, found, leads⟩, rest⟩
  · exact (flat.repAt_of_root root).symm
  · obtain ⟨target, rfl, -, last⟩ := flat.pointer vid value found
    simp only [decodeInternal, Option.some.injEq] at leads
    subst leads
    rw [stays last rest, repAt, found]

/-- A vertex is represented by another one exactly if its pointer leads there. -/
theorem repAt_eq_iff (root : Root space kv rep) :
    repAt space kv vid = rep ↔ vid = rep ∨ kv.get (sameas space vid) = some (.vid rep) := by
  cases found : kv.get (sameas space vid) with
  | none => simp [repAt, found]
  | some value =>
    obtain ⟨target, rfl, -, -⟩ := flat.pointer vid value found
    have apart : vid ≠ rep := by
      rintro rfl
      rw [flat.root_iff.mp root] at found
      cases found
    simp [repAt, found, apart]

end Flat

theorem wp_followSameas (start : Int) (depth : Nat) (current : Int) :
    (followSameas space start depth current).wp (handler env) (Mutates env space terms)
      (fun rep world' => world' = world ∧ Represents space world.kv current rep) world := by
  induction depth generalizing current with
  | zero => trivial
  | succ depth ih =>
    rw [followSameas, wp_bind, wp_get]
    refine ⟨.look rfl, ?_⟩
    cases found : world.kv.get (sameas space current) with
    | none => exact ⟨rfl, .refl, by simp [Root, found]⟩
    | some value =>
      dsimp only
      cases decoded : decodeInternal value with
      | none => trivial
      | some rep =>
        dsimp only
        split
        · rename_i same
          refine ⟨rfl, .refl, ?_⟩
          intro stored again
          rw [found, Option.some.injEq] at again
          rw [← again, decoded, same]
        · refine wp_imp (ih rep) ?_
          rintro final _ ⟨rfl, chain, root⟩
          exact ⟨rfl, .head ⟨value, found, decoded⟩ chain, root⟩

theorem wp_representativeOf (vid : Int) : (representativeOf space vid).wp (handler env) (Mutates env space terms)
      (fun rep world' => world' = world ∧ Represents space world.kv vid rep) world :=
  wp_followSameas vid 64 vid

/-- The pointers and members after a list of members moved from one vertex to another. -/
def repointed (space : String) (winner loser : Int) (kv : KV) (members : List Int) : KV :=
  members.foldl (fun kv member =>
    ((kv.insert (sameas space member) (.vid winner)).insert (sameasMember space winner member) .empty).erase
      (sameasMember space loser member)) kv

structure Links (space : String) (winner loser : Int) (kv kv' : KV) : Prop where
  rest : ∀ key, (∀ vid, key ≠ sameas space vid) → (∀ rep vid, key ≠ sameasMember space rep vid) →
    kv'.get key = kv.get key
  pointer : ∀ vid, kv'.get (sameas space vid) =
    if vid = loser ∨ (kv.get (sameasMember space loser vid)).isSome = true then some (.vid winner)
    else kv.get (sameas space vid)
  member : ∀ rep vid, kv'.get (sameasMember space rep vid) =
    if rep = winner ∧ (vid = loser ∨ (kv.get (sameasMember space loser vid)).isSome = true) then some .empty
    else if rep = loser then none else kv.get (sameasMember space rep vid)

theorem get_repointed_rest
    (pointers : ∀ vid, key ≠ sameas space vid)
    (lists : ∀ rep vid, key ≠ sameasMember space rep vid) :
    (repointed space winner loser kv members).get key = kv.get key := by
  induction members generalizing kv with
  | nil => rfl
  | cons member rest ih =>
    rw [repointed, foldl_cons, ← repointed, ih, get_erase, if_neg (lists _ _), get_insert,
      if_neg (lists _ _), get_insert, if_neg (pointers _)]

theorem get_repointed_sameas : (repointed space winner loser kv members).get (sameas space vid) =
      if vid ∈ members then some (.vid winner) else kv.get (sameas space vid) := by
  induction members generalizing kv with
  | nil => simp [repointed]
  | cons member rest ih =>
    rw [repointed, foldl_cons, ← repointed, ih]
    by_cases here : vid = member <;> by_cases later : vid ∈ rest <;> simp [here, later]

theorem get_repointed_member (apart : winner ≠ loser) :
    (repointed space winner loser kv members).get (sameasMember space rep vid) =
      if vid ∈ members then (if rep = winner then some .empty else if rep = loser then none
        else kv.get (sameasMember space rep vid))
      else kv.get (sameasMember space rep vid) := by
  induction members generalizing kv with
  | nil => simp [repointed]
  | cons member rest ih =>
    rw [repointed, foldl_cons, ← repointed, ih]
    by_cases here : vid = member
    · by_cases won : rep = winner
      · simp [here, won, apart]
      · by_cases lost : rep = loser <;> simp [here, won, lost, Ne.symm apart]
    · simp [here]

theorem links_repointed {winner loser : Int} (apart : winner ≠ loser) {kv : KV} {members : List Int}
    (listed : ∀ vid, vid ∈ members ↔ (kv.get (sameasMember space loser vid)).isSome = true) :
    Links space winner loser kv (((repointed space winner loser kv members).insert (sameas space loser)
      (.vid winner)).insert (sameasMember space winner loser) .empty) where
  rest key pointers lists := by
    rw [get_insert, if_neg (lists _ _), get_insert, if_neg (pointers _), get_repointed_rest pointers lists]
  pointer vid := by
    simp only [get_insert, get_repointed_sameas, sameas_inj, sameas_ne_sameasMember, if_false, listed]
    by_cases own : vid = loser <;> simp [own]
  member rep vid := by
    simp only [get_insert, get_repointed_member apart, sameasMember_inj, sameasMember_ne_sameas, if_false, ← listed]
    have absent : vid ∉ members → kv.get (sameasMember space loser vid) = none := by
      rw [listed]
      simp
    by_cases won : rep = winner
    · by_cases own : vid = loser <;> by_cases moved : vid ∈ members <;> simp [won, own, moved, apart]
    · by_cases lost : rep = loser
      · by_cases moved : vid ∈ members
        · simp [lost, moved, Ne.symm apart]
        · simp [lost, moved, Ne.symm apart, absent moved]
      · simp [won, lost]

/-- Moving the members of a vertex, each of which has a well-formed entry. -/
theorem wp_repointMembers (entries : List (Key × Val)) (within : terms.tended .alias) :
    (entries.forM (repointMember space winner loser)).wp (handler env) (Mutates env space terms)
      (fun _ world' => ∃ members, entries.map Prod.fst = members.map (sameasMember space loser) ∧
        world'.kv = repointed space winner loser world.kv members) world := by
  have put : ∀ {key value}, region space key = some .alias → Tends space .alias [] (KvOp.put key value) := by
    intro key value inside
    have silent : ∀ vid, ¬ Mentions space vid key := fun _ => not_mentions_of_region inside (by simp)
    exact ⟨rfl, rfl, by simpa [KvOp.touched, KvOp.written] using inside, by simpa [KvOp.written] using silent, by simp⟩
  have permitted : ∀ {world : World} {op : KvOp Key Val}, Tends space .alias [] op → Mutates env space terms world (.kv op) :=
    fun tends => .tend within tends (by simp)
  induction entries generalizing world with
  | nil => exact ⟨[], rfl, rfl⟩
  | cons entry rest ih =>
    rw [forM_eq_forM, forM_cons]
    unfold repointMember
    split
    · trivial
    rename_i member found
    have same : sameasMember space loser member = entry.1 := by
      simpa using (Option.filter_eq_some_iff.mp found).2
    rw [← same]
    have unlisting : Tends space .alias [] (KvOp.delete (sameasMember space loser member)) :=
      ⟨rfl, rfl, by simp [KvOp.touched, KvOp.written], by simp [KvOp.written], by simp⟩
    refine ⟨permitted (put (by simp)), permitted (put (by simp)), permitted unlisting, ?_⟩
    refine wp_mono ih (fun _ _ allowed => allowed) ?_
    rintro _ final ⟨members, listed, left⟩
    refine ⟨member :: members, by rw [map_cons, map_cons, listed, same], ?_⟩
    rw [left, repointed, repointed, foldl_cons]
    rfl

section

variable (flat : Flat space kv) (links : Links space winner loser kv kv') (lower : winner < loser)
  (winnerRoot : Root space kv winner) (loserRoot : Root space kv loser)

include flat loserRoot in
theorem moves_iff (vid : Int) : (vid = loser ∨ (kv.get (sameasMember space loser vid)).isSome = true) ↔
    repAt space kv vid = loser := by
  rw [flat.members, flat.repAt_eq_iff loserRoot]

include flat links loserRoot in
theorem Links.sameas (vid : Int) : kv'.get (sameas space vid) =
    if repAt space kv vid = loser then some (.vid winner) else kv.get (sameas space vid) := by
  rw [links.pointer]
  simp [moves_iff flat loserRoot]

include flat links loserRoot in
theorem Links.repAt : repAt space kv' = joined (repAt space kv) winner loser := by
  funext vid
  rw [joined, Executor.repAt, links.sameas flat loserRoot]
  by_cases moved : Executor.repAt space kv vid = loser
  · rw [if_pos moved, if_pos moved]
  · rw [if_neg moved, if_neg moved, Executor.repAt]

include flat links lower winnerRoot loserRoot in
theorem Links.keepsFlat : Flat space kv' := by
  have pointers := links.sameas flat loserRoot
  have winnerStays : kv'.get (SchemaKey.sameas space winner) = none := by
    rw [pointers, flat.repAt_of_root winnerRoot, if_neg (by omega), flat.root_iff.mp winnerRoot]
  constructor
  · intro vid value found
    rw [pointers] at found
    split at found
    · cases found
      have below := flat.repAt_le vid
      exact ⟨winner, rfl, by omega, winnerStays⟩
    · rename_i stays
      obtain ⟨rep, rfl, below, last⟩ := flat.pointer vid value found
      refine ⟨rep, rfl, below, ?_⟩
      have own : Executor.repAt space kv rep = rep := flat.repAt_of_root (flat.root_iff.mpr last)
      have other : rep ≠ loser := by
        rintro rfl
        exact stays (by simp [Executor.repAt, found])
      rw [pointers, own, if_neg other, last]
  · intro rep vid
    rw [links.member, pointers]
    simp only [moves_iff flat loserRoot]
    by_cases moved : Executor.repAt space kv vid = loser
    · by_cases won : rep = winner
      · simp [moved, won]
      · have none : rep ≠ loser → kv.get (sameasMember space rep vid) = none := by
          intro other
          rw [← Option.not_isSome_iff_eq_none, flat.members]
          intro found
          exact other (by simpa [Executor.repAt, found] using moved)
        by_cases lost : rep = loser
        · simp [moved, lost, Int.ne_of_lt lower, Int.ne_of_gt lower]
        · simp [moved, won, lost, none lost, Ne.symm won]
    · by_cases lost : rep = loser
      · have other : kv.get (SchemaKey.sameas space vid) ≠ some (.vid loser) :=
          fun found => moved (by simp [Executor.repAt, found])
        simp [moved, lost, other]
      · simp [moved, lost, flat.members]
  · intro rep key value found covered
    obtain ⟨rest, -, same⟩ := covers_text.mp covered
    by_cases listing : ∃ rep' vid, key = sameasMember space rep' vid
    · obtain ⟨rep', vid, rfl⟩ := listing
      simp only [sameasMember, cons_append, nil_append, Key.text.injEq, List.cons.injEq, Seg.num.injEq,
        true_and] at same
      exact ⟨vid, by rw [same.1]⟩
    · have pointerless : ∀ vid, key ≠ SchemaKey.sameas space vid := by
        rintro vid rfl
        simp [SchemaKey.sameas] at same
      rw [links.rest key pointerless fun rep' vid same => listing ⟨rep', vid, same⟩] at found
      exact flat.listed rep key value found covered

end

end ByoriDB.Executor
