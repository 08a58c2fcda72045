import ByoriDB.Executor.Dml
import ByoriDB.Executor.Mutation
import ByoriDB.Executor.VidMapping

/-! Most parts of a mutation only look at the current view, and some tend to auxiliary data. -/

namespace ByoriDB.Executor

open List Data Program Store ByoriDB.Graph

/-- The entries of one index, or of all indexes with its id in the last 32 bits. -/
def EntryOf (kind : UInt8) (indexId : Nat) (key : Key) : Prop :=
  ∃ rest, key = .raw (indexKeyPrefix kind indexId ++ rest)

def TagEntry (key : Key) : Prop := ∃ indexId, EntryOf tagIndexKind indexId key

def EdgeEntry (key : Key) : Prop := ∃ indexId, EntryOf edgeIndexKind indexId key

theorem entryOf_tagIndexKey : EntryOf tagIndexKind indexId (tagIndexKey indexId values vid) :=
  ⟨values.flatMap IndexValue.encode ++ Bytes.bigEndian 8 (asU64 vid), by simp [tagIndexKey, KeyUtils.tagIndexKey]⟩

theorem entryOf_edgeIndexKey : EntryOf edgeIndexKind indexId (edgeIndexKey indexId values src rank dst) :=
  ⟨values.flatMap IndexValue.encode ++ Bytes.bigEndian 8 (asU64 src) ++ Bytes.bigEndian 8 (asU64 rank) ++
    Bytes.bigEndian 8 (asU64 dst), by simp [edgeIndexKey, KeyUtils.edgeIndexKey]⟩

theorem tagEntry_tagIndexKey : TagEntry (tagIndexKey indexId values vid) :=
  ⟨indexId, entryOf_tagIndexKey⟩

theorem edgeEntry_edgeIndexKey : EdgeEntry (edgeIndexKey indexId values src rank dst) :=
  ⟨indexId, entryOf_edgeIndexKey⟩

/-- Operations that read the current view. -/
def Looks : Op Key Val → Prop
  | .kv op => op.readsCurrent = true
  | .txNow => False

/-- Operations that read the current view or write auxiliary data of a region. -/
def TendsTo (space : String) (part : Region) (vids : List Int) : Op Key Val → Prop
  | .kv op => op.readsCurrent = true ∨ Tends space part vids op
  | .txNow => False

theorem Looks.tendsTo (op : Op Key Val) (looks : Looks op) : TendsTo space part vids op := by
  cases op with
  | txNow => exact looks
  | kv op => exact .inl looks

section

theorem looks_get (key : Key) : (get key : Exec _).Only Looks := only_perform rfl

theorem looks_scanPrefix : (scanPrefix scope : Exec _).Only Looks := only_perform rfl

theorem looks_spaceVidType : (spaceVidType space).Only Looks := by
  refine only_bind (looks_get _) fun found => ?_
  split
  · trivial
  · split <;> trivial
  · trivial

theorem looks_internalVidIsOccupied (space : String) (internal : Int) :
    (internalVidIsOccupied space internal).Only Looks := by
  refine only_bind (looks_get _) fun found => ?_
  split
  · trivial
  · refine only_bind looks_scanPrefix fun outgoing => ?_
    split
    · trivial
    · exact only_bind looks_scanPrefix fun incoming => trivial

theorem looks_resolveVid (vid : Vid) : (resolveVid ctx space vidType vid false).Only Looks := by
  cases vidType with
  | int64 => cases vid <;> trivial
  | fixedString length =>
    cases vid with
    | int value =>
      rw [resolveVid]
      split
      · trivial
      · refine only_bind (looks_get _) fun owner => ?_
        split
        · trivial
        · refine only_bind (looks_internalVidIsOccupied space value) fun live => ?_
          split <;> trivial
    | string value =>
      rw [resolveVid]
      split
      · trivial
      · refine only_bind (looks_get _) fun stored => ?_
        split
        · split
          · trivial
          · split
            · trivial
            · refine only_bind (looks_get _) fun owner => ?_
              split
              · trivial
              · split <;> trivial
        · trivial

theorem looks_followSameas (space : String) (start : Int) (depth : Nat) (current : Int) :
    (followSameas space start depth current).Only Looks := by
  induction depth generalizing current with
  | zero => trivial
  | succ depth ih =>
    refine only_bind (looks_get _) fun stored => ?_
    split
    · trivial
    · split
      · trivial
      · split
        · trivial
        · exact ih _

theorem looks_representativeOf : (representativeOf space vid).Only Looks :=
  looks_followSameas space vid 64 vid

theorem looks_membersOf : (membersOf space rep).Only Looks :=
  only_bind looks_scanPrefix fun _ => trivial

theorem looks_spaceIdOf : (spaceIdOf ctx space).Only Looks := by
  unfold spaceIdOf
  split
  · trivial
  · refine only_bind (looks_get _) fun stored => ?_
    split
    · trivial
    · split <;> trivial
    · trivial

theorem looks_mutationIndexes (kind : IndexType) : (mutationIndexes ctx space kind).Only Looks :=
  only_bind looks_spaceIdOf fun _ =>
    only_bind looks_scanPrefix fun _ => only_bind (only_ofExcept _) fun _ => trivial

theorem looks_visitClass (space : String) (search : ClassSearch) (current : String) :
    (visitClass space search current).Only Looks := by
  refine only_bind (looks_get _) fun stored => ?_
  split <;> trivial

theorem looks_climbClasses (space name : String) (depth : Nat) (frontier : List String)
    (search : ClassSearch) : (climbClasses space name depth frontier search).Only Looks := by
  induction depth generalizing frontier search with
  | zero =>
    unfold climbClasses
    split <;> trivial
  | succ depth ih =>
    unfold climbClasses
    split
    · trivial
    · exact only_bind (only_foldlM _ _ fun search current _ => looks_visitClass space search current)
        fun _ => ih _ _

theorem looks_validateWriteShapes (props : Props) : (validateWriteShapes space tagNames props).Only Looks := by
  refine only_bind (only_bind looks_scanPrefix fun _ => only_ofExcept _) fun shapes => ?_
  split
  · trivial
  · refine only_bind (only_bind (Prog.only_mapM _ fun tag _ => ?_) fun _ => trivial) fun _ => only_ofExcept _
    exact only_bind (looks_climbClasses space tag 16 _ _) fun _ => trivial

theorem looks_validateTagProps (props : Props) : (validateTagProps space tagName props).Only Looks := by
  refine only_bind (looks_get _) fun stored => ?_
  split
  · trivial
  · exact only_ofExcept _
  · trivial

theorem looks_validateVertex (space : String) (vidType : SpaceVidType) (vertex : VertexInsert) :
    (validateVertex space vidType vertex).Only Looks :=
  only_bind (only_ofExcept _) fun _ =>
    only_bind (only_forM _ fun tag _ => looks_validateTagProps tag.properties) fun _ =>
      looks_validateWriteShapes _

theorem looks_loadRelMeta : (loadRelMeta space).Only Looks :=
  only_bind looks_scanPrefix fun _ => only_foldlM _ _ fun _ _ _ =>
    only_bind (only_ofExcept _) fun _ => trivial

end

section

@[simp] theorem region_tagIndexKey (space : String) (indexId : Nat) (values : List IndexValue)
    (vid : Int) : region space (tagIndexKey indexId values vid) = some .index := rfl

theorem TagEntry.region (entry : TagEntry key) (space : String) : region space key = some .index := by
  obtain ⟨indexId, rest, rfl⟩ := entry
  rfl

theorem EdgeEntry.region (entry : EdgeEntry key) (space : String) : region space key = some .index := by
  obtain ⟨indexId, rest, rfl⟩ := entry
  rfl

theorem not_tagEntry (space : String) (outside : region space key ≠ some .index) :
    ¬ TagEntry key := fun entry => outside (entry.region space)

theorem not_edgeEntry (space : String) (outside : region space key ≠ some .index) :
    ¬ EdgeEntry key := fun entry => outside (entry.region space)

theorem tends_of_looks {α : Type} {p : Exec α} {vids : List Int} (looks : p.Only Looks) :
    p.Only (TendsTo space part vids) :=
  Prog.only_mono looks Looks.tendsTo

theorem tends_put (inside : region space key = some part) (other : part ≠ .mapping)
    (names : ∀ vid, Mentions space vid key → vid ∈ vids) :
    (put key value : Exec _).Only (TendsTo space part vids) :=
  only_perform (.inr ⟨rfl, rfl, by simpa [KvOp.touched, KvOp.written] using inside,
    by simpa [KvOp.written] using names, fun same => absurd same other⟩)

theorem tends_putIfAbsent (inside : region space key = some part) (other : part ≠ .view)
    (surrogate : ∀ internal, value = .vid internal → minVid ≤ internal ∧ internal < 0) :
    (putIfAbsent key value : Exec _).Only (TendsTo space part []) :=
  only_perform (.inr ⟨rfl, rfl, by simpa [KvOp.touched, KvOp.written] using inside,
    by simpa [KvOp.written] using fun vid => not_mentions_of_region inside other, fun _ => ⟨key, value, rfl, surrogate⟩⟩)

theorem tends_addCounters (inside : ∀ delta ∈ deltas, region space delta.1 = some .counter) :
    (addCounters deltas : Exec _).Only (TendsTo space .counter []) := by
  refine only_perform (.inr ⟨rfl, rfl, ?_, by simp [KvOp.written], by simp⟩)
  intro key touched
  simp only [KvOp.touched, KvOp.written, map_nil, nil_append, mem_map] at touched
  obtain ⟨delta, listed, rfl⟩ := touched
  exact inside delta listed

section

variable (low : minVid ≤ candidate)

include low

theorem tends_publishForward (high : candidate < 0) :
    (publishForward space value candidate).Only (TendsTo space .mapping []) := by
  refine only_bind (tends_putIfAbsent (by simp) (by simp) (by rintro _ ⟨⟩; exact ⟨low, high⟩)) fun existing => ?_
  split
  · split <;> trivial
  · trivial

theorem tends_probeCandidate (high : candidate < 0)
    (advances : advance.Only (TendsTo space .mapping [])) :
    (probeCandidate space value candidate advance).Only (TendsTo space .mapping []) := by
  refine only_bind (tends_of_looks (looks_get _)) fun owner => ?_
  split
  · split
    · exact tends_publishForward low high
    · exact advances
  · refine only_bind (tends_of_looks (looks_internalVidIsOccupied space candidate)) fun live => ?_
    split
    · exact advances
    · refine only_bind (tends_putIfAbsent (by simp) (by simp) (by simp)) fun owner => ?_
      split
      · split
        · exact tends_publishForward low high
        · exact advances
      · exact tends_publishForward low high

theorem tends_probe (high : candidate < 0) :
    (probe space value first fuel candidate).Only (TendsTo space .mapping []) := by
  induction fuel generalizing candidate with
  | zero => trivial
  | succ fuel ih =>
    obtain ⟨nextLow, nextHigh⟩ := nextCandidate_range low high
    apply tends_probeCandidate low high
    split
    · trivial
    · exact ih nextLow nextHigh

end

theorem tends_resolveVid (vid : Vid) : (resolveVid ctx space vidType vid true).Only (TendsTo space .mapping []) := by
  cases vidType with
  | int64 => cases vid <;> trivial
  | fixedString length =>
    cases vid with
    | int value => trivial
    | string value =>
      rw [resolveVid]
      split
      · trivial
      · refine only_bind (tends_of_looks (looks_get _)) fun stored => ?_
        split
        · split
          · trivial
          · split
            · trivial
            · refine only_bind (tends_of_looks (looks_get _)) fun owner => ?_
              split
              · trivial
              · split <;> trivial
        · obtain ⟨low, high⟩ := initialCandidate_range
          exact tends_probe low high

theorem tends_resolveForWrite (vid : Vid) :
    (resolveForWrite ctx space vidType vid what).Only (TendsTo space .mapping []) := by
  refine only_bind (tends_resolveVid vid) fun resolved => ?_
  split <;> trivial

theorem tends_markVectorIndexDirty (prop : String) :
    (markVectorIndexDirty space prop).Only (TendsTo space .view vids) :=
  tends_put (by simp) (by simp) (by simp)

theorem tends_applyDegrees (inside : ∀ delta ∈ degIn.toList ++ degOut.toList, region space delta.1 = some .counter) :
    (applyDegrees degIn degOut).Only (TendsTo space .counter []) := by
  unfold applyDegrees
  dsimp only
  split
  · trivial
  · exact tends_addCounters inside

theorem tends_countPromoted : (countPromoted space old).Only (TendsTo space .counter []) := by
  unfold countPromoted
  split
  · exact tends_addCounters (by simp)
  · trivial

end

section

variable {α : Type} {p : Exec α}

/-- Between two states only auxiliary data of one region differ. -/
def Tended (space : String) (part : Region) (before after : World) : Prop :=
  ∀ key, region space key ≠ some part → after.kv.get key = before.kv.get key

theorem Tended.refl (space : String) (part : Region) (world : World) : Tended space part world world := fun _ _ => rfl

theorem Tended.trans (early : Tended space part first second)
    (late : Tended space part second third) : Tended space part first third :=
  fun key other => (late key other).trans (early key other)

theorem wp_tends (tends : p.Only (TendsTo space part [])) (within : terms.tended part) :
    p.wp (handler env) (Mutates env space terms) (fun _ world' => Tended space part world world') world := by
  refine wp_of_only_with tends ?_ ?_ (Tended.refl space part world)
  · intro middle op permitted _
    cases op with
    | txNow => exact permitted.elim
    | kv op =>
      rcases permitted with reads | tendsOp
      · exact .look reads
      · exact .tend within tendsOp (by simp)
  · intro middle op permitted tended
    cases op with
    | txNow => exact permitted.elim
    | kv op =>
      rcases permitted with reads | tendsOp
      · exact (KvOp.looks_kv reads).symm ▸ tended
      · exact tended.trans fun key outside => tendsOp.get_eq outside

theorem wp_looks (looks : p.Only Looks) :
    p.wp (handler env) (Mutates env space terms) (fun _ world' => world' = world) world := by
  refine wp_of_only_with looks ?_ ?_ rfl
  · intro middle op permitted _
    cases op with
    | txNow => exact permitted.elim
    | kv op => exact .look permitted
  · rintro _ op permitted rfl
    cases op with
    | txNow => exact permitted.elim
    | kv op => exact KvOp.looks_kv permitted

end

end ByoriDB.Executor
