import ByoriDB.Executor.Sound

namespace ByoriDB.Executor

open Data Program Store ByoriDB.Graph

/-- A string is mapped to a surrogate, and owns it. -/
def Owns (space : String) (kv : KV) (value : String) (internal : Int) : Prop :=
  kv.get (forwardKey space value) = some (.vid internal) ∧ kv.get (reverseKey space internal) = some (.text value)

/-- The internal id that a vertex id stands for. -/
def Named (space : String) (kv : KV) : SpaceVidType → Vid → Int → Prop
  | .int64, .int value, internal => internal = value
  | .fixedString _, .string value, internal => Owns space kv value internal
  | _, _, _ => False

def Lasting (space : String) (kv kv' : KV) : Prop :=
  ∀ key value, region space key = some .mapping → kv.get key = some value → kv'.get key = some value

theorem Lasting.refl (space : String) (kv : KV) : Lasting space kv kv := fun _ _ _ found => found

theorem Lasting.trans (early : Lasting space first second) (late : Lasting space second third) :
    Lasting space first third :=
  fun key value inside found => late key value inside (early key value inside found)

theorem Lasting.of_same (same : ∀ key, region space key = some .mapping → kv'.get key = kv.get key) :
    Lasting space kv kv' :=
  fun key _ inside found => (same key inside).trans found

theorem Owns.lasting (owns : Owns space kv value internal) (lasting : Lasting space kv kv') :
    Owns space kv' value internal :=
  ⟨lasting _ _ (by simp) owns.1, lasting _ _ (by simp) owns.2⟩

theorem Named.lasting (named : Named space kv vidType vid internal)
    (lasting : Lasting space kv kv') : Named space kv' vidType vid internal := by
  cases vidType with
  | int64 => cases vid <;> exact named
  | fixedString length =>
    cases vid with
    | int => exact named
    | string value => exact Owns.lasting named lasting

theorem Named.unique (first : Named space kv vidType vid left)
    (second : Named space kv vidType vid right) : left = right := by
  cases vidType with
  | int64 =>
    cases vid with
    | int value => exact Eq.trans first (Eq.symm second)
    | string => exact first.elim
  | fixedString length =>
    cases vid with
    | int => exact first.elim
    | string value =>
      have same := first.1.symm.trans second.1
      simpa using same

theorem Mutates.lasting (mutates : Mutates env space terms world op) :
    Lasting space world.kv (handler env op world).2.kv := by
  intro key value inside found
  have untyped : key.kind space ≠ some "vtype" := kind_ne_of_region inside rfl
  cases mutates with
  | tick => exact found
  | look reads => rw [KvOp.looks_kv reads, found]
  | @tend op part vids _ tends _ =>
    by_cases here : part = .mapping
    · obtain ⟨other, stored, rfl, -⟩ := tends.fresh here
      simp only [handler, Content.perform]
      cases existing : world.kv.get other with
      | some old => exact found
      | none =>
        have apart : key ≠ other := by
          rintro rfl
          rw [existing] at found
          cases found
        exact (get_insert ..).trans ((if_neg apart).trans found)
    · rw [tends.get_eq, found]
      rw [inside]
      simpa using Ne.symm here
  | retype _ _ => rw [get_retype (.inl rfl) untyped, found]
  | untype _ => rw [get_retype (.inr rfl) untyped, found]
  | record records =>
    exact (records.get_eq (not_touches_of_region inside (by simp) (by simp))).trans found

theorem wp_lasting {α : Type} {p : Exec α} {post : α → World → Prop}
    (holds : p.wp (handler env) (Mutates env space terms) post world) :
    p.wp (handler env) (Mutates env space terms)
      (fun value world' => post value world' ∧ Lasting space world.kv world'.kv) world := by
  have keeps : ∀ (state : World) (op : Op Key Val), Mutates env space terms state op → Lasting space world.kv state.kv →
      Lasting space world.kv (handler env op state).2.kv :=
    fun _ _ mutates lasting => lasting.trans mutates.lasting
  exact wp_mono (wp_with holds keeps (Lasting.refl space _)) (fun _ _ permitted => permitted.1) fun _ _ reached => reached

theorem decodeInternal_eq_some : decodeInternal value = some internal ↔ value = .vid internal := by
  cases value <;> simp [decodeInternal]

theorem wp_publishForward
    (claimed : world.kv.get (reverseKey space candidate) = some (.text value)) :
    (publishForward space value candidate).wp (handler env) (fun _ _ => True) (fun result world' =>
      ∀ internal, result = some internal → Owns space world'.kv value internal) world := by
  refine ⟨trivial, ?_⟩
  simp only [handler, Content.perform]
  cases existing : world.kv.get (forwardKey space value) with
  | none =>
    rintro internal ⟨⟩
    have apart : reverseKey space candidate ≠ forwardKey space value := by simp [reverseKey, forwardKey]
    exact ⟨(get_insert ..).trans (if_pos rfl), (get_insert ..).trans ((if_neg apart).trans claimed)⟩
  | some stored =>
    change (ite _ _ _ : Exec _).wp _ _ _ _
    split
    · rename_i same
      rintro internal ⟨⟩
      rw [decodeInternal_eq_some] at same
      exact ⟨existing.trans (congrArg some same), claimed⟩
    · trivial

theorem wp_reads {α : Type} {p : Exec α} (looks : p.Only Looks) :
    p.wp (handler env) (fun _ _ => True) (fun _ world' => world' = world) world := by
  refine wp_of_only_with looks (fun _ _ _ _ => trivial) ?_ rfl
  rintro _ op permitted rfl
  cases op with
  | txNow => exact permitted.elim
  | kv op => exact KvOp.looks_kv permitted

theorem wp_probeCandidate (advances : advance.wp (handler env) (fun _ _ => True)
      (fun result world' => ∀ internal, result = some internal → Owns space world'.kv value internal) world) :
    (probeCandidate space value candidate advance).wp (handler env) (fun _ _ => True)
      (fun result world' => ∀ internal, result = some internal → Owns space world'.kv value internal) world := by
  rw [probeCandidate, wp_bind, wp_get]
  refine ⟨trivial, ?_⟩
  cases owner : world.kv.get (reverseKey space candidate) with
  | some stored =>
    dsimp only
    split
    · rename_i own
      exact wp_publishForward (owner.trans (congrArg some (isText_iff.mp own)))
    · exact advances
  | none =>
    refine wp_seq (wp_reads (looks_internalVidIsOccupied space candidate)) ?_
    rintro live world rfl
    split
    · exact advances
    · refine ⟨trivial, ?_⟩
      simp only [handler, Content.perform, owner]
      exact wp_publishForward ((get_insert ..).trans (if_pos rfl))

theorem wp_probe (value : String) (first : Int) (fuel : Nat) (candidate : Int) :
    (probe space value first fuel candidate).wp (handler env) (fun _ _ => True)
      (fun result world' => ∀ internal, result = some internal → Owns space world'.kv value internal) world := by
  induction fuel generalizing candidate with
  | zero => trivial
  | succ fuel ih =>
    apply wp_probeCandidate
    split
    · trivial
    · exact ih _

theorem wp_resolveVid_string {create : Bool} {post : Option Int → World → Prop}
    (named : ∀ internal, Owns space world.kv value internal → post (some internal) world)
    (missing : world.kv.get (forwardKey space value) = none → (if create then
      probe space value (initialCandidate ctx value) negativeVids (initialCandidate ctx value) else pure none : Exec _).wp
        (handler env) (fun _ _ => True) post world) :
    (resolveVid ctx space (.fixedString length) (.string value) create).wp (handler env) (fun _ _ => True) post world := by
  rw [resolveVid]
  split
  · trivial
  rw [wp_bind, wp_get]
  refine ⟨trivial, ?_⟩
  cases stored : world.kv.get (forwardKey space value) with
  | none => exact missing stored
  | some forward =>
    dsimp only
    cases decoded : decodeInternal forward with
    | none => trivial
    | some internal =>
      dsimp only
      split
      · trivial
      · rw [wp_bind, wp_get]
        refine ⟨trivial, ?_⟩
        cases owner : world.kv.get (reverseKey space internal) with
        | none => trivial
        | some text =>
          dsimp only
          split
          · rename_i own
            rw [decodeInternal_eq_some] at decoded
            exact named internal ⟨stored.trans (congrArg some decoded), owner.trans (congrArg some (isText_iff.mp own))⟩
          · trivial

theorem wp_resolveVid_create (vid : Vid) :
    (resolveVid ctx space vidType vid true).wp (handler env) (fun _ _ => True) (fun result world' =>
      ∀ internal, result = some internal → Named space world'.kv vidType vid internal) world := by
  cases vidType with
  | int64 =>
    cases vid with
    | int value =>
      rintro internal ⟨⟩
      exact rfl
    | string value => trivial
  | fixedString length =>
    cases vid with
    | int value => trivial
    | string value =>
      refine wp_resolveVid_string ?_ fun _ => wp_probe value _ _ _
      rintro internal owns _ ⟨⟩
      exact owns

theorem wp_resolveForWrite_named (vid : Vid) :
    (resolveForWrite ctx space vidType vid what).wp (handler env) (fun _ _ => True)
      (fun internal world' => Named space world'.kv vidType vid internal) world := by
  refine wp_seq (wp_resolveVid_create vid) ?_
  intro result world' named
  cases result with
  | none => trivial
  | some internal => exact named internal rfl

theorem wp_resolveForWrite (vid : Vid) (within : terms.tended .mapping) :
    (resolveForWrite ctx space vidType vid what).wp (handler env) (Mutates env space terms)
      (fun internal world' => Tended space .mapping world world' ∧ Named space world'.kv vidType vid internal) world :=
  wp_and (wp_tends (tends_resolveForWrite vid) within) (wp_resolveForWrite_named vid)

section

variable (space : String) (kv : KV)

/-- The space identifies its vertices by strings. -/
def StringSpace : Prop :=
  ∃ record length, kv.get (SchemaKey.space space) = some (.space record) ∧ record.vidType = .fixedString length

/-- In a space with string ids, the surrogate belongs to a string. -/
def Owned (internal : Int) : Prop :=
  StringSpace space kv → ∃ value, Owns space kv value internal

/-- Merged vertices and their representatives are ids that statements were given. -/
def AliasesOwned : Prop :=
  ∀ vid, (kv.get (sameas space vid)).isSome = true → Owned space kv vid ∧ Owned space kv (repAt space kv vid)

def vidTypeAt : Option SpaceVidType :=
  match kv.get (SchemaKey.space space) with
  | none => some .int64
  | some (.space record) =>
    match record.vidType with
    | .int64 => some .int64
    | .fixedString length => some (.fixedString length)
    | .unsupported _ => none
  | some _ => none

end

theorem wp_spaceVidType : (spaceVidType space).wp (handler env) (Mutates env space terms)
      (fun vidType world' => world' = world ∧ vidTypeAt space world.kv = some vidType) world := by
  rw [spaceVidType, wp_bind, wp_get]
  refine ⟨.look rfl, ?_⟩
  unfold vidTypeAt
  cases world.kv.get (.space space) with
  | none => exact ⟨rfl, rfl⟩
  | some value =>
    cases value with
    | space record =>
      dsimp only
      cases record.vidType <;> first | exact ⟨rfl, rfl⟩ | trivial
    | _ => trivial

theorem Named.owned (named : Named space kv vidType vid internal)
    (type : vidTypeAt space kv = some vidType) : Owned space kv internal := by
  rintro ⟨record, length, stored, fixed⟩
  simp only [vidTypeAt, stored, fixed, Option.some.injEq] at type
  subst type
  cases vid with
  | int => exact named.elim
  | string value => exact ⟨value, named⟩

def Denotes (space : String) (kv : KV) (vid : Vid) (internal : Int) : Prop :=
  ∃ vidType, vidTypeAt space kv = some vidType ∧ Named space kv vidType vid internal

theorem vidTypeAt_congr (record : kv'.get (.space space) = kv.get (.space space)) :
    vidTypeAt space kv' = vidTypeAt space kv := by
  rw [vidTypeAt, vidTypeAt, record]

theorem Denotes.owned (denotes : Denotes space kv vid internal) : Owned space kv internal := by
  obtain ⟨vidType, type, named⟩ := denotes
  exact named.owned type

theorem Denotes.lasting (denotes : Denotes space kv vid internal) (lasting : Lasting space kv kv')
    (record : kv'.get (.space space) = kv.get (.space space)) : Denotes space kv' vid internal := by
  obtain ⟨vidType, type, named⟩ := denotes
  exact ⟨vidType, (vidTypeAt_congr record).trans type, named.lasting lasting⟩

theorem Owned.lasting (owned : Owned space kv internal) (lasting : Lasting space kv kv')
    (same : kv'.get (.space space) = kv.get (.space space)) : Owned space kv' internal := by
  rintro ⟨record, length, stored, fixed⟩
  obtain ⟨value, owns⟩ := owned ⟨record, length, same ▸ stored, fixed⟩
  exact ⟨value, owns.lasting lasting⟩

end ByoriDB.Executor
