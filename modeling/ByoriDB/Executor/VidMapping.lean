import ByoriDB.Executor.Vid
import ByoriDB.Program.Pool
import Mathlib.Logic.Function.Iterate

/-! Calls may resolve strings of one space at the same time, and be cut off anywhere. -/

namespace ByoriDB.Executor

variable {length : Nat} {after : World}

open List Program ByoriDB.Graph Store
open Data.Table (get_insert)

theorem hexDigit_injective (leftSmall : left < 16) (rightSmall : right < 16)
    (same : hexDigit left = hexDigit right) : left = right := by
  have table : ∀ i : Fin 16, ∀ j : Fin 16, hexDigit i = hexDigit j → i = j := by decide
  exact congrArg Fin.val (table ⟨left, leftSmall⟩ ⟨right, rightSmall⟩ same)

theorem hexDigits_injective {left right : UInt8}
    (high : hexDigit (left.toNat / 16) = hexDigit (right.toNat / 16))
    (low : hexDigit (left.toNat % 16) = hexDigit (right.toNat % 16)) : left = right := by
  have leftBound := left.toNat_lt
  have rightBound := right.toNat_lt
  have sameHigh := hexDigit_injective (by omega) (by omega) high
  have sameLow := hexDigit_injective (by omega) (by omega) low
  apply UInt8.toNat_inj.mp
  omega

theorem hexBytes_injective {left right : List UInt8}
    (same : left.flatMap (fun byte => [hexDigit (byte.toNat / 16), hexDigit (byte.toNat % 16)]) =
      right.flatMap (fun byte => [hexDigit (byte.toNat / 16), hexDigit (byte.toNat % 16)])) :
    left = right := by
  induction left generalizing right with
  | nil =>
    cases right with
    | nil => rfl
    | cons head rest => simp at same
  | cons leftHead leftRest ih =>
    cases right with
    | nil => simp at same
    | cons head rest =>
      simp only [flatMap_cons, cons_append, nil_append, List.cons.injEq] at same
      rw [hexDigits_injective same.1 same.2.1, ih same.2.2]

theorem encodeComponent_injective (same : encodeComponent left = encodeComponent right) : left = right := by
  have sameBytes := hexBytes_injective (String.ofList_injective same)
  apply String.toByteArray_inj.mp
  exact ByteArray.ext (Array.toList_inj.mp sameBytes)

theorem isText_iff : isText value stored = true ↔ stored = .text value := by
  cases stored <;> simp [isText]

theorem forwardKey_inj : forwardKey space left = forwardKey space right ↔ left = right := by
  constructor
  · intro same
    simp only [forwardKey, Key.text.injEq, List.cons.injEq, Seg.word.injEq, and_true, true_and] at same
    exact encodeComponent_injective same
  · rintro rfl
    rfl

@[simp] theorem forwardKey_ne_reverseKey : forwardKey space value ≠ reverseKey space internal := by
  simp [forwardKey, reverseKey]

@[simp] theorem reverseKey_ne_forwardKey : reverseKey space internal ≠ forwardKey space value := by
  simp [forwardKey, reverseKey]

theorem initialCandidate_range : minVid ≤ initialCandidate ctx value ∧ initialCandidate ctx value < 0 := by
  have negative : (ctx.hash value ||| ((1 : UInt64) <<< 63)).toBitVec.msb = true := by
    rw [UInt64.toBitVec_or, BitVec.msb_or]
    have top : ((1 : UInt64) <<< 63).toBitVec.msb = true := by decide
    rw [top, Bool.or_true]
  have large := BitVec.msb_eq_decide (ctx.hash value ||| ((1 : UInt64) <<< 63)).toBitVec
  have bound := (ctx.hash value ||| ((1 : UInt64) <<< 63)).toBitVec.isLt
  have asBits : initialCandidate ctx value = (ctx.hash value ||| ((1 : UInt64) <<< 63)).toBitVec.toInt := rfl
  rw [asBits, BitVec.toInt_eq_msb_cond, negative, if_pos rfl]
  rw [negative] at large
  have atLeast := of_decide_eq_true large.symm
  unfold minVid
  omega

theorem nextCandidate_range (low : minVid ≤ candidate) (high : candidate < 0) :
    minVid ≤ nextCandidate candidate ∧ nextCandidate candidate < 0 := by
  unfold nextCandidate
  split <;> omega

/-- Counting from the smallest `i64`, the candidates go round the negative numbers. -/
theorem nextCandidate_offset :
    nextCandidate (minVid + (offset % negativeVids : Nat)) = minVid + ((offset + 1) % negativeVids : Nat) := by
  unfold nextCandidate minVid negativeVids
  split <;> omega

def candidateAfter (first : Int) (steps : Nat) : Int := nextCandidate^[steps] first

section

variable (low : minVid ≤ first) (high : first < 0)

include low high

theorem candidateAfter_eq :
    candidateAfter first steps = minVid + (((first - minVid).toNat + steps) % negativeVids : Nat) := by
  induction steps with
  | zero =>
    unfold candidateAfter minVid negativeVids at *
    simp only [Function.iterate_zero, id_eq]
    omega
  | succ steps ih =>
    unfold candidateAfter at *
    rw [Function.iterate_succ_apply', ih, nextCandidate_offset, Nat.add_assoc]

theorem candidateAfter_injective (leftSmall : left < negativeVids)
    (rightSmall : right < negativeVids)
    (same : candidateAfter first left = candidateAfter first right) : left = right := by
  rw [candidateAfter_eq low high, candidateAfter_eq low high] at same
  unfold minVid negativeVids at *
  omega

theorem candidateAfter_wraps : candidateAfter first negativeVids = first := by
  rw [candidateAfter_eq low high]
  unfold minVid negativeVids at *
  omega

end

section

variable (space : String) (world : World)

def forwardAt (value : String) : Option Val :=
  world.kv.get (forwardKey space value)

def reverseAt (internal : Int) : Option Val :=
  world.kv.get (reverseKey space internal)

/-- A visible mapping points to a negative surrogate that its string owns. -/
def MappingConsistent : Prop :=
  ∀ value stored, forwardAt space world value = some stored → ∃ internal, stored = .vid internal ∧ internal < 0 ∧
      reverseAt space world internal = some (.text value)

structure MappingGrows (before after : World) : Prop where
  forward : ∀ value stored, forwardAt space before value = some stored → forwardAt space after value = some stored
  reverse : ∀ internal stored, reverseAt space before internal = some stored →
    reverseAt space after internal = some stored

theorem MappingGrows.refl : MappingGrows space world world :=
  ⟨fun _ _ found => found, fun _ _ found => found⟩

end

theorem MappingGrows.trans (early : MappingGrows space first second)
    (late : MappingGrows space second third) : MappingGrows space first third :=
  ⟨fun value stored found => late.forward value stored (early.forward value stored found),
    fun internal stored found => late.reverse internal stored (early.reverse internal stored found)⟩

theorem grows_insert (absent : world.kv.get key = none) :
    MappingGrows space world { world with content := { world.content with kv := world.kv.insert key value } } := by
  have kept : ∀ other stored, world.kv.get other = some stored → (world.kv.insert key value).get other = some stored := by
    intro other stored found
    rw [get_insert, if_neg, found]
    rintro rfl
    simp [absent] at found
  exact ⟨fun _ => kept _, fun _ => kept _⟩

def Maps (space value : String) (internal : Int) (world : World) : Prop :=
  internal < 0 ∧ forwardAt space world value = some (.vid internal) ∧
    reverseAt space world internal = some (.text value)

/-- What a call that resolves `value` promises about its result. -/
def Resolves (space value : String) (result : Option Int) (world : World) : Prop :=
  ∃ internal, result = some internal ∧ Maps space value internal world

theorem Resolves.maps (resolved : Resolves space value (some internal) world) : Maps space value internal world := by
  obtain ⟨_, same, maps⟩ := resolved
  cases same
  exact maps

theorem Resolves.stable (grown : MappingGrows space before after)
    (resolved : Resolves space value result before) : Resolves space value result after := by
  obtain ⟨internal, rfl, negative, forward, reverse⟩ := resolved
  exact ⟨internal, rfl, negative, grown.forward _ _ forward, grown.reverse _ _ reverse⟩

section

variable {env : Env}

abbrev CallWithstands (env : Env) (space : String) {α : Type} (post : α → World → Prop) (p : Exec α)
    (world : World) : Prop :=
  p.Withstands (handler env) (MappingConsistent space) (MappingGrows space) post world

theorem withstands_get (rest : ∀ world', MappingGrows space world world' → MappingConsistent space world' →
      CallWithstands env space post (f (world'.kv.get key)) world') :
    CallWithstands env space post (get key >>= f) world :=
  Prog.withstands_read (MappingGrows.refl space) (fun _ => rfl) rest

theorem withstands_scanPrefix
    (rest : ∀ entries world', MappingGrows space world world' → MappingConsistent space world' →
      CallWithstands env space post (f entries) world') :
    CallWithstands env space post (scanPrefix scope >>= f) world :=
  Prog.withstands_read (MappingGrows.refl space) (fun _ => rfl) fun world' grown kept =>
    rest _ world' grown kept

theorem withstands_internalVidIsOccupied
    (rest : ∀ occupied world', MappingGrows space world world' → MappingConsistent space world' →
      post occupied world') : CallWithstands env space post (internalVidIsOccupied space internal) world := by
  apply withstands_get
  intro afterVertex grownVertex keptVertex
  split
  · exact rest _ _ grownVertex keptVertex
  · apply withstands_scanPrefix
    intro edges afterEdges grownEdges keptEdges
    split
    · exact rest _ _ (grownVertex.trans grownEdges) keptEdges
    · apply withstands_scanPrefix
      intro inEdges afterInEdges grownInEdges keptInEdges
      exact rest _ _ ((grownVertex.trans grownEdges).trans grownInEdges) keptInEdges

theorem withstands_publishForward (negative : candidate < 0)
    (owned : reverseAt space world candidate = some (.text value)) :
    CallWithstands env space (Resolves space value) (publishForward space value candidate) world := by
  intro world' grown kept
  have owned' := grown.reverse _ _ owned
  cases found : world'.kv.get (forwardKey space value) with
  | some existing =>
    rw [World.handler_putIfAbsent_some found]
    refine ⟨kept, MappingGrows.refl space world', ?_⟩
    obtain ⟨internal, rfl, _, _⟩ := kept value existing found
    change CallWithstands env space _ (if decodeInternal (.vid internal) = some candidate then
      pure (some candidate) else invalid _) world'
    split
    · rename_i same
      rw [decodeInternal, Option.some.injEq] at same
      subst same
      exact ⟨_, rfl, negative, found, owned'⟩
    · exact Prog.withstands_fail
  | none =>
    rw [World.handler_putIfAbsent_none found]
    have growth := @grows_insert space world' _ (.vid candidate) found
    refine ⟨?_, growth, candidate, rfl, negative, by simp [forwardAt, get_insert], growth.reverse _ _ owned'⟩
    intro other stored forward
    simp only [forwardAt, World.kv_mk, get_insert, forwardKey_inj] at forward
    split at forward
    · rename_i same
      subst same
      exact ⟨candidate, (Option.some.inj forward).symm, negative, growth.reverse _ _ owned'⟩
    · obtain ⟨internal, rfl, below, reverse⟩ := kept other stored forward
      exact ⟨internal, rfl, below, growth.reverse _ _ reverse⟩

/-- Claiming a surrogate either finds its owner or makes the string its owner. -/
theorem withstands_claim
    (taken : ∀ existing world', MappingGrows space world world' → MappingConsistent space world' →
      reverseAt space world' candidate = some existing →
      CallWithstands env space post (f (some existing)) world')
    (claimed : ∀ world', MappingGrows space world world' → MappingConsistent space world' →
      reverseAt space world' candidate = some (.text value) →
      CallWithstands env space post (f none) world') :
    CallWithstands env space post
      (putIfAbsent (reverseKey space candidate) (.text value) >>= f) world := by
  intro world' grown kept
  cases found : world'.kv.get (reverseKey space candidate) with
  | some existing =>
    rw [World.handler_putIfAbsent_some found]
    exact ⟨kept, MappingGrows.refl space world', taken existing world' grown kept found⟩
  | none =>
    rw [World.handler_putIfAbsent_none found]
    have growth := @grows_insert space world' _ (.text value) found
    have keptAfter : MappingConsistent space { world' with content := { world'.content with
        kv := world'.kv.insert (reverseKey space candidate) (.text value) } } := by
      intro other stored forward
      have before : forwardAt space world' other = some stored := by
        simpa [forwardAt, get_insert] using forward
      obtain ⟨internal, rfl, below, reverse⟩ := kept other stored before
      exact ⟨internal, rfl, below, growth.reverse _ _ reverse⟩
    refine ⟨keptAfter, growth, claimed _ (grown.trans growth) keptAfter ?_⟩
    simp [reverseAt, get_insert]

theorem withstands_probeCandidate (high : candidate < 0)
    (advances : ∀ world', CallWithstands env space (Resolves space value) advance world') :
    CallWithstands env space (Resolves space value) (probeCandidate space value candidate advance) world := by
  -- whoever owns the reverse key decides: publish when it is this string, go on otherwise
  have decided : ∀ owner world', reverseAt space world' candidate = some owner →
      CallWithstands env space (Resolves space value)
        (if isText value owner then publishForward space value candidate else advance) world' := by
    intro owner world' owned
    split
    · rename_i same
      rw [isText_iff.mp same] at owned
      exact withstands_publishForward high owned
    · exact advances world'
  apply withstands_get
  intro world' grown kept
  cases found : world'.kv.get (reverseKey space candidate) with
  | some owner => exact decided owner world' found
  | none =>
    refine Prog.withstands_bind (withstands_internalVidIsOccupied ?_)
    intro occupied afterCheck grownCheck keptCheck
    split
    · exact advances afterCheck
    · refine withstands_claim ?_ ?_
      · intro owner afterClaim _ _ owned
        exact decided owner afterClaim owned
      · intro afterClaim _ _ owned
        exact withstands_publishForward high owned

theorem withstands_probe (low : minVid ≤ candidate) (high : candidate < 0) :
    CallWithstands env space (Resolves space value) (probe space value first fuel candidate) world := by
  induction fuel generalizing candidate world with
  | zero => exact Prog.withstands_fail
  | succ fuel ih =>
    obtain ⟨nextLow, nextHigh⟩ := nextCandidate_range low high
    apply withstands_probeCandidate high
    intro world'
    split
    · exact Prog.withstands_fail
    · exact ih nextLow nextHigh

theorem withstands_resolveVid : CallWithstands env space (Resolves space value)
      (resolveVid ctx space (.fixedString length) (.string value) true) world := by
  obtain ⟨low, high⟩ := initialCandidate_range
  rw [resolveVid]
  split
  · exact Prog.withstands_fail
  · apply withstands_get
    intro world' _ kept
    cases found : world'.kv.get (forwardKey space value) with
    | none => exact withstands_probe low high
    | some stored =>
      obtain ⟨internal, rfl, negative, reverse⟩ := kept value stored found
      simp only [decodeInternal]
      rw [if_neg (by omega)]
      apply withstands_get
      intro afterRead grown _
      have reverse' := grown.reverse _ _ reverse
      rw [reverseAt] at reverse'
      simp only [reverse', isText, beq_self_eq_true, if_true]
      exact ⟨internal, rfl, negative, grown.forward _ _ found, grown.reverse _ _ reverse⟩

end

/-- The candidate an operation inspects, when it reads a reverse key. -/
def probedCandidate : Op Key Val → Option Int
  | .kv (.get (.text [.word _, .word "vid-rev", .num internal])) => some internal
  | _ => none

theorem internalVidIsOccupied_emits (space : String) (internal : Int) :
    (internalVidIsOccupied space internal).Emits probedCandidate [] := by
  refine emits_unseen rfl fun vertex => ?_
  split
  · trivial
  · refine emits_unseen rfl fun edges => ?_
    split
    · trivial
    · exact emits_unseen rfl fun inEdges => trivial

theorem publishForward_emits (space value : String) (candidate : Int) (items : List Int) :
    (publishForward space value candidate).Emits probedCandidate items := by
  refine emits_unseen rfl fun existing => ?_
  cases existing with
  | none => trivial
  | some stored =>
    dsimp only
    split <;> trivial

theorem candidateAfter_range_succ (candidate : Int) (fuel : Nat) :
    (List.range (fuel + 1)).map (candidateAfter candidate) =
      candidate :: (List.range fuel).map (candidateAfter (nextCandidate candidate)) := by
  rw [range_succ_eq_map, map_cons, map_map]
  rfl

theorem probeCandidate_emits (advances : advance.Emits probedCandidate rest) :
    (probeCandidate space value candidate advance).Emits probedCandidate (candidate :: rest) := by
  have decided : ∀ owner, (if isText value owner then publishForward space value candidate else advance).Emits
      probedCandidate rest := by
    intro owner
    split
    · exact publishForward_emits space value candidate _
    · exact advances
  refine Prog.emits_seen rfl fun existing => ?_
  cases existing with
  | some owner => exact decided owner
  | none =>
    refine Prog.emits_bind (internalVidIsOccupied_emits space candidate) fun occupied => ?_
    split
    · exact advances
    · refine emits_unseen rfl fun claimed => ?_
      cases claimed with
      | some owner => exact decided owner
      | none => exact publishForward_emits space value candidate _

theorem probe_emits (space value : String) (first : Int) (fuel : Nat) (candidate : Int) :
    (probe space value first fuel candidate).Emits probedCandidate
      ((List.range fuel).map (candidateAfter candidate)) := by
  induction fuel generalizing candidate with
  | zero => trivial
  | succ fuel ih =>
    rw [candidateAfter_range_succ]
    apply probeCandidate_emits
    split
    · trivial
    · exact ih _

theorem probeCandidate_avoids_outOfFuel (advances : advance.Avoids .outOfFuel) :
    (probeCandidate space value candidate advance).Avoids .outOfFuel := by
  have published : (publishForward space value candidate).Avoids .outOfFuel := by
    intro existing
    cases existing with
    | none => trivial
    | some stored =>
      change (if decodeInternal stored = some candidate then
        pure (some candidate) else invalid _ : Exec (Option Int)).Avoids .outOfFuel
      split <;> simp [invalid, Prog.Avoids, pure]
  have decided : ∀ owner, (if isText value owner then publishForward space value candidate else advance).Avoids .outOfFuel := by
    intro owner
    split
    · exact published
    · exact advances
  have checked : (internalVidIsOccupied space candidate).Avoids .outOfFuel := by
    refine avoids_bind (fun _ => trivial) fun vertex => ?_
    split
    · trivial
    · refine avoids_bind (fun _ => trivial) fun edges => ?_
      split
      · trivial
      · exact avoids_bind (fun _ => trivial) fun _ => trivial
  refine avoids_bind (fun _ => trivial) fun existing => ?_
  cases existing with
  | some owner => exact decided owner
  | none =>
    refine avoids_bind checked fun occupied => ?_
    split
    · exact advances
    · refine avoids_bind (fun _ => trivial) fun claimed => ?_
      cases claimed with
      | some owner => exact decided owner
      | none => exact published

theorem probe_avoids_outOfFuel (space value : String) (fuel : Nat)
    (candidate : Int) (positive : 0 < fuel) (wraps : candidateAfter candidate fuel = first) :
    (probe space value first fuel candidate).Avoids .outOfFuel := by
  induction fuel generalizing candidate with
  | zero => omega
  | succ fuel ih =>
    apply probeCandidate_avoids_outOfFuel
    split
    · simp [invalid, Prog.Avoids]
    · rename_i apart
      refine ih _ ?_ wraps
      cases fuel with
      | zero => exact absurd wraps apart
      | succ fuel => omega

theorem probe_nodup (low : minVid ≤ first) (high : first < 0)
    (path : Prog.Path (probe space value first negativeVids first) ops) : (ops.filterMap probedCandidate).Nodup := by
  have emitted := path.emitted (probe_emits space value first negativeVids first)
  refine List.Nodup.sublist emitted.sublist (List.Nodup.map_on ?_ nodup_range)
  intro left leftMember right rightMember same
  exact candidateAfter_injective low high (mem_range.mp leftMember) (mem_range.mp rightMember) same

theorem resolveVid_nodup
    (path : Prog.Path (resolveVid ctx space (.fixedString length) (.string value) true) ops) :
    (ops.filterMap probedCandidate).Nodup := by
  obtain ⟨low, high⟩ := initialCandidate_range
  rw [resolveVid] at path
  split at path
  · cases path
    exact nodup_nil
  · cases path with
    | stop => exact nodup_nil
    | step rest =>
      rename_i ops found
      rw [filterMap_cons_none rfl]
      cases found with
      | none => exact probe_nodup low high rest
      | some stored =>
        -- a visible mapping inspects one reverse key, the one it points to
        have single : ∃ internal, ops.filterMap probedCandidate <+: [internal] := by
          cases decoded : decodeInternal stored with
          | none =>
            refine ⟨0, rest.emitted ?_⟩
            simp [Prog.bind, decoded, invalid, Prog.Emits]
          | some internal =>
            refine ⟨internal, rest.emitted ?_⟩
            simp only [Prog.bind, decoded]
            split
            · trivial
            · refine Prog.emits_seen rfl fun owner => ?_
              cases owner with
              | none => trivial
              | some owner =>
                dsimp only
                split <;> trivial
        obtain ⟨internal, initial⟩ := single
        exact List.Nodup.sublist initial.sublist (nodup_singleton internal)

/-- What other statements may do meanwhile: anything but touch the mapping keys
of this space. -/
def LeavesMappings (space : String) (before after : World) : Prop :=
  (∀ value, forwardAt space after value = forwardAt space before value) ∧
    ∀ internal, reverseAt space after internal = reverseAt space before internal

theorem leavesMappings_tolerated (leaves : LeavesMappings space before after)
    (kept : MappingConsistent space before) : MappingConsistent space after ∧ MappingGrows space before after := by
  obtain ⟨sameForward, sameReverse⟩ := leaves
  refine ⟨?_, ?_, ?_⟩
  · intro value stored forward
    rw [sameForward] at forward
    obtain ⟨internal, rfl, negative, reverse⟩ := kept value stored forward
    exact ⟨internal, rfl, negative, by rw [sameReverse, reverse]⟩
  · intro value stored forward
    rw [sameForward, forward]
  · intro internal stored reverse
    rw [sameReverse, reverse]

/-- The calls that resolve strings of one space with creation enabled. -/
abbrev ResolvePool := Pool (signature Key Val) ExecutionError (Option Int) World String

abbrev ResolvePool.Reaches (env : Env) (ctx : Ctx) (space : String) (length : Nat) : ResolvePool → ResolvePool → Prop :=
  Pool.Reaches (handler env)
    (fun value => resolveVid ctx space (.fixedString length) (.string value) true) (LeavesMappings space)

theorem reaches_resolves (unmapped : ∀ value, forwardAt space first.state value = none)
    (idle : first.calls = []) (reached : ResolvePool.Reaches env ctx space length first last)
    (returned : (value, .pure result) ∈ last.calls) : Resolves space value result last.state := by
  have consistent : MappingConsistent space first.state := by
    intro value stored forward
    rw [unmapped] at forward
    exact absurd forward (by simp)
  obtain ⟨_, _, guarantees⟩ :=
    Pool.reaches_withstands (Resolves space) (MappingGrows.refl space) MappingGrows.trans Resolves.stable
      (fun value world _ => withstands_resolveVid)
      (fun before after leaves kept => leavesMappings_tolerated leaves kept)
      consistent (by simp [idle]) reached
  exact guarantees _ returned

/-- Strings resolve to negative ids that are their own for good, whatever the
interleaving, the crashes and the hash collisions, and a probe inspects no
candidate twice. -/
theorem resolveVid_safe (env : Env) (ctx : Ctx) (space : String) (length : Nat)
    (first last : ResolvePool) (unmapped : ∀ value, forwardAt space first.state value = none)
    (idle : first.calls = []) (reached : ResolvePool.Reaches env ctx space length first last) :
    (∀ left right internal, (left, .pure (some internal)) ∈ last.calls →
      (right, .pure (some internal)) ∈ last.calls → left = right) ∧
    (∀ value one other, (value, .pure (some one)) ∈ last.calls →
      (value, .pure (some other)) ∈ last.calls → one = other) ∧
    (∀ value result, (value, .pure result) ∈ last.calls → ∃ internal, result = some internal ∧ internal < 0) ∧
    (∀ value internal, (value, .pure (some internal)) ∈ last.calls →
      (displayVid space (.fixedString length) internal).run (handler env) last.state =
        (.ok (.string value), last.state)) ∧
    (∀ value ops, Prog.Path (resolveVid ctx space (.fixedString length) (.string value) true) ops →
      (ops.filterMap probedCandidate).Nodup) ∧
    ∀ value, (probe space value (initialCandidate ctx value) negativeVids
      (initialCandidate ctx value)).Avoids .outOfFuel := by
  have resolves : ∀ {value result}, (value, .pure result) ∈ last.calls → Resolves space value result last.state :=
    fun returned => reaches_resolves unmapped idle reached returned
  refine ⟨?_, ?_, ?_, ?_, ?_, ?_⟩
  · intro left right internal leftReturned rightReturned
    obtain ⟨_, _, leftOwns⟩ := (resolves leftReturned).maps
    obtain ⟨_, _, rightOwns⟩ := (resolves rightReturned).maps
    rw [leftOwns] at rightOwns
    simpa using rightOwns
  · intro value one other oneReturned otherReturned
    obtain ⟨_, oneForward, _⟩ := (resolves oneReturned).maps
    obtain ⟨_, otherForward, _⟩ := (resolves otherReturned).maps
    rw [oneForward] at otherForward
    simpa using otherForward
  · intro value result returned
    obtain ⟨internal, rfl, negative, _⟩ := resolves returned
    exact ⟨internal, rfl, negative⟩
  · intro value internal returned
    obtain ⟨negative, _, owned⟩ := (resolves returned).maps
    rw [displayVid, if_neg (by omega)]
    rw [reverseAt] at owned
    rw [Prog.run_bind, show (get (reverseKey space internal)).run (handler env) last.state = (.ok _, _) from rfl, owned]
    rfl
  · intro value ops path
    exact resolveVid_nodup path
  · intro value
    obtain ⟨low, high⟩ := initialCandidate_range
    exact probe_avoids_outOfFuel space value negativeVids _ (by decide) (candidateAfter_wraps low high)

/-- Two strings with the same hash, resolved one after the other. -/
theorem resolveVid_safe_collision : let env : Env := { recordLayout with clock := fun _ => 0 }
    let ctx : Ctx := ⟨some "s", none, false, 0, 0, fun _ => 0, fun _ => none, fun _ => ""⟩
    let first : ResolvePool := ⟨⟨.empty, 0, 0⟩, []⟩
    ∃ last, ResolvePool.Reaches env ctx "s" 8 first last ∧
      ("a", .pure (some minVid)) ∈ last.calls ∧ ("b", .pure (some (minVid + 1))) ∈ last.calls ∧
      (displayVid "s" (.fixedString 8) (minVid + 1)).run (handler env) last.state =
        (.ok (.string "b"), last.state) := by
  intro env ctx first
  have reached : ResolvePool.Reaches env ctx "s" 8 first _ :=
    .trans (.single (.begin _ _ "a")) (.trans (Pool.reaches_finish [] [] "a" _ _)
      (.trans (.single (.begin _ _ "b")) (Pool.reaches_finish [] _ "b" _ _)))
  have resolvedA : ((resolveVid ctx "s" (.fixedString 8) (.string "a") true).run (handler env)
      first.state).1 = .ok (some minVid) := by decide +kernel
  have resolvedB : ((resolveVid ctx "s" (.fixedString 8) (.string "b") true).run (handler env)
      ((resolveVid ctx "s" (.fixedString 8) (.string "a") true).run (handler env) first.state).2).1 =
        .ok (some (minVid + 1)) := by decide +kernel
  rw [resolvedA, resolvedB] at reached
  refine ⟨_, reached, .tail _ (.head _), .head _, ?_⟩
  exact (resolveVid_safe env ctx "s" 8 first _ (fun _ => rfl) rfl reached).2.2.2.1 "b" (minVid + 1) (.head _)

end ByoriDB.Executor
