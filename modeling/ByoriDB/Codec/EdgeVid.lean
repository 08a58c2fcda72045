import ByoriDB.Data.Bytes

/-! The fast decoders walk over the fields of an encoded edge and stop at the id they want. -/

namespace ByoriDB.Codec

open List Data

/-- `byte & 0x7f` is the remainder, `byte & 0x80` says whether the byte is below. -/
def readVarintLoop (result shift i : Nat) : Bytes → Option (Nat × Nat)
  | [] => none
  | byte :: rest =>
    let result := result ||| (byte.toNat % 0x80) <<< shift % 2 ^ 64
    if byte.toNat < 0x80 then some (result, i + 1) else readVarintLoop result (shift + 7) (i + 1) rest

def readVarint (buf : Bytes) : Option (Nat × Nat) := readVarintLoop 0 0 0 (buf.take 10)

/-- `next` holds the sum of the source, before it is cut to a `usize`. -/
inductive ScanStep where
  | next (pos : Nat)
  | done (result : Except String Int64)
  | panic

/-- The slice `data[pos..]` panics behind the end. -/
def readAt (data : Bytes) (pos : Nat) (use : Option (Nat × Nat) → ScanStep) : ScanStep :=
  if pos ≤ data.length then use (readVarint (data.drop pos)) else .panic

def scanField (data : Bytes) (targetField pos : Nat) : ScanStep :=
  readAt data pos fun
    | none => .done (.error "Truncated tag")
    | some (tag, n) =>
      let pos := pos + n
      if tag / 8 = targetField ∧ tag % 8 = 0 then
        readAt data pos fun
          | none => .done (.error "Truncated vid field")
          | some (val, _) => .done (.ok (.ofNat val))
      else match tag % 8 with
        | 0 => readAt data pos fun
          | none => .done (.error "Truncated varint")
          | some (_, n) => .next (pos + n)
        | 1 => .next (pos + 8)
        | 2 => readAt data pos fun
          | none => .done (.error "Truncated length prefix")
          | some (len, n) => .next (pos + (n + len))
        | 5 => .next (pos + 4)
        | wireType => .done (.error s!"Unsupported wire type {wireType}")

def decodeEdgeVidProto (data : Bytes) (targetField : Nat) : Nat → Nat → Option (Except String Int64)
  | 0, _ => none
  | fuel + 1, pos =>
    if pos < data.length then
      match scanField data targetField pos with
      | .done result => some result
      | .next pos => decodeEdgeVidProto data targetField fuel (pos % 2 ^ 64)
      | .panic => none
    else some (.ok 0)

/-- `json` parses a legacy edge and looks up one of its fields. -/
def decodeEdgeVid (json : Bytes → Except String (String → Option Int64))
    (name : String) (targetField fuel : Nat) (data : Bytes) : Option (Except String Int64) :=
  match data with
  | [] => some (.error "Empty data")
  | first :: rest =>
    if first = 0xCA then decodeEdgeVidProto rest targetField fuel 0
    else match json data with
      | .error reason => some (.error s!"JSON decode failed: {reason}")
      | .ok fields => some (.ok ((fields name).getD 0))

def decodeEdgeSrc (json : Bytes → Except String (String → Option Int64)) := decodeEdgeVid json "src" 1

def decodeEdgeDst (json : Bytes → Except String (String → Option Int64)) := decodeEdgeVid json "dst" 2

inductive Reached (data : Bytes) (targetField : Nat) : Nat → Prop where
  | start : Reached data targetField 0
  | step (reached : Reached data targetField pos) (inside : pos < data.length)
      (stepped : scanField data targetField pos = .next moved) : Reached data targetField (moved % 2 ^ 64)

/-- The decoder returns, and every step of the scan reads inside the bytes and moves on without an overflow. -/
structure Safe (decode : Nat → Bytes → Option (Except String Int64)) (targetField : Nat) (data : Bytes) : Prop where
  returns : ∃ fuel result, decode fuel data = some result
  moves : ∀ rest, data = 0xCA :: rest → ∀ pos, Reached rest targetField pos → pos < rest.length →
    scanField rest targetField pos ≠ .panic ∧ ∀ moved, scanField rest targetField pos = .next moved → pos < moved ∧ moved < 2 ^ 64

/-- How many bytes the value behind a tag takes, by its wire type. -/
def valueLength (wireType : Nat) (value : Bytes) : Option Nat :=
  match wireType with
  | 0 => (readVarint value).map Prod.snd
  | 1 => some 8
  | 2 => (readVarint value).map fun length => length.2 + length.1
  | 5 => some 4
  | _ => none

/-- What is left of a record behind fields other than the id that is looked for. -/
inductive Behind (data : Bytes) (targetField : Nat) : Bytes → Prop where
  | start : Behind data targetField data
  | field (behind : Behind data targetField rest) (tagged : readVarint rest = some (tag, n))
      (other : ¬ (tag / 8 = targetField ∧ tag % 8 = 0)) (valued : valueLength (tag % 8) (rest.drop n) = some size)
      (whole : n + size ≤ rest.length) : Behind data targetField (rest.drop (n + size))

/-- The end of every length-delimited field, as its length says it, is a number of 64 bits. -/
def LengthsFit (data : Bytes) (targetField : Nat) : Prop :=
  ∀ rest, Behind data targetField rest → ∀ tag n len m, readVarint rest = some (tag, n) → tag % 8 = 2 →
    readVarint (rest.drop n) = some (len, m) → data.length - rest.length + n + m + len < 2 ^ 64

variable {data buf : Bytes}

theorem readVarintLoop_bounds (read : readVarintLoop result shift i buf = some (val, n)) : i < n ∧ n ≤ i + buf.length := by
  induction buf generalizing result shift i with
  | nil => cases read
  | cons byte rest ih =>
    rw [readVarintLoop] at read
    split at read
    · cases read
      simp
    · have := ih read
      rw [length_cons]
      omega

theorem readVarint_bounds (read : readVarint buf = some (val, n)) : 0 < n ∧ n ≤ 10 ∧ n ≤ buf.length := by
  have := readVarintLoop_bounds read
  rw [length_take] at this
  omega

theorem scanField_ne_panic (inside : pos < data.length) : scanField data targetField pos ≠ .panic := by
  rw [scanField, readAt, if_pos inside.le]
  cases read : readVarint (data.drop pos) with
  | none => simp
  | some found =>
    have bounds := readVarint_bounds read
    rw [length_drop] at bounds
    simp only [readAt, if_pos (show pos + found.2 ≤ data.length by omega)]
    cases readVarint (data.drop (pos + found.2)) <;> split <;> (try split) <;> simp

/-- The scan steps over one field. -/
theorem scanField_eq_next (inside : pos < data.length) : scanField data targetField pos = .next moved ↔
    ∃ tag n size, readVarint (data.drop pos) = some (tag, n) ∧ ¬ (tag / 8 = targetField ∧ tag % 8 = 0) ∧
      valueLength (tag % 8) (data.drop (pos + n)) = some size ∧ moved = pos + n + size := by
  rw [scanField, readAt, if_pos inside.le]
  cases read : readVarint (data.drop pos) with
  | none => simp
  | some found =>
    obtain ⟨tag, n⟩ := found
    have bounds := readVarint_bounds read
    rw [length_drop] at bounds
    simp only [readAt, if_pos (show pos + n ≤ data.length by omega), Option.some.injEq, Prod.mk.injEq]
    by_cases target : tag / 8 = targetField ∧ tag % 8 = 0
    · rw [if_pos target]
      cases readVarint (data.drop (pos + n)) <;> simp <;> omega
    · rw [if_neg target]
      trans ∃ size, valueLength (tag % 8) (data.drop (pos + n)) = some size ∧ moved = pos + n + size
      · unfold valueLength
        cases readVarint (data.drop (pos + n)) <;> split <;> simp [eq_comm]
      · constructor
        · exact fun ⟨size, found⟩ => ⟨tag, n, size, ⟨rfl, rfl⟩, target, found⟩
        · rintro ⟨_, _, size, ⟨rfl, rfl⟩, -, found⟩
          exact ⟨size, found⟩

section

variable (short : data.length < 2 ^ 63) (fits : LengthsFit data targetField)

include short fits

theorem scanField_safe (behind : Behind data targetField (data.drop pos)) (inside : pos < data.length)
    (stepped : scanField data targetField pos = .next moved) : pos < moved ∧ moved < 2 ^ 64 := by
  obtain ⟨tag, n, size, isTag, -, found, rfl⟩ := (scanField_eq_next inside).mp stepped
  have bounds := readVarint_bounds isTag
  have prefixed := fits _ behind tag n
  rw [length_drop] at bounds prefixed
  rw [drop_drop] at prefixed
  refine ⟨by omega, ?_⟩
  unfold valueLength at found
  split at found
  case h_3 delimited =>
    obtain ⟨⟨len, m⟩, isLen, rfl⟩ := Option.map_eq_some_iff.mp found
    have := prefixed len m isTag delimited isLen
    dsimp only
    omega
  case h_1 =>
    obtain ⟨⟨val, m⟩, isVal, rfl⟩ := Option.map_eq_some_iff.mp found
    have := readVarint_bounds isVal
    dsimp only
    omega
  all_goals
    simp only [Option.some.injEq, reduceCtorEq] at found
    try omega

theorem Reached.behind (reached : Reached data targetField pos) (inside : pos < data.length) :
    Behind data targetField (data.drop pos) := by
  induction reached with
  | start => exact .start
  | @step pos moved _ before stepped behind =>
    rw [Nat.mod_eq_of_lt (scanField_safe short fits (behind before) before stepped).2] at inside ⊢
    obtain ⟨tag, n, size, isTag, other, found, rfl⟩ := (scanField_eq_next before).mp stepped
    have next := (behind before).field isTag other (by rwa [drop_drop]) (by rw [length_drop]; omega)
    rwa [drop_drop, ← Nat.add_assoc] at next

/-- The distance to the end is the fuel that is left. -/
theorem decodeEdgeVidProto_returns (reached : Reached data targetField pos) (enough : data.length - pos < fuel) :
    ∃ result, decodeEdgeVidProto data targetField fuel pos = some result := by
  induction fuel generalizing pos with
  | zero => omega
  | succ fuel ih =>
    rw [decodeEdgeVidProto]
    split
    · next inside =>
      cases stepped : scanField data targetField pos with
      | done result => exact ⟨_, rfl⟩
      | panic => exact absurd stepped (scanField_ne_panic inside)
      | next moved =>
        have safe := scanField_safe short fits (reached.behind short fits inside) inside stepped
        exact ih (.step reached inside stepped) (by rw [Nat.mod_eq_of_lt safe.2]; omega)
    · exact ⟨_, rfl⟩

end

section

variable (short : data.length < 2 ^ 63)

include short

theorem Behind.reached (behind : Behind data targetField rest) :
    ∃ pos ≤ data.length, rest = data.drop pos ∧ Reached data targetField pos := by
  induction behind with
  | start => exact ⟨0, Nat.zero_le _, rfl, .start⟩
  | @field rest tag n size _ tagged other valued whole ih =>
    obtain ⟨pos, within, rfl, reached⟩ := ih
    have bounds := readVarint_bounds tagged
    rw [length_drop] at bounds whole
    have inside : pos < data.length := by omega
    have next := reached.step inside ((scanField_eq_next inside).mpr ⟨tag, n, size, tagged, other, by rwa [← drop_drop], rfl⟩)
    rw [Nat.mod_eq_of_lt (by omega)] at next
    exact ⟨pos + n + size, by omega, by rw [drop_drop, Nat.add_assoc], next⟩

theorem safe_iff : Safe (decodeEdgeVid json name targetField) targetField data ↔
      ∀ rest, data = 0xCA :: rest → LengthsFit rest targetField := by
  constructor
  · rintro ⟨-, moves⟩ body rfl rest behind tag n len m isTag delimited isLen
    rw [length_cons] at short
    obtain ⟨pos, within, rfl, reached⟩ := behind.reached (by omega)
    have bounds := readVarint_bounds isTag
    rw [length_drop] at bounds ⊢
    have inside : pos < body.length := by omega
    have stepped : scanField body targetField pos = .next (pos + n + (m + len)) := by
      refine (scanField_eq_next inside).mpr ⟨tag, n, m + len, isTag, by omega, ?_, rfl⟩
      rw [delimited, ← drop_drop, valueLength, isLen]
      rfl
    have := ((moves body rfl pos reached inside).2 _ stepped).2
    omega
  · intro fits
    constructor
    · cases data with
      | nil => exact ⟨0, _, rfl⟩
      | cons first rest =>
        rw [length_cons] at short
        simp only [decodeEdgeVid]
        split
        · next isProto =>
          exact ⟨_, decodeEdgeVidProto_returns (by omega) (fits rest (isProto ▸ rfl)) .start (Nat.lt_succ_self _)⟩
        · cases json (first :: rest) <;> exact ⟨0, _, rfl⟩
    · rintro rest rfl pos reached inside
      rw [length_cons] at short
      have behind := reached.behind (by omega) (fits rest rfl) inside
      exact ⟨scanField_ne_panic inside, fun moved => scanField_safe (by omega) (fits rest rfl) behind inside⟩

/-- The decoders are safe if no length takes the scan behind the largest position. -/
theorem decodeEdge_safe_iff :
    (Safe (decodeEdgeSrc json) 1 data ∧ Safe (decodeEdgeDst json) 2 data) ↔
      ∀ rest, data = 0xCA :: rest → LengthsFit rest 1 ∧ LengthsFit rest 2 := by
  simp [decodeEdgeSrc, decodeEdgeDst, safe_iff short, forall_and]

end

theorem readVarint_small (small : ∀ byte ∈ buf, byte.toNat < 0x80)
    (read : readVarint buf = some (val, n)) : n = 1 ∧ val < 0x80 := by
  cases buf with
  | nil => cases read
  | cons byte rest =>
    have low := small byte (.head _)
    rw [readVarint, take_succ_cons, readVarintLoop, if_pos low] at read
    cases read
    simp [Nat.mod_eq_of_lt low, low]

theorem Behind.suffix (behind : Behind data targetField rest) : rest <:+ data := by
  induction behind with
  | start => exact suffix_refl _
  | field _ _ _ _ _ ih => exact (drop_suffix _ _).trans ih

/-- Lengths of one byte fit. -/
theorem lengthsFit_small (short : data.length < 2 ^ 63) (small : ∀ byte ∈ data, byte.toNat < 0x80)
    (targetField : Nat) : LengthsFit data targetField := by
  intro rest behind tag n len m isTag _ isLen
  have low : ∀ byte ∈ rest, byte.toNat < 0x80 := fun byte mem => small byte (behind.suffix.subset mem)
  obtain ⟨rfl, -⟩ := readVarint_small low isTag
  obtain ⟨rfl, few⟩ := readVarint_small (fun byte mem => low byte (mem_of_mem_drop mem)) isLen
  omega

/-- The type and a property precede the ids: `knows`, an empty property, 5 and 7. -/
theorem decodeEdge_safe_swapped : Safe (decodeEdgeSrc fun _ => .error "") 1 [0xCA,
      0x1A, 5, 107, 110, 111, 119, 115, 0x2A, 0, 0x10, 7, 0x08, 5] ∧ Safe (decodeEdgeDst fun _ =>
      .error "") 2 [0xCA, 0x1A, 5, 107, 110, 111, 119, 115, 0x2A, 0, 0x10, 7, 0x08, 5] := by
  refine (decodeEdge_safe_iff (by decide)).mpr ?_
  rintro _ ⟨⟩
  exact ⟨lengthsFit_small (by decide) (by simp) 1, lengthsFit_small (by decide) (by simp) 2⟩

/-- The length 2^64 - 11 takes the scan back to its start. -/
theorem decodeEdge_unsafe : ¬ Safe (decodeEdgeDst fun _ => .error "") 2 [0xCA,
      0x1A, 0xF5, 0xFF, 0xFF, 0xFF, 0xFF, 0xFF, 0xFF, 0xFF, 0xFF, 0x01] := by
  intro safe
  have stepped : scanField [0x1A, 0xF5, 0xFF, 0xFF, 0xFF, 0xFF, 0xFF, 0xFF, 0xFF, 0xFF, 0x01] 2 0 = .next (2 ^ 64) := rfl
  exact absurd ((safe.moves _ rfl 0 .start (by decide)).2 _ stepped).2 (Nat.lt_irrefl _)

end ByoriDB.Codec
