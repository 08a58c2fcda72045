import ByoriDB.Executor.Index
import ByoriDB.Store.Representation

namespace ByoriDB.Executor

open List Std
open Data Store ByoriDB.Graph
open IndexValue (encode)

def utf8 (text : String) : Bytes := text.toUTF8.data.toList

/-- `String::from_utf8_lossy`: what it makes of other bytes than those of a text is left open. -/
structure LossyUtf8 where
  text : Bytes → String
  exact : ∀ original, text (utf8 original) = original

namespace IndexValue

/-- The bit pattern behind ordered bits. -/
def disorderedBits (word : Nat) : UInt64 :=
  UInt64.ofNat (if word < 9223372036854775808 then complement word else flipSign word)

/-- The first value of the data and how many bytes it takes. -/
def decode (lossy : LossyUtf8) : Bytes → Option (IndexValue × Nat)
  | [] => none
  | kind :: data =>
    if kind = 0 then some (.null, 1)
    else if kind = 1 then data.head?.map fun flag => (.bool (flag != 0), 2)
    else if kind = 2 then
      if data.length < 8 then none else some (.int (asI64 (flipSign (Bytes.ofBigEndian (data.take 8)))), 9)
    else if kind = 3 then
      if data.length < 8 then none else some (.float (disorderedBits (Bytes.ofBigEndian (data.take 8))), 9)
    else if kind = 4 then
      match data with
      | [] => none
      | length :: data =>
        if data.length < length.toNat then none
        else some (.string (lossy.text (data.take length.toNat)), 2 + length.toNat)
    else none

/-- Decode until nothing is left; every value takes a byte at least. -/
def decodeAll (lossy : LossyUtf8) (data : Bytes) : Option (List IndexValue) :=
  go data.length data
where
  go : Nat → Bytes → Option (List IndexValue)
    | _, [] => some []
    | 0, _ => none
    | fuel + 1, data => do
      let (value, used) ← decode lossy data
      let values ← go fuel (data.drop used)
      pure (value :: values)

def encodeAll (values : List IndexValue) : Bytes := values.flatMap encode

/-- Values an index key holds in full. -/
def Fits : IndexValue → Prop
  | .int number => fitsI64 number = true
  | .string text => (utf8 text).length ≤ 255
  | _ => True

theorem orderedBits_eq (bits : UInt64) :
    orderedBits bits = if bits.toNat < 9223372036854775808 then bits.toNat + 9223372036854775808
      else 18446744073709551615 - bits.toNat := by
  have small := bits.toNat_lt
  rw [orderedBits, flipSign_eq small, complement]
  split <;> rfl

theorem orderedBits_lt (bits : UInt64) : orderedBits bits < 256 ^ 8 := by
  rw [orderedBits_eq]
  split <;> omega

theorem disorderedBits_orderedBits (bits : UInt64) : disorderedBits (orderedBits bits) = bits := by
  have small := bits.toNat_lt
  have undone : (if orderedBits bits < 9223372036854775808 then complement (orderedBits bits)
      else flipSign (orderedBits bits)) = bits.toNat := by
    rw [orderedBits_eq]
    split
    · rw [if_neg (by omega), flipSign_eq (by omega), if_neg (by omega)]
      omega
    · rw [if_pos (by omega), complement]
      omega
  rw [disorderedBits, undone, UInt64.ofNat_toNat]

theorem asI64_flipSign_asU64 (fits : fitsI64 number = true) : asI64 (flipSign (flipSign (asU64 number))) = number := by
  rw [flipSign, flipSign, Nat.xor_assoc, Nat.xor_self, Nat.xor_zero, asI64_asU64 fits]

theorem flipSign_asU64 (fits : fitsI64 number = true) :
    flipSign (asU64 number) = (number + 9223372036854775808).toNat := by
  have small := asU64_lt number
  rw [fitsI64_iff] at fits
  rw [flipSign_eq (by omega)]
  rw [asU64] at *
  split <;> omega

theorem decode_encode (lossy : LossyUtf8) {value : IndexValue} (fits : value.Fits) (rest : Bytes) :
    decode lossy (value.encode ++ rest) = some (value, value.encode.length) := by
  cases value with
  | null => rfl
  | bool flag => cases flag <;> rfl
  | int number =>
    have word := flipSign_asU64 fits
    have bounds := fitsI64_iff.mp fits
    simp [encode, decode, take_left', Bytes.ofBigEndian_bigEndian (show flipSign (asU64 number) < 256 ^ 8 by omega),
      asI64_flipSign_asU64 fits]
  | float bits =>
    simp [encode, decode, take_left', Bytes.ofBigEndian_bigEndian (orderedBits_lt bits), disorderedBits_orderedBits]
  | string text =>
    have whole : (utf8 text).take 255 = utf8 text := take_of_length_le fits
    have digit : (UInt8.ofNat (utf8 text).length).toNat = (utf8 text).length :=
      Bytes.toNat_digit (Nat.lt_succ_of_le fits)
    have encoded : (IndexValue.string text).encode = 4 :: UInt8.ofNat (utf8 text).length :: utf8 text := by
      simp only [encode, ← utf8.eq_1, whole]
    rw [encoded]
    simp [decode, digit, lossy.exact]
    omega

theorem encode_ne_nil (value : IndexValue) : value.encode ≠ [] := by
  cases value <;> simp [encode]

theorem length_le_encodeAll (values : List IndexValue) : values.length ≤ (encodeAll values).length := by
  induction values with
  | nil => rfl
  | cons value values ih =>
    have positive := length_pos_iff.mpr value.encode_ne_nil
    rw [encodeAll, flatMap_cons, length_append, length_cons]
    rw [encodeAll] at ih
    omega

theorem decodeAll_go (lossy : LossyUtf8) {values : List IndexValue} (fits : ∀ value ∈ values, value.Fits)
    (enough : values.length ≤ fuel) : decodeAll.go lossy fuel (encodeAll values) = some values := by
  induction values generalizing fuel with
  | nil => cases fuel <;> rfl
  | cons value values ih =>
    obtain ⟨fuel, rfl⟩ : ∃ fewer, fuel = fewer + 1 := ⟨fuel - 1, by simp at enough; omega⟩
    have first := decode_encode lossy (fits value mem_cons_self) (encodeAll values)
    have others := ih (fun other mem => fits other (mem_cons_of_mem _ mem)) (Nat.le_of_succ_le_succ enough)
    have split : encodeAll (value :: values) = value.encode ++ encodeAll values := rfl
    have filled : value.encode ++ encodeAll values ≠ [] := by simp [value.encode_ne_nil]
    rw [split, decodeAll.go.eq_3 _ _ _ filled, first]
    simp [others]

theorem isPrefix_of_encodeAll (lossy : LossyUtf8) {values others : List IndexValue}
    (fits : ∀ value ∈ values, value.Fits) (othersFit : ∀ value ∈ others, value.Fits)
    (starts : encodeAll values <+: encodeAll others) : values <+: others := by
  induction values generalizing others with
  | nil => exact List.nil_prefix
  | cons value values ih =>
    obtain ⟨rest, same⟩ := starts
    rw [encodeAll, flatMap_cons, append_assoc] at same
    cases others with
    | nil => exact absurd (append_eq_nil_iff.mp same).1 value.encode_ne_nil
    | cons other others =>
      have first := decode_encode lossy (fits value mem_cons_self) (values.flatMap encode ++ rest)
      rw [same, encodeAll, flatMap_cons, decode_encode lossy (othersFit other mem_cons_self)] at first
      obtain ⟨rfl, -⟩ := Prod.ext_iff.mp (Option.some.inj first)
      rw [encodeAll, flatMap_cons, append_cancel_left_eq] at same
      have later := ih (fun value mem => fits value (mem_cons_of_mem _ mem))
        (fun value mem => othersFit value (mem_cons_of_mem _ mem)) ⟨rest, same⟩
      exact cons_prefix_cons.mpr ⟨rfl, later⟩

end IndexValue

namespace KeyUtils

section

variable (partId indexId : Nat)

section

variable (values : List IndexValue)

def readI64 (data : Bytes) : Int := asI64 (Bytes.ofBigEndian (data.take 8))

def parseTagIndexVid (key : Bytes) : Option Int :=
  if key.length < 17 then none else some (readI64 (key.drop (key.length - 8)))

def parseEdgeIndexEdge (key : Bytes) : Option (Int × Int × Int) :=
  if key.length < 33 then none
  else
    let data := key.drop (key.length - 24)
    some (readI64 data, readI64 (data.drop 8), readI64 (data.drop 16))

theorem readI64_bigEndian (fits : fitsI64 number = true) (rest : Bytes) :
    readI64 (Bytes.bigEndian 8 (asU64 number) ++ rest) = number := by
  rw [readI64, take_left' (by simp), Bytes.ofBigEndian_bigEndian (asU64_lt number), asI64_asU64 fits]

theorem parseTagIndexVid_tagIndexKey (fits : fitsI64 vid = true) :
    parseTagIndexVid (tagIndexKey partId indexId values vid) = some vid := by
  have read := readI64_bigEndian fits []
  rw [append_nil] at read
  rw [parseTagIndexVid, if_neg (by simp [tagIndexKey, indexPrefix]; omega), tagIndexKey, drop_left' (by simp; omega), read]

theorem parseEdgeIndexEdge_edgeIndexKey (srcFits : fitsI64 src = true)
    (rankFits : fitsI64 rank = true) (dstFits : fitsI64 dst = true) :
    parseEdgeIndexEdge (edgeIndexKey partId indexId values src rank dst) = some (src, rank, dst) := by
  have dstRead := readI64_bigEndian dstFits []
  rw [append_nil] at dstRead
  simp only [edgeIndexKey, append_assoc]
  rw [parseEdgeIndexEdge, if_neg (by simp [indexPrefix]; omega), ← append_assoc, drop_left' (by simp; omega)]
  simp only [readI64_bigEndian srcFits, drop_left' (Bytes.length_bigEndian 8 _), readI64_bigEndian rankFits]
  rw [← append_assoc, drop_left' (by simp), dstRead]

end

end

end KeyUtils

/-- Encoded values decode, one encoding starts another only as the values do, and the
ids of a key are those it was built from. -/
theorem indexKeys_decode (lossy : LossyUtf8) (values : List IndexValue) (fits : ∀ value ∈ values, value.Fits) :
    IndexValue.decodeAll lossy (IndexValue.encodeAll values) = some values ∧
    (∀ others : List IndexValue, (∀ value ∈ others, value.Fits) →
      IndexValue.encodeAll values <+: IndexValue.encodeAll others → values <+: others) ∧
    (∀ partId indexId vid, fitsI64 vid = true →
      KeyUtils.parseTagIndexVid (KeyUtils.tagIndexKey partId indexId values vid) = some vid) ∧
    ∀ partId indexId src rank dst, fitsI64 src = true → fitsI64 rank = true → fitsI64 dst = true →
      KeyUtils.parseEdgeIndexEdge (KeyUtils.edgeIndexKey partId indexId values src rank dst) = some (src, rank, dst) :=
  ⟨IndexValue.decodeAll_go lossy fits (IndexValue.length_le_encodeAll values),
    fun _ othersFit => IndexValue.isPrefix_of_encodeAll lossy fits othersFit,
    fun partId indexId _ => KeyUtils.parseTagIndexVid_tagIndexKey partId indexId values,
    fun partId indexId _ _ _ => KeyUtils.parseEdgeIndexEdge_edgeIndexKey partId indexId values⟩

/-- A decoder that gives up on other bytes. -/
def strictUtf8 : LossyUtf8 where
  text bytes := (String.fromUTF8? ⟨bytes.toArray⟩).getD ""
  exact original := by
    have valid := original.isValidUTF8
    simp [utf8, String.fromUTF8?, valid]
    rfl

theorem indexKeys_decode_mixed :
    IndexValue.decodeAll strictUtf8 (IndexValue.encodeAll [.string "a", .null, .int (-1)]) =
      some [.string "a", .null, .int (-1)] :=
  (indexKeys_decode strictUtf8 [.string "a", .null, .int (-1)] (by
    simp only [mem_cons, not_mem_nil, or_false, forall_eq_or_imp, forall_eq, IndexValue.Fits]
    decide +kernel)).1

namespace IndexValue

/-- A float without its sign, in units of the least positive one. -/
def magnitude (word : Nat) : Nat :=
  if word < 4503599627370496 then word
  else (4503599627370496 + word % 4503599627370496) * 2 ^ (word / 4503599627370496 - 1)

/-- The number a finite bit pattern stands for, in the same units. -/
def floatNumber (bits : UInt64) : Int :=
  if bits.toNat < 9223372036854775808 then magnitude bits.toNat else -magnitude (bits.toNat - 9223372036854775808)

def FiniteFloat (bits : UInt64) : Prop := bits.toNat % 9223372036854775808 < 9218868437227405312

/-- Values of one kind, as the code can hold them. -/
def SameKind : IndexValue → IndexValue → Prop
  | .null, .null => True
  | .bool _, .bool _ => True
  | .int left, .int right => fitsI64 left = true ∧ fitsI64 right = true
  | .float left, .float right => FiniteFloat left ∧ FiniteFloat right
  | .string _, .string _ => True
  | _, _ => False

/-- The order of the values; texts compare as their bytes do. -/
def compareValues : IndexValue → IndexValue → Ordering
  | .bool left, .bool right => compare left right
  | .int left, .int right => compare left right
  | .float left, .float right => compare (floatNumber left) (floatNumber right)
  | .string left, .string right => compare (utf8 left) (utf8 right)
  | _, _ => .eq

def held (text : String) : Bytes := (utf8 text).take 255

/-- The pairs whose encodings sort as they do: not the two zeros, and of two texts
the shorter one must be the smaller and no difference may lie behind byte 255. -/
def Sortable : IndexValue → IndexValue → Prop
  | .float left, .float right => floatNumber left = 0 → floatNumber right = 0 → left = right
  | .string left, .string right =>
    ((held left).length ≠ (held right).length →
      compare (utf8 left) (utf8 right) = compare (held left).length (held right).length) ∧
      (held left = held right → utf8 left = utf8 right)
  | _, _ => True

theorem magnitude_strictMono : StrictMono magnitude := by
  apply strictMono_nat_of_lt_succ
  intro word
  rcases Nat.lt_or_ge word 4503599627370496 with tiny | normal
  · rw [magnitude, if_pos tiny, magnitude]
    split
    · exact Nat.lt_succ_self word
    · have least : word + 1 = 4503599627370496 := by omega
      rw [least]
      simpa using tiny
  · obtain ⟨power, exponent⟩ : ∃ power, word / 4503599627370496 = power + 1 := ⟨word / 4503599627370496 - 1, by omega⟩
    rw [magnitude, magnitude, if_neg (by omega), if_neg (by omega), exponent]
    rcases Nat.lt_or_ge (word % 4503599627370496 + 1) 4503599627370496 with within | carry
    · have sameExponent : (word + 1) / 4503599627370496 = power + 1 := by omega
      rw [sameExponent]
      exact Nat.mul_lt_mul_of_pos_right (by omega) (Nat.two_pow_pos _)
    · have nextExponent : (word + 1) / 4503599627370496 = power + 1 + 1 := by omega
      have cleared : (word + 1) % 4503599627370496 = 0 := by omega
      have positive := Nat.two_pow_pos power
      rw [nextExponent, cleared, Nat.add_sub_cancel, Nat.add_sub_cancel, Nat.pow_succ]
      calc (4503599627370496 + word % 4503599627370496) * 2 ^ power
          < 9007199254740992 * 2 ^ power := Nat.mul_lt_mul_of_pos_right (by omega) positive
        _ = (4503599627370496 + 0) * (2 ^ power * 2) := by ring

theorem magnitude_lt_iff : magnitude left < magnitude right ↔ left < right := magnitude_strictMono.lt_iff_lt

theorem compare_orderedBits (left right : UInt64) :
    compare (orderedBits left) (orderedBits right) = compare (floatNumber left) (floatNumber right) ↔
      (floatNumber left = 0 → floatNumber right = 0 → left = right) := by
  have less := fun first second : Nat => @magnitude_lt_iff first second
  have leftSmall := left.toNat_lt
  have rightSmall := right.toNat_lt
  have same : left = right ↔ left.toNat = right.toNat := UInt64.toNat_inj.symm
  rw [orderedBits_eq, orderedBits_eq, floatNumber, floatNumber, same]
  split <;> split
  · have one := less left.toNat right.toNat
    have other := less right.toNat left.toNat
    refine iff_of_true (Bytes.compare_congr (by omega) (by omega)) (by omega)
  · have above : compare (left.toNat + 9223372036854775808) (18446744073709551615 - right.toNat) = .gt :=
      Std.compare_eq_gt.mpr (by omega)
    rw [above, eq_comm, Std.compare_eq_gt]
    omega
  · have below : compare (18446744073709551615 - left.toNat) (right.toNat + 9223372036854775808) = .lt :=
      Std.compare_eq_lt.mpr (by omega)
    rw [below, eq_comm, Std.compare_eq_lt]
    omega
  · have one := less (left.toNat - 9223372036854775808) (right.toNat - 9223372036854775808)
    have other := less (right.toNat - 9223372036854775808) (left.toNat - 9223372036854775808)
    refine iff_of_true (Bytes.compare_congr (by omega) (by omega)) (by omega)

theorem compare_held : compare (encode (.string left)) (encode (.string right)) =
      (compare (held left).length (held right).length).then (compare (held left) (held right)) := by
  have short : ∀ text, (held text).length < 256 := fun text => Nat.lt_succ_of_le (length_take_le 255 (utf8 text))
  have encoded : ∀ text, encode (.string text) = 4 :: UInt8.ofNat (held text).length :: held text := fun _ => rfl
  rw [encoded, encoded, Bytes.compare_cons, Bytes.compare_cons, Bytes.compare_byte (.ofNat _), Bytes.toNat_digit (short left),
    Bytes.toNat_digit (short right)]
  rfl

theorem compare_strings (left right : String) :
    compare (encode (.string left)) (encode (.string right)) = compare (utf8 left) (utf8 right) ↔
      Sortable (.string left) (.string right) := by
  have split : ∀ text, held text ++ (utf8 text).drop 255 = utf8 text := fun text => take_append_drop 255 (utf8 text)
  rw [compare_held, Sortable]
  by_cases lengths : (held left).length = (held right).length
  · have parts := Bytes.compare_append_of_length lengths ((utf8 left).drop 255) ((utf8 right).drop 255)
    rw [split, split] at parts
    rw [Std.compare_eq_iff_eq.mpr lengths, Ordering.eq_then]
    by_cases texts : held left = held right
    · simp only [texts, ne_eq, not_true_eq_false, false_implies, true_and, forall_const]
      rw [Std.compare_eq_iff_eq.mpr rfl, eq_comm, Std.compare_eq_iff_eq]
    · have decided : compare (held left) (held right) ≠ .eq := mt Std.compare_eq_iff_eq.mp texts
      refine iff_of_true ?_ ⟨fun differ => absurd lengths differ, fun equal => absurd equal texts⟩
      rw [parts]
      cases order : compare (held left) (held right) with
      | eq => exact absurd order decided
      | lt | gt => rfl
  · have texts : held left ≠ held right := fun equal => lengths (congrArg List.length equal)
    have decided : compare (held left).length (held right).length ≠ .eq := mt Std.compare_eq_iff_eq.mp lengths
    have first : (compare (held left).length (held right).length).then (compare (held left) (held right)) =
        compare (held left).length (held right).length := by
      cases order : compare (held left).length (held right).length with
      | eq => exact absurd order decided
      | lt | gt => rfl
    rw [first]
    exact ⟨fun agrees => ⟨fun _ => agrees.symm, fun equal => absurd equal texts⟩, fun sortable => (sortable.1 lengths).symm⟩

end IndexValue

/-- Encodings sort like the values, but for texts of different length, texts with the
same first 255 bytes and the two zeros. -/
theorem compare_encode_iff {left right : IndexValue} (same : left.SameKind right) :
    compare left.encode right.encode = left.compareValues right ↔ left.Sortable right := by
  cases left <;> cases right <;> try exact same.elim
  case null => exact iff_of_true rfl trivial
  case bool first second => cases first <;> cases second <;> exact iff_of_true rfl trivial
  case int first second =>
    have firstWord := IndexValue.flipSign_asU64 same.1
    have secondWord := IndexValue.flipSign_asU64 same.2
    obtain ⟨firstFits, secondFits⟩ := same
    rw [fitsI64_iff] at firstFits secondFits
    refine iff_of_true ?_ trivial
    rw [encode, encode, Bytes.compare_cons, Std.compare_eq_iff_eq.mpr rfl, Ordering.eq_then,
      Bytes.compare_bigEndian (by omega) (by omega), firstWord, secondWord]
    exact Bytes.compare_congr (by omega) (by omega)
  case float first second =>
    rw [encode, encode, Bytes.compare_cons, Std.compare_eq_iff_eq.mpr rfl, Ordering.eq_then,
      Bytes.compare_bigEndian (IndexValue.orderedBits_lt first) (IndexValue.orderedBits_lt second)]
    exact IndexValue.compare_orderedBits first second
  case string first second => exact IndexValue.compare_strings first second

/-- Texts whose order is that of their lengths, and the numbers -1.5 and 2. -/
theorem compare_encode_iff_mixed :
    compare (encode (.string "ann")) (encode (.string "bobby")) =
        IndexValue.compareValues (.string "ann") (.string "bobby") ∧
      compare (encode (.float 13832806255468478464)) (encode (.float 4611686018427387904)) =
        IndexValue.compareValues (.float 13832806255468478464) (.float 4611686018427387904) := by
  constructor
  · refine (@compare_encode_iff (.string "ann") (.string "bobby") trivial).mpr ⟨fun _ => ?_, fun same => ?_⟩
    · decide +kernel
    · exact absurd same (by decide +kernel)
  · refine (@compare_encode_iff (.float 13832806255468478464) (.float 4611686018427387904) ⟨?_, ?_⟩).mpr fun zero => ?_
    · simp [IndexValue.FiniteFloat]
    · simp [IndexValue.FiniteFloat]
    · exact absurd zero (by decide +kernel)

/-- A longer text can be the smaller one, and the two zeros are equal. -/
theorem encode_disorders : (compare (encode (.string "b")) (encode (.string "aa")) = .lt ∧
      IndexValue.compareValues (.string "b") (.string "aa") = .gt) ∧
    compare (encode (.float 0)) (encode (.float 9223372036854775808)) = .gt ∧
      IndexValue.compareValues (.float 0) (.float 9223372036854775808) = .eq := by
  decide +kernel

end ByoriDB.Executor
