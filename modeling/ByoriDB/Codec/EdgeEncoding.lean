import ByoriDB.Codec.EdgeVid

/-! An encoded edge is a sequence of protobuf fields in any order, without the default values. -/

namespace ByoriDB.Codec

open List Data

def encodeVarint (n : Nat) : Bytes :=
  if n < 128 then [n.toUInt8] else (n % 128 + 128).toUInt8 :: encodeVarint (n / 128)

inductive Payload where
  | varint (value : UInt64)
  | delimited (content : Bytes)

structure Field where
  number : Nat
  payload : Payload

def Field.encode (field : Field) : Bytes :=
  match field.payload with
  | .varint value => encodeVarint (field.number * 8) ++ encodeVarint value.toNat
  | .delimited content => encodeVarint (field.number * 8 + 2) ++ encodeVarint content.length ++ content

structure EdgeData (α : Type) where
  srcVid : Int64
  dstVid : Int64
  edgeType : String
  ranking : Int64
  properties : List (String × α)

def intField (number : Nat) (value : Int64) : List Field :=
  if value = 0 then [] else [⟨number, .varint value.toUInt64⟩]

/-- `entry` is the encoding of one property, its nested values included. -/
def EdgeData.fields (entry : String × α → Bytes) (edge : EdgeData α) : List Field :=
  intField 1 edge.srcVid ++ intField 2 edge.dstVid ++
    (if edge.edgeType = "" then [] else [⟨3, .delimited edge.edgeType.toByteArray.toList⟩]) ++ intField 4 edge.ranking ++
    edge.properties.map fun property => ⟨5, .delimited (entry property)⟩

/-- The values of an integer field, in the order of the bytes. -/
def intValues (fields : List Field) (number : Nat) : List Int64 :=
  fields.filterMap fun field => match field.payload with
    | .varint value => if field.number = number then some (.ofNat value.toNat) else none
    | .delimited _ => none

/-- The full decoder keeps the last value of a field and starts from the default. -/
def decodeInt (fields : List Field) (number : Nat) : Int64 := (intValues fields number).getLast?.getD 0

variable {data rest : Bytes} {fields : List Field}

theorem length_encodeVarint (small : n < 128 ^ (k + 1)) : (encodeVarint n).length ≤ k + 1 := by
  induction k generalizing n with
  | zero =>
    rw [encodeVarint, if_pos (by simpa using small)]
    simp
  | succ k ih =>
    rw [encodeVarint]
    split
    · simp
    · have := ih (n := n / 128) (by rw [Nat.pow_succ] at small; omega)
      simpa using this

theorem readVarintLoop_encode (low : result < 2 ^ shift) (fits : n * 2 ^ shift < 2 ^ 64) :
    readVarintLoop result shift i (encodeVarint n ++ rest) = some (n * 2 ^ shift + result, i + (encodeVarint n).length) := by
  induction n using Nat.strongRecOn generalizing result shift i with
  | ind n ih =>
    have place : ∀ digit, digit * 2 ^ shift < 2 ^ 64 → result ||| digit <<< shift % 2 ^ 64 = digit * 2 ^ shift + result := by
      intro digit below
      rw [Nat.shiftLeft_eq, Nat.mod_eq_of_lt below, Nat.or_comm, Nat.mul_comm]
      exact (Nat.two_pow_add_eq_or_of_lt low digit).symm
    rw [encodeVarint]
    split
    · next last =>
      have byte : n.toUInt8.toNat = n := by simp; omega
      rw [cons_append, readVarintLoop, byte, if_pos last, Nat.mod_eq_of_lt last, place n fits]
      rfl
    · next more =>
      have byte : (n % 128 + 128).toUInt8.toNat = n % 128 + 128 := by simp; omega
      have digit : n % 128 * 2 ^ shift < 2 ^ 64 := Nat.lt_of_le_of_lt (Nat.mul_le_mul_right _ (Nat.mod_le ..)) fits
      have whole : n * 2 ^ shift = n / 128 * 2 ^ (shift + 7) + n % 128 * 2 ^ shift := by
        rw [Nat.pow_add]
        conv => lhs; rw [← Nat.div_add_mod n 128]
        ring
      have below : n % 128 * 2 ^ shift + result < 2 ^ (shift + 7) := by
        have := Nat.mul_le_mul_right (2 ^ shift) (show n % 128 ≤ 127 by omega)
        rw [Nat.pow_add]
        omega
      rw [cons_append, readVarintLoop, byte, if_neg (by omega), Nat.add_mod_right, Nat.mod_mod, place _ digit,
        ih _ (by omega) below (by omega), whole, length_cons]
      simp only [Option.some.injEq, Prod.mk.injEq]
      omega

theorem readVarint_encode (small : n < 2 ^ 64) :
    readVarint (encodeVarint n ++ rest) = some (n, (encodeVarint n).length) := by
  have short := length_encodeVarint (n := n) (k := 9) (by omega)
  rw [readVarint, take_append, take_of_length_le short, readVarintLoop_encode (by decide) (by simpa using small)]
  simp

theorem readAt_encode (unread : data.drop pos = encodeVarint n ++ rest) (inside : pos ≤ data.length)
    (small : n < 2 ^ 64) : (∀ use, readAt data pos use = use (some (n, (encodeVarint n).length))) ∧
      data.drop (pos + (encodeVarint n).length) = rest ∧
      pos + (encodeVarint n).length ≤ data.length := by
  have lengths := congrArg length unread
  rw [length_drop, length_append] at lengths
  refine ⟨fun use => ?_, ?_, by omega⟩
  · rw [readAt, if_pos inside, unread, readVarint_encode small]
  · rw [← drop_drop, unread, drop_left]

theorem Field.encode_pos (field : Field) : 0 < field.encode.length := by
  have tagged : ∀ n, 0 < (encodeVarint n).length := by
    intro n
    rw [encodeVarint]
    split <;> simp
  rw [Field.encode]
  split <;> simp [tagged]

theorem scanField_encode (unread : data.drop pos = field.encode ++ rest) (inside : pos ≤ data.length)
    (short : data.length < 2 ^ 63) (small : field.number < 2 ^ 32) :
    scanField data number pos = match intValues [field] number with
      | [] => .next (pos + field.encode.length)
      | value :: _ => .done (.ok value) := by
  obtain ⟨fieldNumber, payload⟩ := field
  cases payload with
  | varint value =>
    simp only [Field.encode, append_assoc] at unread small ⊢
    obtain ⟨tag, unread, inside⟩ := readAt_encode unread inside (by omega)
    obtain ⟨read, -, -⟩ := readAt_encode unread inside value.toNat_lt
    rw [scanField, tag]
    by_cases wanted : number = fieldNumber
    · subst wanted
      simp [read, intValues]
    · simp [read, intValues, Ne.symm wanted, Nat.add_assoc]
  | delimited content =>
    simp only [Field.encode, append_assoc] at unread small ⊢
    have lengths := congrArg length unread
    simp only [length_drop, length_append] at lengths
    obtain ⟨tag, unread, inside⟩ := readAt_encode unread inside (by omega)
    obtain ⟨read, -, -⟩ := readAt_encode unread inside (by omega)
    rw [scanField, tag]
    simp [read, intValues, Nat.add_assoc]

theorem decodeEdgeVidProto_fields (short : data.length < 2 ^ 63) (unread : data.drop pos = fields.flatMap Field.encode)
    (inside : pos ≤ data.length) (small : ∀ field ∈ fields, field.number < 2 ^ 32) (enough : fields.length < fuel) :
    decodeEdgeVidProto data number fuel pos = some (.ok ((intValues fields number).head?.getD 0)) := by
  induction fields generalizing pos fuel with
  | nil =>
    obtain ⟨fuel, rfl⟩ := Nat.exists_eq_succ_of_ne_zero (Nat.ne_zero_of_lt enough)
    rw [decodeEdgeVidProto, if_neg (by simpa using unread)]
    rfl
  | cons field fields ih =>
    obtain ⟨fuel, rfl⟩ := Nat.exists_eq_succ_of_ne_zero (Nat.ne_zero_of_lt enough)
    rw [flatMap_cons] at unread
    have lengths := congrArg length unread
    rw [length_drop, length_append] at lengths
    have split : intValues (field :: fields) number = intValues [field] number ++ intValues fields number :=
      filterMap_append (l := [field])
    have nonempty := field.encode_pos
    rw [decodeEdgeVidProto, if_pos (by omega), scanField_encode unread inside short (small field mem_cons_self), split]
    cases intValues [field] number with
    | nil =>
      have later : data.drop (pos + field.encode.length) = fields.flatMap Field.encode := by rw [← drop_drop, unread, drop_left]
      rw [length_cons] at enough
      dsimp only
      rw [Nat.mod_eq_of_lt (by omega), ih later (by omega)
        (fun field mem => small field (mem_cons_of_mem _ mem)) (by omega), nil_append]
    | cons value values => rfl

theorem number_small (edge : EdgeData α) : ∀ field ∈ edge.fields entry, field.number < 2 ^ 32 := by
  simp only [EdgeData.fields, intField, mem_append, mem_map]
  grind

theorem intValues_intField : intValues (intField k value) number = if k = number ∧ value ≠ 0 then [value] else [] := by
  have back : Int64.ofNat value.toUInt64.toNat = value := congrArg Int64.ofUInt64 (UInt64.ofNat_toNat)
  by_cases zero : value = 0 <;> by_cases same : k = number <;> simp [intField, intValues, zero, same, back]

theorem intValues_fields (edge : EdgeData α) : intValues (edge.fields entry) number =
    intValues (intField 1 edge.srcVid) number ++ intValues (intField 2 edge.dstVid) number ++
      intValues (intField 4 edge.ranking) number := by
  by_cases named : edge.edgeType = "" <;> simp [EdgeData.fields, intValues, named]

theorem decodeEdgeVid_encoded {edge : EdgeData α} (order : fields ~ edge.fields entry)
    (short : (fields.flatMap Field.encode).length < 2 ^ 63) (enough : fields.length < fuel)
    (single : intValues (edge.fields entry) number = if value = 0 then [] else [value]) :
    decodeEdgeVid json name number fuel (0xCA :: fields.flatMap Field.encode) = some (.ok (decodeInt fields number)) ∧
      decodeInt fields number = value := by
  have same : intValues fields number ~ if value = 0 then [] else [value] := single ▸ order.filterMap _
  have exactly : intValues fields number = if value = 0 then [] else [value] := by
    split at same <;> simp_all
  rw [decodeEdgeVid, if_pos rfl, decodeEdgeVidProto_fields short rfl (Nat.zero_le _)
    (fun field mem => number_small edge field (order.mem_iff.mp mem)) enough, decodeInt, exactly]
  split <;> simp_all

/-- The fast decoders read the ids of an encoded edge, in whatever order its fields stand. -/
theorem decodeEdge_encoded {edge : EdgeData α} (order : fields ~ edge.fields entry)
    (short : (fields.flatMap Field.encode).length < 2 ^ 63) (enough : fields.length < fuel) :
    (decodeEdgeSrc json fuel (0xCA :: fields.flatMap Field.encode) =
      some (.ok (decodeInt fields 1)) ∧ decodeInt fields 1 = edge.srcVid) ∧
      decodeEdgeDst json fuel (0xCA :: fields.flatMap Field.encode) =
      some (.ok (decodeInt fields 2)) ∧ decodeInt fields 2 = edge.dstVid := by
  constructor
  · refine decodeEdgeVid_encoded order short enough ?_
    by_cases zero : edge.srcVid = 0 <;> simp [intValues_fields, intValues_intField, zero]
  · refine decodeEdgeVid_encoded order short enough ?_
    by_cases zero : edge.dstVid = 0 <;> simp [intValues_fields, intValues_intField, zero]

theorem decodeEdge_encoded_swapped : decodeEdgeSrc (fun _ => .error "") 3
      (0xCA :: [⟨2, .varint 5⟩, ⟨1, .varint 7⟩].flatMap Field.encode) = some (.ok 7) := by
  have order : [⟨2, .varint 5⟩, ⟨1, .varint 7⟩] ~ EdgeData.fields (fun _ => []) (⟨7, 5, "", 0, []⟩ : EdgeData Unit) := .swap ..
  exact (decodeEdge_encoded order (by simp [Field.encode, encodeVarint]) (by decide)).1.1

end ByoriDB.Codec
