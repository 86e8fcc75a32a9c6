import AccessPath.Library.ByteStream

/-!
# `BIT` values

The string of a `BIT` value is a header with the number of padding bits, then the bits from
the most significant one of the first byte on, the padding in front.
-/

namespace AccessPath

open List Library

/-- A `BIT` value: `data[0]` is the header, `data[1]` the byte with the padding. The length of
the string is a `uint32_t`. -/
structure BitString where
  padding : UInt8
  first : UInt8
  rest : Bytes
  padding_lt : padding.toNat < 8
  size_lt : rest.length + 2 < 2 ^ 32

namespace BitString

variable (s : BitString)

/-- The bits of a byte, by `byte & (1 << (7 - bit_idx))`. -/
def byteBits (byte : UInt8) : List Bool :=
  (range 8).map fun i => byte &&& (1 <<< (7 - UInt8.ofNat i)) != 0

/-- `Bit::ToString`, a character for each bit. -/
def text : List Bool := (byteBits s.first).drop s.padding.toNat ++ s.rest.flatMap byteBits

/-! ## Blobs -/

/-- `Bit::BlobToBit` of a blob that is not empty. For one of `2 ^ 32 - 1` bytes the length of the
new string wraps to 0: there is no `BIT` value, and the copy runs over the end of the string. -/
def blobToBit (first : UInt8) (rest : Bytes) : Option BitString :=
  if size : rest.length + 2 < 2 ^ 32 then some ⟨0, first, rest, by decide, size⟩ else none

def getFirstByte : UInt8 := s.first &&& ((1 <<< (8 - s.padding.toNat)) - 1).toUInt8

/-- `Bit::BitToBlob` into a string of its own length. -/
def bitToBlobInto (output : Bytes) : Bytes :=
  s.getFirstByte :: if 2 < output.length then s.rest.take (output.length - 1) else output.drop 1

/-- The new array is all zeros. -/
def bitToBlob : Bytes := s.bitToBlobInto (replicate (s.rest.length + 1) 0)

theorem byteBits_getFirstByte :
    byteBits s.getFirstByte =
      replicate s.padding.toNat false ++ (byteBits s.first).drop s.padding.toNat := by
  have masks : ∀ p < 8, ∀ i < 8, ((1 <<< (8 - p)) - 1).toUInt8 &&& (1 <<< (7 - UInt8.ofNat i)) =
      if i < p then (0 : UInt8) else 1 <<< (7 - UInt8.ofNat i) := by
    decide
  have lt := s.padding_lt
  refine ext_getElem ?_ fun i inside _ => ?_
  · simp [byteBits]
    omega
  · have mask := masks s.padding.toNat lt i (by simpa [byteBits] using inside)
    simp only [byteBits, getFirstByte, getElem_map, getElem_range, UInt8.and_assoc, mask,
      getElem_append, length_replicate, getElem_replicate, getElem_drop]
    split_ifs with padded
    · simp
    · rw [Nat.add_sub_cancel' (Nat.le_of_not_lt padded)]

theorem getFirstByte_unpadded (unpadded : s.padding = 0) : s.getFirstByte = s.first := by
  have mask : ((1 <<< (8 - (0 : UInt8).toNat)) - 1).toUInt8 = 255 := rfl
  rw [getFirstByte, unpadded, mask]
  exact UInt8.and_neg_one

/-- The bytes after the first are copied unless there is only one of them. -/
theorem bitToBlobInto_eq {s : BitString} {output : Bytes} (fits : output.length = s.rest.length + 1)
    (ne : s.rest.length ≠ 1) : s.bitToBlobInto output = s.getFirstByte :: s.rest := by
  rw [bitToBlobInto, fits]
  split
  · rw [Nat.add_sub_cancel, take_length]
  · have none : s.rest = [] := length_eq_zero_iff.mp (by omega)
    rw [none, drop_eq_nil_of_le (by simp [fits, none])]

/-- A second byte that is the last one stays what it was in the output. -/
theorem bitToBlobInto_two (a b : UInt8) :
    s.bitToBlobInto [a, b] = [s.getFirstByte, b] := rfl

/-- Without padding `BitToBlob` returns the data, unless a second byte is lost. -/
theorem bitToBlob_unpadded_iff (unpadded : s.padding = 0) :
    s.bitToBlob = s.first :: s.rest ↔ (s.rest.length = 1 → s.rest = [0]) := by
  rw [bitToBlob]
  by_cases two : s.rest.length = 1
  · obtain ⟨_, rest⟩ := length_eq_one_iff.mp two
    rw [two, rest]
    change s.bitToBlobInto [0, 0] = _ ↔ _
    rw [bitToBlobInto_two, s.getFirstByte_unpadded unpadded]
    simp [eq_comm]
  · rw [bitToBlobInto_eq length_replicate two, s.getFirstByte_unpadded unpadded]
    simp [two]

/-- A blob comes back as it was unless its length is `2 ^ 32 - 1`, or two with a second byte that
is not zero; every byte of the output is written, with the bits padded in front, unless there
are two of them. -/
theorem bitToBlob_padded_iff (b : UInt8) (bs : Bytes) (s : BitString) :
    ((blobToBit b bs).map bitToBlob = some (b :: bs) ↔
      bs.length + 2 < 2 ^ 32 ∧ (bs.length = 1 → bs = [0])) ∧
    ((∀ output : Bytes, output.length = s.rest.length + 1 →
      (s.bitToBlobInto output).flatMap byteBits = replicate s.padding.toNat false ++ s.text) ↔
      s.rest.length ≠ 1) := by
  refine ⟨?_, fun written two => ?_, fun ne output fits => ?_⟩
  · unfold blobToBit
    split_ifs with size
    · rw [Option.map_some, Option.some_inj, and_iff_right size]
      exact bitToBlob_unpadded_iff ⟨0, b, bs, by decide, size⟩ rfl
    · exact ⟨nofun, fun kept => absurd kept.1 size⟩
  · have clear := written [0, 0] (by simp [two])
    have set := written [0, 1] (by simp [two])
    have same := clear.trans set.symm
    rw [bitToBlobInto_two, bitToBlobInto_two, flatMap_cons, flatMap_cons] at same
    exact absurd (append_cancel_left same) (by decide)
  · rw [bitToBlobInto_eq fits ne, flatMap_cons, byteBits_getFirstByte, append_assoc, text]

/-- The second byte of two is lost. -/
theorem bitToBlob_two_bytes : (blobToBit 1 [1]).map bitToBlob = some [1, 0] := by
  decide

end BitString

end AccessPath
