import Mathlib.Data.Nat.Size
import AccessPath.Constants
import AccessPath.Library.ByteStream
import AccessPath.Types

/-!
# Packing integers into few bits

`BitpackingPrimitives`: values are packed in groups of 32 by vendored kernels,
of which only their law is used: unpacking what was packed gives the low bits of
each value.
-/

namespace AccessPath

open Library List Nat

/-- `BITPACKING_ALGORITHM_GROUP_SIZE`. -/
def algorithmGroupSize : Nat := 32

/-- `AlignValue` for 8 bytes. -/
def alignValue (n : Nat) : Nat := (n + 7) / 8 * 8

section

variable (t : IntegerType)

/-- What is left of a value in `width` bits. -/
def lowBits {t : IntegerType} (width : Nat) (value : t.Value) : t.Value :=
  BitVec.ofNat _ (value.toNat % 2 ^ width)

/-- `fastpack` and `fastunpack` for the integers of a type. -/
structure PackKernels where
  pack : Nat → (Nat → t.Value) → Bytes
  unpack : Nat → Bytes → Nat → t.Value
  pack_congr : ∀ width {values values' : Nat → t.Value},
    (∀ i < algorithmGroupSize, values i = values' i) → pack width values = pack width values'
  length_pack : ∀ width values, width ≤ t.bits → (pack width values).length = 4 * width
  unpack_pack : ∀ width values rest i, width ≤ t.bits → i < algorithmGroupSize →
    unpack width (pack width values ++ rest) i = lowBits width (values i)

def roundUpToAlgorithmGroupSize (count : Nat) : Nat :=
  if count % algorithmGroupSize = 0 then count
  else count + algorithmGroupSize - count % algorithmGroupSize

def getRequiredSize (count width : Nat) : Nat := roundUpToAlgorithmGroupSize count * width / 8

/-- Widths that are ineffective are not used. -/
def getEffectiveWidth (width : Nat) : Nat := if width + t.bytes > t.bits then t.bits else width

/-- `MinimumBitWidth` of one value. With `signed` there is a bit for the sign;
without, the value is not negative. -/
def minimumBitWidth (signed : Bool) (value : t.Value) : Nat :=
  if signed then
    if BitVec.toInt value = -2 ^ (t.bits - 1) then t.bits
    else if value = 0 then 0
    else getEffectiveWidth t (1 + (BitVec.toInt value).natAbs.size)
  else if value = 0 then 0
  else getEffectiveWidth t value.toNat.size

variable {t}

/-- `PackBuffer`. The last group is filled up with what the temporary buffer
happens to hold. -/
def PackKernels.packBuffer (kernels : PackKernels t) (temporary : Nat → t.Value)
    (source : Nat → t.Value) (count width : Nat) : Bytes :=
  let misaligned := count % algorithmGroupSize
  let aligned := count - misaligned
  ((range (aligned / algorithmGroupSize)).flatMap fun k =>
      kernels.pack width fun i => source (algorithmGroupSize * k + i)) ++
    if misaligned = 0 then []
    else kernels.pack width fun i => if i < misaligned then source (aligned + i) else temporary i

/-! ## Widths -/

theorem lt_two_pow_minimumBitWidth (v : t.Value) :
    v.toNat < 2 ^ minimumBitWidth t false v := by
  unfold minimumBitWidth
  rw [if_neg Bool.false_ne_true]
  split
  next zero =>
    rw [zero]
    simp
  next =>
    unfold getEffectiveWidth
    split
    · exact v.isLt
    · exact lt_size_self _

theorem minimumBitWidth_le (v : t.Value) : minimumBitWidth t false v ≤ t.bits := by
  unfold minimumBitWidth
  rw [if_neg Bool.false_ne_true]
  split
  next => exact zero_le _
  next =>
    unfold getEffectiveWidth
    split
    · exact le_refl _
    · omega

theorem lowBits_of_lt {width : Nat} {v : t.Value} (lt : v.toNat < 2 ^ width) :
    lowBits width v = v := by
  rw [lowBits, mod_eq_of_lt lt, BitVec.ofNat_toNat, BitVec.setWidth_eq]

/-! ## Packed buffers -/

theorem algorithmGroupSize_pos : 0 < algorithmGroupSize := by decide

theorem mod_roundUpToAlgorithmGroupSize (n : Nat) :
    roundUpToAlgorithmGroupSize n % algorithmGroupSize = 0 ∧
      n ≤ roundUpToAlgorithmGroupSize n := by
  unfold roundUpToAlgorithmGroupSize algorithmGroupSize
  split <;> omega

namespace PackKernels

variable (kernels : PackKernels t) (temporary source : Nat → t.Value) (count width : Nat)

/-- The group of 32 values at a position, filled up if it is the last one. -/
def packedGroup (k : Nat) : Bytes :=
  kernels.pack width fun i =>
    if algorithmGroupSize * k + i < count then source (algorithmGroupSize * k + i)
    else temporary i

theorem packBuffer_eq : kernels.packBuffer temporary source count width =
      (range (roundUpToAlgorithmGroupSize count / algorithmGroupSize)).flatMap
        (kernels.packedGroup temporary source count width) := by
  have full (k : Nat) (mem : k ∈ range (count / algorithmGroupSize)) :
      kernels.pack width (fun i => source (algorithmGroupSize * k + i)) =
        kernels.packedGroup temporary source count width k := by
    apply kernels.pack_congr
    intro i within
    have lt : algorithmGroupSize * k + i < count := by
      have := Nat.mul_lt_mul_of_lt_of_le' (mem_range.mp mem) (le_refl algorithmGroupSize)
        algorithmGroupSize_pos
      unfold algorithmGroupSize at *
      omega
    rw [if_pos lt]
  have groups : (count - count % algorithmGroupSize) / algorithmGroupSize =
      count / algorithmGroupSize := by
    rw [← div_mul_self_eq_mod_sub_self, Nat.mul_div_cancel _ algorithmGroupSize_pos]
  unfold packBuffer
  dsimp only
  rw [groups, flatMap_congr full]
  by_cases aligned : count % algorithmGroupSize = 0
  · rw [if_pos aligned, append_nil, roundUpToAlgorithmGroupSize, if_pos aligned]
  · have more : roundUpToAlgorithmGroupSize count / algorithmGroupSize =
        count / algorithmGroupSize + 1 := by
      rw [roundUpToAlgorithmGroupSize, if_neg aligned]
      unfold algorithmGroupSize at *
      omega
    rw [if_neg aligned, more, range_succ, flatMap_append, flatMap_singleton]
    congr 1
    apply kernels.pack_congr
    intro i within
    have start : count - count % algorithmGroupSize =
        algorithmGroupSize * (count / algorithmGroupSize) := by
      unfold algorithmGroupSize
      omega
    have last : i < count % algorithmGroupSize ↔
        algorithmGroupSize * (count / algorithmGroupSize) + i < count := by
      unfold algorithmGroupSize
      omega
    rw [start]
    simp only [last]

variable {temporary source count width} (fits : width ≤ t.bits)

include fits

theorem length_packBuffer :
    (kernels.packBuffer temporary source count width).length = getRequiredSize count width := by
  have each (k : Nat) : (kernels.packedGroup temporary source count width k).length = 4 * width :=
    kernels.length_pack width _ fits
  rw [packBuffer_eq, length_flatMap_pieces each, length_range, getRequiredSize]
  have aligned := (mod_roundUpToAlgorithmGroupSize count).1
  obtain ⟨k, gs⟩ := dvd_of_mod_eq_zero aligned
  rw [gs, Nat.mul_div_cancel_left k algorithmGroupSize_pos, algorithmGroupSize]
  have eight : 32 * k * width = 8 * (4 * width * k) := by ring
  rw [eight, Nat.mul_div_cancel_left _ (zero_lt_succ 7)]

theorem unpack_packBuffer {k i : Nat} (within : i < algorithmGroupSize)
    (lt : algorithmGroupSize * k + i < count) (rest : Bytes) : kernels.unpack width
        ((kernels.packBuffer temporary source count width ++ rest).drop (4 * width * k)) i =
      lowBits width (source (algorithmGroupSize * k + i)) := by
  have each (k : Nat) : (kernels.packedGroup temporary source count width k).length = 4 * width :=
    kernels.length_pack width _ fits
  have group : k < roundUpToAlgorithmGroupSize count / algorithmGroupSize := by
    obtain ⟨_, _⟩ := mod_roundUpToAlgorithmGroupSize count
    rw [lt_div_iff_mul_lt algorithmGroupSize_pos]
    unfold algorithmGroupSize at *
    omega
  have got := drop_flatMap_pieces each (getElem?_range group)
  rw [packBuffer_eq, drop_append_of_le_length, got, append_assoc, packedGroup,
    kernels.unpack_pack _ _ _ _ fits within, if_pos lt]
  rw [length_flatMap_pieces each, length_range]
  exact mul_le_mul_left _ (le_of_lt group)

end PackKernels

end

/-- Kernels that put the bits of the values one after the other. -/
def PackKernels.bitwise (t : IntegerType) : PackKernels t where
  pack width values :=
    packBits (fun j => (values (j / width)).toNat.testBit (j % width)) (4 * width)
  unpack width input i :=
    BitVec.ofNat _ (Nat.ofBits fun k : Fin width => bitAt input (width * i + k))
  pack_congr := by
    intro width values values' same
    apply map_congr_left
    intro b mem
    have bound := mem_range.mp mem
    congr 2
    funext k
    dsimp only
    rw [same]
    unfold algorithmGroupSize
    rw [Nat.div_lt_iff_lt_mul (by omega)]
    omega
  length_pack width values _ := length_packBits _ _
  unpack_pack := by
    intro width values rest i _ within
    unfold algorithmGroupSize at within
    have bit (k : Fin width) : bitAt (packBits (fun j => (values (j / width)).toNat.testBit
        (j % width)) (4 * width) ++ rest) (width * i + k) = (values i).toNat.testBit k := by
      have inside : width * i + k < 8 * (4 * width) := by nlinarith [k.isLt]
      have positive : 0 < width := zero_lt_of_lt k.isLt
      rw [bitAt_append (by rwa [length_packBits]), bitAt_packBits inside,
        mul_add_div positive, div_eq_of_lt k.isLt, Nat.add_zero, mul_add_mod,
        mod_eq_of_lt k.isLt]
    simp only [bit]
    rw [ofBits_testBit]
    rfl

end AccessPath
