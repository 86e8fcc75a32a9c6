import AccessPath.Library.OrderedEncoding

/-!
# Numbers in bytes

The number that a string of bytes is in base 256, the first byte being the highest one. Strings of
one length are ordered as their numbers.
-/

namespace AccessPath.Library

open List

/-- The number whose digits in base 256 are the bytes. -/
def byteNumber (bytes : List UInt8) : Nat := bytes.foldl (fun n b => n * 256 + b.toNat) 0

variable (bs : List UInt8)

theorem byteNumber_append_singleton (b : UInt8) :
    byteNumber (bs ++ [b]) = byteNumber bs * 256 + b.toNat := by
  rw [byteNumber, foldl_append]
  rfl

theorem byteNumber_append (high low : List UInt8) :
    byteNumber (high ++ low) = byteNumber high * 256 ^ low.length + byteNumber low := by
  induction low using List.reverseRecOn with
  | nil => simp [byteNumber]
  | append_singleton low b ih =>
    rw [← append_assoc, byteNumber_append_singleton, byteNumber_append_singleton, ih,
      length_append, length_singleton, pow_succ]
    ring

theorem byteNumber_cons (b : UInt8) (bs : List UInt8) :
    byteNumber (b :: bs) = b.toNat * 256 ^ bs.length + byteNumber bs := by
  have singleton : byteNumber [b] = b.toNat := Nat.zero_add _
  rw [← singleton_append, byteNumber_append, singleton]

theorem byteNumber_lt : byteNumber bs < 256 ^ bs.length := by
  induction bs using List.reverseRecOn with
  | nil => exact Nat.one_pos
  | append_singleton bs b ih =>
    have digit := b.toNat_lt
    rw [byteNumber_append_singleton, length_append, length_singleton, pow_succ]
    omega

theorem bigEndian_byteNumber :
    bigEndian bs.length (byteNumber bs) = bs := by
  induction bs using List.reverseRecOn with
  | nil => rfl
  | append_singleton bs b ih =>
    have digit := b.toNat_lt
    have high : (byteNumber bs * 256 + b.toNat) / 256 = byteNumber bs := by omega
    have low : UInt8.ofNat (byteNumber bs * 256 + b.toNat) = b := by
      apply UInt8.toNat_inj.mp
      rw [UInt8.toNat_ofNat']
      omega
    rw [byteNumber_append_singleton, length_append, length_singleton, bigEndian_succ, high, low, ih]

section

variable {xs ys : List UInt8} (same : xs.length = ys.length)

include same

theorem byteNumber_inj (eq : byteNumber xs = byteNumber ys) : xs = ys := by
  rw [← bigEndian_byteNumber xs, ← bigEndian_byteNumber ys, same, eq]

theorem lt_of_byteNumber_lt (less : byteNumber xs < byteNumber ys) : xs < ys := by
  rw [← bigEndian_byteNumber xs, ← bigEndian_byteNumber ys, same]
  exact (below_bigEndian less (byteNumber_lt ys)).lt

theorem byteNumber_lt_iff : byteNumber xs < byteNumber ys ↔ xs < ys := by
  refine ⟨lt_of_byteNumber_lt same, fun less => ?_⟩
  rcases Nat.lt_trichotomy (byteNumber xs) (byteNumber ys) with less' | heq | greater
  · exact less'
  · exact absurd less (byteNumber_inj same heq ▸ lt_irrefl _)
  · exact absurd less (lt_of_byteNumber_lt same.symm greater).not_gt

end

end AccessPath.Library
