import Mathlib.Tactic

/-!
# Byte streams

Fixed-width little-endian words, counted sequences and packed bits over lists
of bytes, with the law that reading what was written gives back the value and
the rest of the stream.
-/

namespace AccessPath.Library

open List

abbrev Bytes := List UInt8

/-! ## Words -/

/-- The low `width` bytes of a number, least significant first. -/
def putWord : Nat → Nat → Bytes
  | 0, _ => []
  | width + 1, n => UInt8.ofNat n :: putWord width (n / 256)

/-- Read a word of `width` bytes. -/
def getWord : Nat → Bytes → Option (Nat × Bytes)
  | 0, input => some (0, input)
  | _ + 1, [] => none
  | width + 1, byte :: input => do
    let (high, rest) ← getWord width input
    return (byte.toNat + 256 * high, rest)

@[simp] theorem length_putWord (w n : Nat) : (putWord w n).length = w := by
  induction w generalizing n with
  | zero => rfl
  | succ w ih => simp [putWord, ih]

theorem getWord_putWord_mod (w n : Nat) (xs : Bytes) :
    getWord w (putWord w n ++ xs) = some (n % 256 ^ w, xs) := by
  induction w generalizing n with
  | zero => simp [putWord, getWord, Nat.mod_one]
  | succ w ih =>
    have split : n % 256 ^ (w + 1) = n % 256 + 256 * (n / 256 % 256 ^ w) := by
      rw [pow_succ, mul_comm, Nat.mod_mul]
    simp [putWord, getWord, ih, split]

theorem getWord_putWord {w n : Nat} (fits : n < 256 ^ w) (xs : Bytes) :
    getWord w (putWord w n ++ xs) = some (n, xs) := by
  rw [getWord_putWord_mod, Nat.mod_eq_of_lt fits]

/-! ## Counted sequences -/

section

variable {α : Type*} (write : α → Bytes) (read : Bytes → Option (α × Bytes))

/-- Write the elements of a list one after the other. -/
def putMany (items : List α) : Bytes := items.flatMap write

/-- Read a given number of elements. -/
def getMany : Nat → Bytes → Option (List α × Bytes)
  | 0, input => some ([], input)
  | count + 1, input => do
    let (item, rest) ← read input
    let (items, rest) ← getMany count rest
    return (item :: items, rest)

variable {write read}

theorem getMany_putMany {items : List α}
    (readsBack : ∀ item ∈ items, ∀ xs, read (write item ++ xs) = some (item, xs))
    (xs : Bytes) :
    getMany read items.length (putMany write items ++ xs) = some (items, xs) := by
  induction items with
  | nil => rfl
  | cons item items ih =>
    have first := readsBack item (by simp) (putMany write items ++ xs)
    have hl := ih fun o mem => readsBack o (by simp [mem])
    simp only [putMany] at first hl
    simp [putMany, getMany, first, hl]

end

/-! ## Pieces of equal length -/

section

variable {α β : Type*} {piece : β → List α} {size : Nat}

theorem length_flatMap_pieces (each : ∀ item, (piece item).length = size) (xs : List β) :
    (xs.flatMap piece).length = size * xs.length := by
  induction xs with
  | nil => rfl
  | cons item xs ih =>
    rw [flatMap_cons, length_append, ih, each, length_cons, Nat.mul_succ, Nat.add_comm]

theorem drop_flatMap_pieces (each : ∀ item, (piece item).length = size) {xs : List β} {k : Nat}
    {item : β} (got : xs[k]? = some item) :
    (xs.flatMap piece).drop (size * k) = piece item ++ (xs.drop (k + 1)).flatMap piece := by
  induction xs generalizing k with
  | nil => exact nomatch got
  | cons fst xs ih =>
    cases k with
    | zero =>
      cases got
      rfl
    | succ k =>
      have length : size * (k + 1) = (piece fst).length + size * k := by
        rw [each, Nat.mul_succ, Nat.add_comm]
      rw [flatMap_cons, length, drop_length_add_append, ih got, drop_succ_cons]

end

/-! ## Packed bits -/

/-- Pack the bits `8 b, ..., 8 b + 7` of a predicate into byte `b`, for each
`b < bytes`, the lowest bit first. -/
def packBits (bit : Nat → Bool) (bytes : Nat) : Bytes :=
  (range bytes).map fun b => UInt8.ofNat (Nat.ofBits fun k : Fin 8 => bit (8 * b + k))

/-- Bit `i` of a byte string; bits past the end are zero. -/
def bitAt (input : Bytes) (i : Nat) : Bool :=
  ((input[i / 8]?).getD 0).toNat.testBit (i % 8)

@[simp] theorem length_packBits (bit : Nat → Bool) (bs : Nat) :
    (packBits bit bs).length = bs := by
  simp [packBits]

theorem bitAt_append {inp : Bytes} {i : Nat} (lt : i < 8 * inp.length) (xs : Bytes) :
    bitAt (inp ++ xs) i = bitAt inp i := by
  have hb : i / 8 < inp.length := by omega
  rw [bitAt, getElem?_append_left hb]
  rfl

theorem bitAt_packBits {bit : Nat → Bool} {bs i : Nat} (lt : i < 8 * bs) :
    bitAt (packBits bit bs) i = bit i := by
  have inRange : i / 8 < bs := by omega
  have low : i % 8 < 8 := Nat.mod_lt _ (by decide)
  have few : Nat.ofBits (fun k : Fin 8 => bit (8 * (i / 8) + k)) < 2 ^ 8 :=
    Nat.ofBits_lt_two_pow _
  have byte : (packBits bit bs)[i / 8]? =
      some (UInt8.ofNat (Nat.ofBits fun k : Fin 8 => bit (8 * (i / 8) + k))) := by
    simp [packBits, inRange]
  rw [bitAt, byte, Option.getD_some, UInt8.toNat_ofNat', Nat.mod_eq_of_lt few,
    Nat.testBit_ofBits_lt _ _ low, Nat.div_add_mod]

end AccessPath.Library
