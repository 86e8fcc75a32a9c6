import Mathlib.Data.BitVec

/-!
# Visiting the bits of a mask

The loop that takes the lowest set bit of a mask and clears it, until the mask is zero, visits
the set bits in ascending order.
-/

namespace AccessPath.Library

open List

variable {w : Nat}

/-- The positions of the set bits, as the loop visits them. -/
def scanBits : Nat → BitVec w → List Nat
  | 0, _ => []
  | rounds + 1, mask =>
    if mask = 0 then [] else mask.ctz.toNat :: scanBits rounds (mask &&& (mask - 1))

variable {mask : BitVec w}

theorem toNat_eq_of_ctz (some : mask ≠ 0) :
    mask.toNat = 2 ^ (mask.ctz.toNat + 1) * (mask.toNat / 2 ^ (mask.ctz.toNat + 1)) +
      2 ^ mask.ctz.toNat := by
  have low : mask.toNat % 2 ^ (mask.ctz.toNat + 1) = 2 ^ mask.ctz.toNat := by
    apply Nat.eq_of_testBit_eq
    intro i
    rw [Nat.testBit_mod_two_pow, Nat.testBit_two_pow, BitVec.testBit_toNat]
    rcases Nat.lt_trichotomy i mask.ctz.toNat with less | rfl | _
    · rw [BitVec.getLsbD_false_of_lt_ctz less, Bool.and_false]
      exact (decide_eq_false (by omega)).symm
    · rw [BitVec.getLsbD_true_ctz_of_ne_zero some]
      simp
    · rw [decide_eq_false (by omega), Bool.false_and]
      exact (decide_eq_false (by omega)).symm
  conv_lhs => rw [← Nat.div_add_mod mask.toNat (2 ^ (mask.ctz.toNat + 1)), low]

theorem toNat_sub_one (pos : 1 ≤ mask.toNat) : (mask - 1).toNat = mask.toNat - 1 := by
  cases w with
  | zero =>
    have := mask.isLt
    omega
  | succ w =>
    have one : (1 : BitVec (w + 1)).toNat = 1 := BitVec.toNat_one (Nat.succ_pos w)
    rw [BitVec.toNat_sub_of_le, one]
    rw [BitVec.le_def, one]
    exact pos

theorem getLsbD_clearLowest (some : mask ≠ 0) (i : Nat) :
    (mask &&& (mask - 1)).getLsbD i = (mask.getLsbD i && i != mask.ctz.toNat) := by
  have split := toNat_eq_of_ctz some
  generalize mask.ctz.toNat = k at split ⊢
  generalize mask.toNat / 2 ^ (k + 1) = hi at split
  have lo : 2 ^ k < 2 ^ (k + 1) := Nat.pow_lt_pow_right Nat.one_lt_two (Nat.lt_succ_self k)
  have less : (mask - 1).toNat = 2 ^ (k + 1) * hi + (2 ^ k - 1) := by
    rw [toNat_sub_one (by omega), split]
    omega
  rw [BitVec.getLsbD_and, ← BitVec.testBit_toNat, ← BitVec.testBit_toNat, less, split,
    Nat.testBit_two_pow_mul_add _ lo, Nat.testBit_two_pow_mul_add _ (by omega),
    Nat.testBit_two_pow, Nat.testBit_two_pow_sub_one]
  split_ifs with low
  · rcases Nat.lt_or_ge i k with hsm | _
    · simp [hsm.ne']
    · obtain rfl : i = k := by omega
      simp
  · have other : (i != k) = true := by
      rw [bne_iff_ne]
      omega
    rw [Bool.and_self, other, Bool.and_true]

theorem filter_getLsbD (some : mask ≠ 0) : (List.range w).filter mask.getLsbD =
      mask.ctz.toNat :: (List.range w).filter (mask &&& (mask - 1)).getLsbD := by
  have set := BitVec.getLsbD_true_ctz_of_ne_zero some
  have lt : mask.ctz.toNat < w := BitVec.lt_of_getLsbD set
  have clear := fun i => @getLsbD_clearLowest w mask some i
  obtain ⟨hi, width⟩ := Nat.exists_eq_add_of_lt lt
  have range : List.range w = List.range mask.ctz.toNat ++
      mask.ctz.toNat :: (List.range hi).map (mask.ctz.toNat + 1 + ·) := by
    conv_lhs => rw [width, Nat.add_right_comm, range_add, range_succ]
    rw [append_assoc]
    rfl
  have lo : ∀ o : Nat → Bool, (∀ i < mask.ctz.toNat, o i = false) →
      (List.range mask.ctz.toNat).filter o = [] := by
    intro o none
    refine filter_eq_nil_iff.mpr fun i mem => ?_
    rw [none i (mem_range.mp mem)]
    exact Bool.false_ne_true
  rw [range, filter_append, filter_append, filter_cons, filter_cons,
    lo _ fun i less => BitVec.getLsbD_false_of_lt_ctz less,
    lo _ fun i less => by rw [clear, BitVec.getLsbD_false_of_lt_ctz less, Bool.false_and], set,
    clear, bne_self_eq_false, Bool.and_false]
  simp only [if_true, Bool.false_eq_true, if_false, nil_append, List.cons.injEq, true_and]
  refine filter_congr fun i mem => ?_
  obtain ⟨_, _, rfl⟩ := List.mem_map.mp mem
  rw [clear, (bne_iff_ne).mpr (by omega), Bool.and_true]

/-- The mask is zero after as many rounds as it has set bits. -/
theorem scanBits_eq {n : Nat} (enough : ((List.range w).filter mask.getLsbD).length ≤ n) :
    scanBits n mask = (List.range w).filter mask.getLsbD := by
  have zero : (List.range w).filter (0 : BitVec w).getLsbD = [] :=
    filter_eq_nil_iff.mpr fun i _ => by simp
  induction n generalizing mask with
  | zero => exact (eq_nil_of_length_eq_zero (Nat.le_zero.mp enough)).symm
  | succ n ih =>
    rw [scanBits]
    split_ifs with emp
    · rw [emp, zero]
    · rw [filter_getLsbD emp] at enough ⊢
      rw [ih (Nat.le_of_succ_le_succ enough)]

theorem scanBits_width (mask : BitVec w) :
    scanBits w mask = (List.range w).filter mask.getLsbD := by
  apply scanBits_eq
  exact (length_filter_le _ _).trans (length_range).le

/-- A mask to which a loop over the positions adds bits. -/
def bitsOf (set : Nat → Bool) : Nat → BitVec w
  | 0 => 0
  | count + 1 =>
    if set count then bitsOf set count ||| BitVec.twoPow w count else bitsOf set count

theorem getLsbD_bitsOf (set : Nat → Bool) (n i : Nat) : (bitsOf set n : BitVec w).getLsbD i =
      (decide (i < w) && (decide (i < n) && set i)) := by
  induction n with
  | zero => simp [bitsOf]
  | succ n ih =>
    have old : decide (i < n + 1) = (decide (i < n) || decide (n = i)) := by
      rw [← Bool.decide_or, decide_eq_decide]
      omega
    rw [bitsOf, old]
    split_ifs with added
    · rw [BitVec.getLsbD_or, ih, BitVec.getLsbD_twoPow]
      rcases eq_or_ne n i with rfl | ne
      · simp [added]
      · simp [ne]
    · rw [ih]
      rcases eq_or_ne n i with rfl | ne
      · simp [added]
      · simp [ne]

/-- A mask of which some of the visited bits are cleared. -/
def clearUnless (keep : Nat → Bool) (mask : BitVec w) (positions : List Nat) : BitVec w :=
  positions.foldl (fun mask i => if keep i then mask else mask &&& ~~~(BitVec.twoPow w i)) mask

theorem getLsbD_clearBit (mask : BitVec w) (i j : Nat) :
    (mask &&& ~~~(BitVec.twoPow w j)).getLsbD i = (mask.getLsbD i && i != j) := by
  rw [BitVec.getLsbD_and, BitVec.getLsbD_not, BitVec.getLsbD_twoPow]
  rcases Nat.lt_or_ge i w with fit | out
  · rcases eq_or_ne i j with rfl | ne
    · rw [decide_eq_true fit, decide_eq_true rfl, bne_self_eq_false]
      rfl
    · rw [decide_eq_false ne.symm, Bool.and_false, bne_iff_ne.mpr ne, decide_eq_true fit]
      rfl
  · rw [BitVec.getLsbD_of_ge mask i out, Bool.false_and, Bool.false_and]

theorem getLsbD_clearUnless (keep : Nat → Bool) (mask : BitVec w) (positions : List Nat) (i : Nat) :
    (clearUnless keep mask positions).getLsbD i =
      (mask.getLsbD i && (keep i || !positions.contains i)) := by
  induction positions generalizing mask with
  | nil =>
    rw [contains_nil, Bool.not_false, Bool.or_true, Bool.and_true]
    rfl
  | cons j positions ih =>
    have step : clearUnless keep mask (j :: positions) =
        clearUnless keep (if keep j then mask else mask &&& ~~~(BitVec.twoPow w j)) positions :=
      rfl
    rw [step, ih, contains_cons, Bool.not_or]
    rcases eq_or_ne i j with rfl | ne
    · cases kept : keep i with
      | true => rw [if_pos rfl, Bool.true_or, Bool.true_or]
      | false =>
        rw [if_neg Bool.false_ne_true, getLsbD_clearBit, bne_self_eq_false, beq_self_eq_true]
        simp
    · rw [beq_eq_false_iff_ne.mpr ne, Bool.not_false, Bool.true_and]
      split_ifs
      · rfl
      · rw [getLsbD_clearBit, bne_iff_ne.mpr ne, Bool.and_true]

/-- The loop over the set bits that clears those which are not kept. -/
theorem getLsbD_clearUnless_scanBits (keep : Nat → Bool) (mask : BitVec w) (i : Nat) :
    (clearUnless keep mask (scanBits w mask)).getLsbD i = (mask.getLsbD i && keep i) := by
  rw [getLsbD_clearUnless, scanBits_width]
  cases set : mask.getLsbD i with
  | false => rw [Bool.false_and, Bool.false_and]
  | true =>
    have visited : ((List.range w).filter mask.getLsbD).contains i = true := by
      rw [contains_iff_mem, mem_filter]
      exact ⟨mem_range.mpr (BitVec.lt_of_getLsbD set), set⟩
    rw [visited, Bool.not_true, Bool.or_false]

/-- A loop that clears a bit for every position of a range that is not to be kept, on anything that
has bits. -/
theorem foldl_clear {β : Type} {bit : β → Nat → Bool} {clear : β → Nat → β}
    (bit_clear : ∀ b i j, bit (clear b i) j = (bit b j && j != i)) (keep : Nat → Bool)
    (fst n : Nat) (b : β) (j : Nat) :
    bit ((List.range n).foldl (fun b i => if !keep i then clear b (fst + i) else b) b) j =
      (bit b j && (decide (j < fst ∨ fst + n ≤ j) || keep (j - fst))) := by
  induction n with
  | zero =>
    rw [decide_eq_true (by omega), Bool.true_or, Bool.and_true]
    rfl
  | succ n ih =>
    have upTo : decide (j < fst ∨ fst + (n + 1) ≤ j) =
        (decide (j < fst ∨ fst + n ≤ j) && j != fst + n) := by
      rw [Bool.eq_iff_iff]
      simp only [decide_eq_true_eq, Bool.and_eq_true, bne_iff_ne]
      omega
    rw [List.range_succ, List.foldl_append, List.foldl_cons, List.foldl_nil, upTo]
    split_ifs with cleared
    · rw [bit_clear, ih]
      rcases eq_or_ne j (fst + n) with rfl | ne
      · simp only [Bool.not_eq_true'] at cleared
        rw [Nat.add_sub_cancel_left, bne_self_eq_false, cleared, Bool.and_false, Bool.and_false,
          Bool.or_false, Bool.and_false]
      · rw [bne_iff_ne.mpr ne, Bool.and_true, Bool.and_true]
    · rw [ih]
      rcases eq_or_ne j (fst + n) with rfl | ne
      · simp only [Bool.not_eq_true', Bool.not_eq_false] at cleared
        rw [Nat.add_sub_cancel_left, cleared, Bool.or_true, Bool.or_true]
      · rw [bne_iff_ne.mpr ne, Bool.and_true]

end AccessPath.Library
