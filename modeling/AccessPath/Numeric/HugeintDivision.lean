import AccessPath.Numeric.HugeintHalves

/-!
# Division of 128-bit integers by 64 bits

`DivModPositive` divides bit by bit. The remainder it shifts has 64 bits.
-/

namespace AccessPath.HugeintT

/-- The loop that shifts until no bit is left, of at most 64 steps. -/
def countBits : Nat → BitVec 64 → Nat → Nat
  | 0, _, out => out
  | n + 1, up, out => if up = 0 then out else countBits n (up >>> 1) (out + 1)

def positiveHugeintHighestBit (bits : HugeintT) : Nat :=
  if bits.upper ≠ 0 then countBits 64 bits.upper 64 else countBits 64 bits.lower 0

def positiveHugeintIsBitSet (lhs : HugeintT) (position : Nat) : Bool :=
  if position < 64 then lhs.lower &&& 1#64 <<< position != 0
  else lhs.upper &&& 1#64 <<< (position - 64) != 0

def positiveHugeintLeftShift (lhs : HugeintT) (amount : Nat) : HugeintT :=
  ⟨lhs.lower <<< amount, lhs.upper <<< amount + lhs.lower >>> (64 - amount)⟩

def increment (x : HugeintT) : HugeintT :=
  let lower := x.lower + 1
  ⟨lower, if lower = 0 then x.upper + 1 else x.upper⟩

/-- One step of the loop, on the quotient and the remainder. -/
def divModStep (lhs : HugeintT) (rhs : BitVec 64) (position : Nat) (s : HugeintT × BitVec 64) :
    HugeintT × BitVec 64 :=
  let result := positiveHugeintLeftShift s.1 1
  let remainder := s.2 <<< 1
  let remainder := if positiveHugeintIsBitSet lhs position then remainder + 1 else remainder
  if rhs ≤ remainder then (increment result, remainder - rhs) else (result, remainder)

def divModLoop (lhs : HugeintT) (rhs : BitVec 64) :
    Nat → HugeintT × BitVec 64 → HugeintT × BitVec 64
  | 0, s => s
  | x + 1, s => divModLoop lhs rhs x (divModStep lhs rhs x s)

def divModPositive (lhs : HugeintT) (rhs : BitVec 64) : HugeintT × BitVec 64 :=
  divModLoop lhs rhs (positiveHugeintHighestBit lhs) (⟨0, 0⟩, 0)

variable {lhs : HugeintT} {rhs : BitVec 64} {s : HugeintT × BitVec 64} {i : Nat}

theorem countBits_spec {n : Nat} {up : BitVec 64} (out : Nat) (h : up.toNat < 2 ^ n) :
    ∃ k ≤ n, countBits n up out = out + k ∧ up.toNat < 2 ^ k := by
  induction n generalizing up out with
  | zero => exact ⟨0, Nat.le_refl 0, rfl, h⟩
  | succ n ih =>
    unfold countBits
    split
    · next zero => exact ⟨0, Nat.zero_le _, rfl, by simp [zero]⟩
    · have half : (up >>> 1).toNat = up.toNat / 2 := by simp [Nat.shiftRight_eq_div_pow]
      obtain ⟨k, _, eq, _⟩ := @ih (up >>> 1) (out + 1) (by omega)
      exact ⟨k + 1, by omega, by rw [eq]; omega, by omega⟩

variable (x : HugeintT)

theorem highestBit_spec :
    positiveHugeintHighestBit x ≤ 128 ∧ x.bits < 2 ^ positiveHugeintHighestBit x := by
  unfold positiveHugeintHighestBit bits
  split
  · obtain ⟨k, le, eq, lt⟩ := countBits_spec 64 x.upper.isLt
    rw [eq, Nat.pow_add]
    have := x.lower.isLt
    exact ⟨by omega, by omega⟩
  · next zero =>
    obtain ⟨_, _, _, _⟩ := countBits_spec 0 x.lower.isLt
    simp_all
    omega

theorem and_shiftLeft (u : BitVec 64) (h : i < 64) :
    (u &&& 1#64 <<< i != 0) = u.toNat.testBit i := by
  rw [← BitVec.twoPow_eq, BitVec.and_twoPow, BitVec.testBit_toNat]
  split
  · next set =>
    rw [set]
    simp [← BitVec.toNat_inj, Nat.mod_eq_of_lt (Nat.pow_lt_pow_right (by decide : 1 < 2) h)]
  · next unset => simp [unset]

theorem isBitSet_eq (h : i < 128) :
    positiveHugeintIsBitSet x i = x.bits.testBit i := by
  unfold positiveHugeintIsBitSet bits
  rw [Nat.add_comm, Nat.mul_comm, Nat.testBit_two_pow_mul_add _ x.lower.isLt]
  split
  · next low => exact and_shiftLeft _ low
  · next high => exact and_shiftLeft _ (by omega)

theorem bits_leftShift :
    (positiveHugeintLeftShift x 1).bits = 2 * x.bits % 2 ^ 128 := by
  unfold positiveHugeintLeftShift bits
  have := x.lower.isLt
  simp [Nat.shiftLeft_eq, Nat.shiftRight_eq_div_pow]
  omega

theorem bits_increment : (increment x).bits = (x.bits + 1) % 2 ^ 128 := by
  unfold increment bits
  dsimp only
  split <;> bv_omega

theorem divModStep_spec (h : i < 128) (rhs : BitVec 64) (s : HugeintT × BitVec 64) :
    ∃ b < 2, lhs.bits / 2 ^ i = 2 * (lhs.bits / 2 ^ (i + 1)) + b ∧
      ∃ r, r = (2 * s.2.toNat + b) % 2 ^ 64 ∧
        if rhs.toNat ≤ r then (divModStep lhs rhs i s).1.bits = (2 * s.1.bits + 1) % 2 ^ 128 ∧
          (divModStep lhs rhs i s).2.toNat = r - rhs.toNat
        else (divModStep lhs rhs i s).1.bits = 2 * s.1.bits % 2 ^ 128 ∧
          (divModStep lhs rhs i s).2.toNat = r := by
  have shifted := bits_leftShift s.1
  have halved : lhs.bits / 2 ^ (i + 1) = lhs.bits / 2 ^ i / 2 := by
    rw [Nat.div_div_eq_div_mul, Nat.pow_succ]
  refine ⟨lhs.bits / 2 ^ i % 2, by omega, by omega, _, rfl, ?_⟩
  unfold divModStep
  rw [isBitSet_eq lhs h, Nat.testBit_eq_decide_div_mod_eq]
  have bit : (if decide (lhs.bits / 2 ^ i % 2 = 1) then s.2 <<< 1 + 1 else s.2 <<< 1).toNat =
      (2 * s.2.toNat + lhs.bits / 2 ^ i % 2) % 2 ^ 64 := by
    split <;> simp_all [Nat.shiftLeft_eq] <;> omega
  dsimp only
  generalize (if decide (lhs.bits / 2 ^ i % 2 = 1) then s.2 <<< 1 + 1 else s.2 <<< 1) = r at *
  rw [← bit]
  by_cases past : rhs ≤ r
  · rw [if_pos (BitVec.le_def.mp past), if_pos past, bits_increment, shifted]
    exact ⟨by omega, BitVec.toNat_sub_of_le past⟩
  · rw [if_neg (mt BitVec.le_def.mpr past), if_neg past]
    exact ⟨shifted, rfl⟩

theorem div_double {p q b : Nat} (h : 0 < q) (hb : b < 2) :
    if q ≤ 2 * (p % q) + b then (2 * p + b) / q = 2 * (p / q) + 1 ∧
      (2 * p + b) % q = 2 * (p % q) + b - q
    else (2 * p + b) / q = 2 * (p / q) ∧ (2 * p + b) % q = 2 * (p % q) + b := by
  have whole := Nat.div_add_mod p q
  have lt := Nat.mod_lt p h
  split
  · rw [Nat.div_mod_unique h, Nat.mul_add, Nat.mul_left_comm]
    omega
  · rw [Nat.div_mod_unique h, Nat.mul_left_comm]
    omega

/-- The quotient and remainder of the bits from `i` on. -/
def Divided (lhs : HugeintT) (rhs : BitVec 64) (i : Nat) (s : HugeintT × BitVec 64) : Prop :=
  s.1.bits = lhs.bits / 2 ^ i / rhs.toNat ∧ s.2.toNat = lhs.bits / 2 ^ i % rhs.toNat

theorem quotient_lt (lhs : HugeintT) (rhs : BitVec 64) (i : Nat) :
    lhs.bits / 2 ^ i / rhs.toNat < 2 ^ 128 :=
  Nat.lt_of_le_of_lt ((Nat.div_le_self _ _).trans (Nat.div_le_self _ _)) (bits_lt lhs)

/-- A step is right if the remainder has its top bit free, and else the quotient falls short. -/
theorem Divided.step (hi : i < 128) (hr : 0 < rhs.toNat) (h : Divided lhs rhs (i + 1) s) :
    if lhs.bits / 2 ^ (i + 1) % rhs.toNat < 2 ^ 63 then Divided lhs rhs i (divModStep lhs rhs i s)
    else (divModStep lhs rhs i s).1.bits < lhs.bits / 2 ^ i / rhs.toNat := by
  obtain ⟨b, hb, double, r, hr', step⟩ := divModStep_spec hi rhs s
  have exact := div_double hr hb (p := lhs.bits / 2 ^ (i + 1))
  have lt := quotient_lt lhs rhs i
  have below := Nat.mod_lt (lhs.bits / 2 ^ (i + 1)) hr
  have small := rhs.isLt
  unfold Divided at *
  rw [← double] at exact
  rw [h.1] at step
  rw [h.2] at hr'
  split
  · have fits : r = 2 * (lhs.bits / 2 ^ (i + 1) % rhs.toNat) + b := by omega
    rw [← fits] at exact
    split at exact <;> split at step <;> omega
  · rw [if_neg (by omega)] at step
    rw [if_pos (by omega)] at exact
    omega

theorem short_step (hi : i < 128) (hr : 0 < rhs.toNat)
    (h : s.1.bits < lhs.bits / 2 ^ (i + 1) / rhs.toNat) :
    (divModStep lhs rhs i s).1.bits < lhs.bits / 2 ^ i / rhs.toNat := by
  obtain ⟨_, hb, double, _, _, step⟩ := divModStep_spec hi rhs s
  have exact := div_double hr hb (p := lhs.bits / 2 ^ (i + 1))
  rw [← double] at exact
  split at exact <;> split at step <;> omega

theorem short_loop {n : Nat} (hn : n ≤ 128) (hr : 0 < rhs.toNat)
    (h : s.1.bits < lhs.bits / 2 ^ n / rhs.toNat) :
    (divModLoop lhs rhs n s).1.bits < lhs.bits / rhs.toNat := by
  induction n generalizing s with
  | zero => simpa [divModLoop] using h
  | succ n ih => exact ih (by omega) (short_step (by omega) hr h)

/-- The quotient is right as long as no remainder on the way has its top bit set. -/
theorem Divided.loop {n : Nat} (hn : n ≤ 128) (hr : 0 < rhs.toNat) (h : Divided lhs rhs n s) :
    if ∀ i < n, lhs.bits / 2 ^ (i + 1) % rhs.toNat < 2 ^ 63 then
      Divided lhs rhs 0 (divModLoop lhs rhs n s)
    else (divModLoop lhs rhs n s).1.bits < lhs.bits / rhs.toNat := by
  induction n generalizing s with
  | zero => simpa [divModLoop] using h
  | succ n ih =>
    have step := h.step (by omega) hr
    rw [divModLoop]
    split at step
    · next fits =>
      have := ih (by omega) step
      simp only [Nat.forall_lt_succ_right, fits, and_true]
      exact this
    · next wraps =>
      rw [if_neg fun all => wraps (all n (Nat.lt_succ_self n))]
      exact short_loop (by omega) hr step

/-- The remainder wraps when it has 64 bits before it is shifted. -/
theorem divModPositive_iff (lhs : HugeintT) (rhs : BitVec 64) (n : Nat) (h : lhs.value = n)
    (nonzero : rhs ≠ 0) :
    ((divModPositive lhs rhs).1.value = (n / rhs.toNat : Nat) ∧
      (divModPositive lhs rhs).2.toNat = n % rhs.toNat) ↔
      ∀ i, n / 2 ^ (i + 1) % rhs.toNat < 2 ^ 63 := by
  have sign := negative_iff lhs
  have := upper_neg_iff lhs
  have number := value_eq lhs
  obtain rfl : lhs.bits = n := by omega
  have hr : 0 < rhs.toNat := by bv_omega
  obtain ⟨le, lt⟩ := highestBit_spec lhs
  have start : Divided lhs rhs (positiveHugeintHighestBit lhs) (⟨0, 0⟩, 0) := by
    rw [Divided, Nat.div_eq_of_lt lt, Nat.zero_div, Nat.zero_mod]
    exact ⟨rfl, rfl⟩
  have loop := start.loop le hr
  rw [← divModPositive] at loop
  have := Nat.div_le_self lhs.bits rhs.toNat
  have sign' := negative_iff (divModPositive lhs rhs).1
  have number' := value_eq (divModPositive lhs rhs).1
  split at loop
  · next all =>
    rw [Divided, Nat.pow_zero, Nat.div_one] at loop
    refine iff_of_true ⟨by omega, loop.2⟩ fun i => ?_
    by_cases hi : i < positiveHugeintHighestBit lhs
    · exact all i hi
    · have grows := Nat.pow_le_pow_right (by decide : 0 < 2)
        (by omega : positiveHugeintHighestBit lhs ≤ i + 1)
      rw [Nat.div_eq_of_lt (lt.trans_le grows), Nat.zero_mod]
      decide
  · next wraps => exact iff_of_false (by omega) fun all => wraps fun i _ => all i

/-- The division of 123 by ten. -/
theorem divModPositive_ten : divModPositive ⟨123, 0⟩ 10 = (⟨12, 0⟩, 3) ∧
    ∀ i, 123 / 2 ^ (i + 1) % (10#64).toNat < 2 ^ 63 :=
  have exact : divModPositive ⟨123, 0⟩ 10 = (⟨12, 0⟩, 3) := by decide
  ⟨exact, (divModPositive_iff ⟨123, 0⟩ 10 123 (by decide) (by decide)).mp (by rw [exact]; decide)⟩

/-- The number `2 ^ 64` divided by `2 ^ 63 + 1` is one. -/
theorem divModPositive_wraps : value ⟨0, 1⟩ / 0x8000000000000001 = 1 ∧
    divModPositive ⟨0, 1⟩ 0x8000000000000001 = (⟨0, 0⟩, 0) := by
  decide +kernel

end AccessPath.HugeintT
