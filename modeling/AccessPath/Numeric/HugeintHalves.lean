import AccessPath.Numeric.HugeintCast
import Mathlib.Data.Nat.Bitwise

/-!
# Arithmetic of 128-bit integers

A `hugeint_t` or `uhugeint_t` is two halves of 64 bits, the upper one of a `hugeint_t` with a
sign. Their operations refine those on numbers, of which some fail.
-/

namespace AccessPath

open Option

structure HugeintT where
  lower : BitVec 64
  upper : BitVec 64
deriving DecidableEq

structure UhugeintT where
  lower : BitVec 64
  upper : BitVec 64
deriving DecidableEq

def HugeintT.value (x : HugeintT) : Int := x.upper.toInt * 2 ^ 64 + x.lower.toNat

def UhugeintT.value (x : UhugeintT) : Int := x.upper.toNat * 2 ^ 64 + x.lower.toNat

/-- The number that is left by an operation that returns true. -/
def outcome {α : Type} (value : α → Int) (answer : Bool × α) : Option Int :=
  if answer.1 then some (value answer.2) else none

theorem outcome_eq_iff {α : Type} {value : α → Int} {answer : Bool × α} {p : Prop} [Decidable p]
    {x : Int} : outcome value answer = (if p then some x else none) ↔
      (answer.1 = true ↔ p) ∧ (answer.1 = true → value answer.2 = x) := by
  unfold outcome
  split_ifs <;> simp_all

def Uhugeint.checked (x : Int) : Option Int := if 0 ≤ x ∧ x < 2 ^ 128 then some x else none

/-! ## Addition and subtraction -/

section

variable (a b : BitVec 64)

/-- What goes from the lower halves of a sum to the upper ones. -/
def carry : Nat := if a + b < a then 1 else 0

def borrow : Nat := if a < a - b then 1 else 0

theorem add_carry : (a + b).toNat + 2 ^ 64 * carry a b = a.toNat + b.toNat := by
  unfold carry
  split <;> bv_omega

theorem sub_borrow : (a - b).toNat + b.toNat = a.toNat + 2 ^ 64 * borrow a b := by
  unfold borrow
  split <;> bv_omega

theorem half_bounds : -2 ^ 63 ≤ a.toInt ∧ a.toInt < 2 ^ 63 := ⟨a.le_toInt, a.toInt_lt⟩

end

namespace UhugeintT

variable (lhs rhs : UhugeintT)

/-- `lhs` is overwritten also where false is returned. -/
def tryAddInPlace : Bool × UhugeintT :=
  let newUpper := lhs.upper + rhs.upper
  let noOverflow := !(newUpper < lhs.upper || newUpper < rhs.upper)
  let newUpper := newUpper + .ofNat 64 (carry lhs.lower rhs.lower)
  (noOverflow && !(newUpper < lhs.upper || newUpper < rhs.upper),
    ⟨lhs.lower + rhs.lower, newUpper⟩)

def trySubtractInPlace : Bool × UhugeintT :=
  let newUpper := lhs.upper - rhs.upper - .ofNat 64 (borrow lhs.lower rhs.lower)
  (!(lhs.upper < newUpper), ⟨lhs.lower - rhs.lower, newUpper⟩)

theorem outcome_tryAddInPlace :
    outcome value (tryAddInPlace lhs rhs) = Uhugeint.checked (lhs.value + rhs.value) := by
  have sum := add_carry lhs.lower rhs.lower
  have hl := lhs.upper.isLt
  have hr := rhs.upper.isLt
  rw [Uhugeint.checked, outcome_eq_iff]
  unfold tryAddInPlace value
  simp [BitVec.lt_def]
  omega

theorem outcome_trySubtractInPlace_iff :
    outcome value (trySubtractInPlace lhs rhs) = Uhugeint.checked (lhs.value - rhs.value) ↔
      ¬(rhs.upper = -1 ∧ lhs.lower < rhs.lower) := by
  have diff := sub_borrow lhs.lower rhs.lower
  have hl := lhs.upper.isLt
  have hr := rhs.upper.isLt
  rw [Uhugeint.checked, outcome_eq_iff]
  unfold trySubtractInPlace value
  simp [BitVec.lt_def, ← BitVec.toNat_inj]
  omega

end UhugeintT

namespace HugeintT

variable (lhs rhs : HugeintT)

/-- `lhs` stays as it is where false is returned. -/
def tryAddInPlace : Bool × HugeintT :=
  let overflow : Int := carry lhs.lower rhs.lower
  if 0 ≤ rhs.upper.toInt then
    if 2 ^ 63 - 1 - rhs.upper.toInt - overflow < lhs.upper.toInt then (false, lhs)
    else (true, ⟨lhs.lower + rhs.lower, .ofInt 64 (lhs.upper.toInt + overflow + rhs.upper.toInt)⟩)
  else if lhs.upper.toInt < -2 ^ 63 - rhs.upper.toInt - overflow then (false, lhs)
  else (true, ⟨lhs.lower + rhs.lower, .ofInt 64 (lhs.upper.toInt + (overflow + rhs.upper.toInt))⟩)

def trySubtractInPlace : Bool × HugeintT :=
  let underflow : Int := borrow lhs.lower rhs.lower
  if 0 ≤ rhs.upper.toInt then
    if lhs.upper.toInt < -2 ^ 63 + rhs.upper.toInt + underflow then (false, lhs)
    else (true, ⟨lhs.lower - rhs.lower, .ofInt 64 (lhs.upper.toInt - rhs.upper.toInt - underflow)⟩)
  else if -2 ^ 63 < lhs.upper.toInt ∧
      2 ^ 63 - 1 + rhs.upper.toInt + underflow ≤ lhs.upper.toInt - 1 then (false, lhs)
  else (true, ⟨lhs.lower - rhs.lower, .ofInt 64 (lhs.upper.toInt - (rhs.upper.toInt + underflow))⟩)

theorem outcome_of_upper {out : Prop} [Decidable out] {n x : Int} {low : BitVec 64}
    (hw : x = n * 2 ^ 64 + low.toNat) (h : out ↔ n < -2 ^ 63 ∨ 2 ^ 63 ≤ n) :
    outcome value (if out then (false, lhs) else (true, ⟨low, .ofInt 64 n⟩)) =
      Hugeint.checked x := by
  have hl := low.isLt
  unfold Hugeint.checked Hugeint.minimum Hugeint.maximum
  split
  · next hb =>
    have := h.mp hb
    exact (if_neg (by omega)).symm
  · next fit =>
    have := mt h.mpr fit
    have number : value ⟨low, .ofInt 64 n⟩ = x := by
      rw [value, BitVec.toInt_ofInt_eq_self (by decide) (by omega) (by omega), hw]
    exact (congrArg some number).trans (if_pos (by omega)).symm

theorem outcome_tryAddInPlace :
    outcome value (tryAddInPlace lhs rhs) = Hugeint.checked (lhs.value + rhs.value) := by
  have sum := add_carry lhs.lower rhs.lower
  have hl := half_bounds lhs.upper
  have hr := half_bounds rhs.upper
  unfold tryAddInPlace
  rw [value, value]
  split <;> apply outcome_of_upper <;> omega

theorem outcome_trySubtractInPlace :
    outcome value (trySubtractInPlace lhs rhs) = Hugeint.checked (lhs.value - rhs.value) := by
  have diff := sub_borrow lhs.lower rhs.lower
  have hl := half_bounds lhs.upper
  have hr := half_bounds rhs.upper
  unfold trySubtractInPlace
  rw [value, value]
  split <;> apply outcome_of_upper <;> omega

end HugeintT

/-- The upper half to subtract wraps when it is the greatest and the lower halves borrow. -/
theorem inPlace_checked_iff (a b : UhugeintT) (c d : HugeintT) :
    (outcome UhugeintT.value (a.tryAddInPlace b) = Uhugeint.checked (a.value + b.value) ∧
      outcome UhugeintT.value (a.trySubtractInPlace b) = Uhugeint.checked (a.value - b.value) ∧
      outcome HugeintT.value (c.tryAddInPlace d) = Hugeint.checked (c.value + d.value) ∧
      outcome HugeintT.value (c.trySubtractInPlace d) = Hugeint.checked (c.value - d.value)) ↔
      ¬(b.upper = -1 ∧ a.lower < b.lower) := by
  rw [UhugeintT.outcome_trySubtractInPlace_iff]
  constructor
  · intro h
    exact h.2.1
  · intro h
    exact ⟨a.outcome_tryAddInPlace b, h, c.outcome_tryAddInPlace d,
      c.outcome_trySubtractInPlace d⟩

/-- Five less a larger number leaves five. -/
theorem trySubtractInPlace_larger : let a : UhugeintT := ⟨0, 5⟩
    let b : UhugeintT := ⟨1, -1⟩
    a.value - b.value < 0 ∧ a.trySubtractInPlace b = (true, ⟨-1, 5⟩) := by
  decide

/-! ## Multiplication -/

namespace HugeintT

def minimum : HugeintT := ⟨0, BitVec.intMin 64⟩

def negateInPlace (input : HugeintT) : HugeintT :=
  let lower := -1 - input.lower + 1
  ⟨lower, -1 - input.upper + (if lower = 0 then 1 else 0)⟩

def tryNegate (input : HugeintT) : Option HugeintT :=
  if input.upper = BitVec.intMin 64 ∧ input.lower = 0 then none else some (negateInPlace input)

/-- The conversion to `__uint128_t`. -/
def bits (x : HugeintT) : Nat := x.lower.toNat + x.upper.toNat * 2 ^ 64

/-- An operand of `TryMultiply` without its sign. -/
def magnitude (x : HugeintT) : Option HugeintT := if x.upper.toInt < 0 then tryNegate x else some x

def tryMultiply (lhs rhs result : HugeintT) : Bool × HugeintT :=
  if lhs = minimum ∨ rhs = minimum then
    if lhs = ⟨0, 0⟩ ∨ rhs = ⟨0, 0⟩ then (true, ⟨0, 0⟩)
    else if lhs = ⟨1, 0⟩ ∨ rhs = ⟨1, 0⟩ then (true, minimum)
    else (false, result)
  else match magnitude lhs, magnitude rhs with
    | some left, some right =>
      let product := left.bits * right.bits
      if 2 ^ 128 ≤ product then (false, result) else
      let upper := BitVec.ofNat 64 (product / 2 ^ 64)
      if upper &&& 0x8000000000000000 ≠ 0 then (false, result) else
      let product : HugeintT := ⟨.ofNat 64 product, upper⟩
      (true, if (lhs.upper.toInt < 0) ≠ (rhs.upper.toInt < 0) then negateInPlace product
        else product)
    | _, _ => (false, result)

variable {x y : HugeintT}

theorem bits_lt (x : HugeintT) : x.bits < 2 ^ 128 := by
  unfold bits
  omega

theorem negative_iff (x : HugeintT) : x.upper.toInt < 0 ↔ 2 ^ 127 ≤ x.bits := by
  unfold bits
  rw [BitVec.toInt_eq_toNat_cond]
  omega

theorem value_eq (x : HugeintT) :
    x.value = (x.bits : Int) - if x.upper.toInt < 0 then 2 ^ 128 else 0 := by
  unfold value bits
  rw [BitVec.toInt_eq_toNat_cond]
  omega

theorem value_inj : x.value = y.value ↔ x = y := by
  have hx := x.lower.isLt
  have hy := y.lower.isLt
  refine ⟨fun h => ?_, fun h => h ▸ rfl⟩
  rw [value, value] at h
  have upper : x.upper = y.upper := BitVec.eq_of_toInt_eq (by omega)
  have lower : x.lower = y.lower := BitVec.eq_of_toNat_eq (by omega)
  cases x
  cases y
  simp_all

theorem bits_negateInPlace (x : HugeintT) :
    x.negateInPlace.bits = (2 ^ 128 - x.bits) % 2 ^ 128 := by
  unfold negateInPlace bits
  dsimp only
  split <;> bv_omega

theorem magnitude_eq (h : x ≠ minimum) :
    ∃ m : HugeintT, magnitude x = some m ∧ m.bits = x.value.natAbs := by
  have sign := negative_iff x
  have number := value_eq x
  have negated := bits_negateInPlace x
  have := bits_lt x
  unfold magnitude tryNegate
  split
  · next negative =>
    have apart : ¬(x.upper = BitVec.intMin 64 ∧ x.lower = 0) := fun both => h (by
      rw [minimum, ← both.1, ← both.2])
    have : x.value ≠ -2 ^ 127 := fun e => h (value_inj.mp e)
    rw [if_neg apart]
    exact ⟨_, rfl, by omega⟩
  · exact ⟨x, rfl, by omega⟩

theorem mask_iff (u : BitVec 64) : u &&& 0x8000000000000000 ≠ 0 ↔ u.toInt < 0 := by
  have mask : (u &&& 0x8000000000000000).toNat = (u.toNat.testBit 63).toNat * 2 ^ 63 :=
    Nat.and_two_pow u.toNat 63
  rw [BitVec.toInt_neg_iff, ne_eq, ← BitVec.toNat_inj, mask, Nat.testBit_eq_decide_div_mod_eq]
  by_cases set : u.toNat / 2 ^ 63 % 2 = 1 <;> simp <;> omega

theorem halves_spec {n : Nat} (h : n < 2 ^ 128) :
    let product : HugeintT := ⟨.ofNat 64 n, .ofNat 64 (n / 2 ^ 64)⟩
    (product.upper.toInt < 0 ↔ 2 ^ 127 ≤ n) ∧
      (n < 2 ^ 127 → product.value = n ∧ product.negateInPlace.value = -n) := by
  intro product
  have hw : product.bits = n := by
    simp only [product, bits, BitVec.toNat_ofNat]
    omega
  have negated := bits_negateInPlace product
  have sign := negative_iff product
  have sign' := negative_iff product.negateInPlace
  rw [value_eq, value_eq]
  omega

theorem mul_eq_natAbs (a b : Int) : a * b =
    if (a < 0) ≠ (b < 0) then -((a * b).natAbs : Int) else (a * b).natAbs := by
  by_cases ha : a < 0 <;> by_cases hb : b < 0 <;> simp only [ha, hb]
  · have := Int.mul_pos_of_neg_of_neg ha hb
    grind
  · have := Int.mul_nonpos_of_nonpos_of_nonneg ha.le (Int.not_lt.mp hb)
    grind
  · have := Int.mul_nonpos_of_nonneg_of_nonpos (Int.not_lt.mp ha) hb.le
    grind
  · have := Int.mul_nonneg (Int.not_lt.mp ha) (Int.not_lt.mp hb)
    grind

theorem upper_neg_iff (x : HugeintT) : x.upper.toInt < 0 ↔ x.value < 0 := by
  unfold value
  omega

theorem outcome_tryMultiply (lhs rhs result : HugeintT) :
    outcome value (tryMultiply lhs rhs result) = Hugeint.tryMultiply lhs.value rhs.value := by
  have isMinimum (x : HugeintT) : x = minimum ↔ x.value = Hugeint.minimum := value_inj.symm
  have isZero (x : HugeintT) : x = ⟨0, 0⟩ ↔ x.value = 0 := value_inj.symm
  have isOne (x : HugeintT) : x = ⟨1, 0⟩ ↔ x.value = 1 := value_inj.symm
  unfold tryMultiply Hugeint.tryMultiply
  simp only [isMinimum, isZero, isOne]
  by_cases least : lhs.value = Hugeint.minimum ∨ rhs.value = Hugeint.minimum
  · rw [if_pos least, if_pos least]
    split
    · rfl
    · split <;> rfl
  · obtain ⟨_, hl, bl⟩ := magnitude_eq (mt (isMinimum lhs).mp (mt .inl least))
    obtain ⟨_, hr, br⟩ := magnitude_eq (mt (isMinimum rhs).mp (mt .inr least))
    have signed := mul_eq_natAbs lhs.value rhs.value
    simp only [least, if_false, hl, hr, mask_iff, bl, br, ← Int.natAbs_mul]
    generalize lhs.value * rhs.value = p at *
    by_cases large : 2 ^ 128 ≤ p.natAbs
    · rw [if_pos large, if_neg (by omega)]
      rfl
    · have halves := halves_spec (Nat.lt_of_not_le large)
      simp only [large, if_false, halves.1]
      by_cases fits : p.natAbs < 2 ^ 127
      · obtain ⟨plus, minus⟩ := halves.2 fits
        rw [if_neg (Nat.not_le.mpr fits), if_pos fits]
        refine congrArg some (Eq.trans ?_ signed.symm)
        simp only [upper_neg_iff]
        split
        · exact minus
        · exact plus
      · rw [if_pos (Nat.le_of_not_lt fits), if_neg fits]
        rfl

end HugeintT

/-- For the minimum the product itself is in range or not; otherwise its magnitude has to be. -/
theorem Hugeint.tryMultiply_eq_checked_iff (x y : Int) :
    tryMultiply x y = checked (x * y) ↔ (x * y = minimum → x = minimum ∨ y = minimum) := by
  unfold tryMultiply checked minimum maximum
  by_cases least : x = -2 ^ 127 ∨ y = -2 ^ 127
  · simp only [least, if_true, implies_true, iff_true]
    rcases least with rfl | rfl
    · grind
    · grind
  · simp only [least, if_false, imp_false]
    generalize x * y = p
    split_ifs <;> simp <;> omega

/-- `TryMultiply` fails exactly on overflow, except that it refuses the product `-2 ^ 127` unless
one of the factors is `-2 ^ 127`. -/
theorem HugeintT.tryMultiply_checked_iff (lhs rhs result : HugeintT) :
    outcome value (tryMultiply lhs rhs result) = Hugeint.checked (lhs.value * rhs.value) ↔
      (lhs.value * rhs.value = -2 ^ 127 → lhs.value = -2 ^ 127 ∨ rhs.value = -2 ^ 127) := by
  rw [outcome_tryMultiply]
  exact Hugeint.tryMultiply_eq_checked_iff _ _

/-- Minus `2 ^ 126` times two is the minimum. -/
theorem HugeintT.tryMultiply_to_minimum : let lhs : HugeintT := ⟨0, 0xC000000000000000⟩
    let rhs : HugeintT := ⟨2, 0⟩
    lhs.value * rhs.value = -2 ^ 127 ∧ tryMultiply lhs rhs ⟨0, 0⟩ = (false, ⟨0, 0⟩) := by
  decide

end AccessPath
