import Mathlib.Data.Nat.Digits.Lemmas

/-!
# Decimal digits in a text

Numbers are written by their digits, possibly with zeros in front. What is read from
digits does not depend on such zeros, and a text of digits can be cut anywhere.
-/

namespace AccessPath.Library

open List Nat

variable {s : List Char} {k n : Nat}

/-- A text of digits. -/
def Digits (text : List Char) : Prop := ∀ c ∈ text, c.isDigit = true

/-- The number that digits stand for. -/
def digitsValue (text : List Char) : Nat := Nat.ofDigitChars 10 text 0

/-- The number that a digit stands for. -/
def digitValue (c : Char) : Nat := c.toNat - '0'.toNat

/-- Fill up with zeros in front. -/
def zeroPad (width : Nat) (text : List Char) : List Char :=
  replicate (width - text.length) '0' ++ text

theorem digits_nil : Digits [] := nofun

theorem digits_cons_iff {c : Char} :
    Digits (c :: s) ↔ c.isDigit = true ∧ Digits s := forall_mem_cons

theorem digits_append_iff {s' : List Char} :
    Digits (s ++ s') ↔ Digits s ∧ Digits s' := forall_mem_append

theorem digits_toDigits (n : Nat) : Digits (toDigits 10 n) := fun _ mem =>
  isDigit_of_mem_toDigits (by decide) (by decide) mem

theorem digits_zeros (n : Nat) : Digits (replicate n '0') := by
  intro c mem
  rw [eq_of_mem_replicate mem]
  rfl

theorem digits_zeroPad {w : Nat} (ds : Digits s) :
    Digits (zeroPad w s) := digits_append_iff.mpr ⟨digits_zeros _, ds⟩

theorem length_zeroPad {w : Nat} (fits : s.length ≤ w) :
    (zeroPad w s).length = w := by
  rw [zeroPad, length_append, length_replicate]
  omega

@[simp] theorem digitsValue_nil : digitsValue [] = 0 := rfl

theorem digitsValue_append (s s' : List Char) :
    digitsValue (s ++ s') = 10 ^ s'.length * digitsValue s + digitsValue s' := by
  rw [digitsValue, ofDigitChars_append, ofDigitChars_eq_ofDigitChars_zero]
  rfl

theorem digitsValue_concat (s : List Char) (c : Char) :
    digitsValue (s ++ [c]) = 10 * digitsValue s + digitValue c := by
  rw [digitsValue_append]
  simp [digitsValue, digitValue, ofDigitChars_cons]

theorem digitsValue_cons (c : Char) (s : List Char) :
    digitsValue (c :: s) = 10 ^ s.length * digitValue c + digitsValue s := by
  rw [← singleton_append, digitsValue_append]
  simp [digitsValue, digitValue, ofDigitChars_cons]

@[simp] theorem digitsValue_toDigits (n : Nat) : digitsValue (toDigits 10 n) = n :=
  ofDigitChars_ten_toDigits

@[simp] theorem digitsValue_zeros (n : Nat) : digitsValue (replicate n '0') = 0 := by
  rw [digitsValue, ofDigitChars_replicate_zero, mul_zero]

@[simp] theorem digitsValue_zeroPad (w : Nat) (s : List Char) :
    digitsValue (zeroPad w s) = digitsValue s := by
  rw [zeroPad, digitsValue_append, digitsValue_zeros, mul_zero, zero_add]

theorem digitValue_lt {c : Char} (d : c.isDigit = true) : digitValue c < 10 := by
  rw [Char.isDigit, Bool.and_eq_true, decide_eq_true_iff, decide_eq_true_iff] at d
  have upper : c.toNat ≤ 57 := d.2
  have zero : '0'.toNat = 48 := rfl
  unfold digitValue
  omega

theorem digitChar_eq (lt : n < 10) : Char.ofNat ('0'.toNat + n) = n.digitChar := by
  interval_cases n <;> rfl

/-! ## How many digits a number has -/

theorem length_toDigits_eq (lower : 10 ^ k ≤ n ∨ k = 0) (upper : n < 10 ^ (k + 1)) :
    (toDigits 10 n).length = k + 1 := by
  have ten : 1 < 10 := by decide
  have most := (length_toDigits_le_iff ten (succ_pos k)).mpr upper
  rcases lower with lower | rfl
  · cases k with
    | zero => exact le_antisymm most length_toDigits_pos
    | succ k =>
      have least := mt (length_toDigits_le_iff ten (succ_pos k)).mp (Nat.not_lt.mpr lower)
      omega
  · exact le_antisymm most length_toDigits_pos

theorem length_toDigits_le (pos : 0 < k) (lt : n < 10 ^ k) :
    (toDigits 10 n).length ≤ k := (length_toDigits_le_iff (by decide) pos).mpr lt

theorem zeroPad_concat (w : Nat) (s : List Char) (c : Char) :
    zeroPad (w + 1) (s ++ [c]) = zeroPad w s ++ [c] := by
  rw [zeroPad, zeroPad, length_append, length_singleton, Nat.add_sub_add_right, append_assoc]

/-- The digits of a number below a power of ten, with zeros in front. -/
theorem zeroPad_succ (pos : 0 < k) (r : Nat) : zeroPad (k + 1) (toDigits 10 r) =
      zeroPad k (toDigits 10 (r / 10)) ++ [(r % 10).digitChar] := by
  by_cases few : r < 10
  · obtain ⟨_, rfl⟩ := exists_eq_add_one_of_ne_zero pos.ne'
    rw [toDigits_of_lt_base few, div_eq_of_lt few, mod_eq_of_lt few,
      toDigits_zero, zeroPad, zeroPad, length_singleton, length_singleton,
      Nat.add_sub_cancel, Nat.add_sub_cancel, replicate_succ']
  · rw [toDigits_of_base_le (by decide) (Nat.not_lt.mp few), zeroPad_concat]

theorem toDigits_mul_pow_add {q r : Nat} (pos : 0 < q) (some : 0 < k) (lt : r < 10 ^ k) :
    toDigits 10 (10 ^ k * q + r) = toDigits 10 q ++ zeroPad k (toDigits 10 r) := by
  induction k, some using le_induction generalizing r with
  | base =>
    have cut : (10 ^ 1 * q + r) / 10 = q := by omega
    have last : (10 ^ 1 * q + r) % 10 = r := by omega
    have d : toDigits 10 r = [r.digitChar] := toDigits_of_lt_base lt
    rw [toDigits_of_base_le (by decide) (by omega), cut, last, d]
    rfl
  | succ k some ih =>
    have power : 10 ^ (k + 1) = 10 * 10 ^ k := pow_succ'
    have cut : (10 ^ (k + 1) * q + r) / 10 = 10 ^ k * q + r / 10 := by
      rw [power, mul_assoc, mul_add_div (by decide)]
    have last : (10 ^ (k + 1) * q + r) % 10 = r % 10 := by
      rw [power, mul_assoc, mul_add_mod]
    have large : 10 ≤ 10 ^ (k + 1) * q + r := by
      have one := mul_le_mul (one_le_pow k 10 (by decide)) pos
      rw [power, mul_assoc]
      omega
    rw [toDigits_of_base_le (by decide) large, cut, last, ih (by omega), append_assoc,
      ← zeroPad_succ some]

end AccessPath.Library
