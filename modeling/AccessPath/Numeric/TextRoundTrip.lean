import AccessPath.Numeric.DecimalCast
import AccessPath.Numeric.Format
import AccessPath.Numeric.HugeintCast

/-!
# Round trip of numbers through their text

What the formatters write is read back as the number, and has as many characters as were
announced.
-/

namespace AccessPath

open Library NumericHelper DecimalToString Nat

variable {v : Int} {t : IntegerType}

/-! ## Integers -/

/-- The cast from a text to an integer type; `beyond` is what the cast to `hugeint_t` finds
after its table of powers. -/
def stringCast (t : IntegerType) (beyond : Int) (text : List Char) : Option Int :=
  if t.width = .sixteen then tryHugeintCast beyond false text
  else trySimpleIntegerCast t false text

theorem toInt_bounds (v : t.Value) : t.minimum ≤ t.toInt v ∧ t.toInt v ≤ t.maximum := by
  unfold IntegerType.minimum IntegerType.maximum IntegerType.toInt
  split_ifs
  · have lower := BitVec.le_toInt v
    have upper := BitVec.toInt_lt (x := v)
    omega
  · have power : ((2 ^ t.bits : Nat) : Int) = 2 ^ t.bits := by push_cast; rfl
    omega

theorem signed_of_negative {v : t.Value} (neg : t.toInt v < 0) : t.signed = true := by
  by_contra unsigned
  rw [IntegerType.toInt, if_neg unsigned] at neg
  omega

theorem trySimpleIntegerCast_numberText {x : Int} (low : t.minimum ≤ x) (high : x ≤ t.maximum)
    (signed : x < 0 → t.signed = true) : trySimpleIntegerCast t false (numberText x) = some x := by
  have signed : decide (x < 0) = true → t.signed = true := fun neg => signed (of_decide_eq_true neg)
  have first : tryIntegerCast (integerCastOperation t) t.signed false false '.' 0 (numberText x) =
      some x := by
    refine (tryIntegerCast_digits signed (digits_toDigits _) toDigits_ne_nil).trans ?_
    rw [handleDigits_integer signed (digits_toDigits _), digitsValue_toDigits]
    by_cases neg : x < 0
    · have back : -(x.natAbs : Int) = x := by omega
      rw [if_pos (decide_eq_true neg), back, if_pos low]
      rfl
    · have back : (x.natAbs : Int) = x := by omega
      rw [if_neg (by simpa using neg), back, if_pos high]
      rfl
  rw [trySimpleIntegerCast, first]

theorem tryHugeintCast_numberText (lim : Int) (lower : -2 ^ 127 ≤ v)
    (upper : v < 2 ^ 127) : tryHugeintCast lim false (numberText v) = some v := by
  have fits : v.natAbs ≤ HugeIntCastData.limit (v < 0) := by
    unfold HugeIntCastData.limit
    split_ifs with neg
    · omega
    · have : ¬ v < 0 := fun less => neg (decide_eq_true less)
      omega
  have hsh : (Nat.toDigits 10 v.natAbs).length ≤ 39 := length_toDigits_le (by decide) (by omega)
  have digits := digits_toDigits v.natAbs
  have read := @HugeIntCastData.Stands.handleDigits (v < 0) .zero 0 0 0 0 lim
    (Nat.toDigits 10 v.natAbs) digits (HugeIntCastData.stands_zero _)
  rw [Nat.mul_zero, Nat.zero_add, digitsValue_toDigits] at read
  obtain ⟨_, _, _, handled, stands⟩ := read fits (by omega)
  obtain ⟨final, done, r⟩ := @HugeIntCastData.Stands.finalize _ _ _ _ _ _ lim stands fits
  rw [withSign_natAbs] at r
  have cast : tryIntegerCast (hugeIntegerCastOperation lim) true true false '.' .zero
      (numberText v) = some final := by
    refine (tryIntegerCast_digits (fun _ => rfl) digits toDigits_ne_nil).trans ?_
    rw [handled]
    exact done
  rw [tryHugeintCast, cast, Option.map_some, r]

/-! ## Decimals -/

namespace DecimalCastData

variable {ty : DecimalType} {neg : Bool}

theorem finalize_afterWhole (n : Nat) : ((afterWhole ty neg n).finalize neg).result =
      withSign neg n * 10 ^ ty.scale := rfl

theorem finalize_afterDecimals {n : Nat} (lt : n < 10 ^ ty.wholeDigits)
    {ds : List Char} (all : ds.length = ty.scale) :
    ((afterDecimals ty neg n ds).finalize neg).result =
      withSign neg (n * 10 ^ ty.scale + digitsValue ds) := by
  have kept : keptDecimals ty n ty.scale = ty.scale := Nat.min_eq_left (scale_le_room lt)
  have state : afterDecimals ty neg n ds = { afterWhole ty neg n with
        result := withSign neg (n * 10 ^ ty.scale + digitsValue ds)
        decimalCount := ty.scale } := by
    simp [afterDecimals, afterWhole, kept, start, all, List.take_of_length_le all.le]
  rw [state]
  simp [finalize, setExcessive, afterWhole, start]

end DecimalCastData

open DecimalCastData in
theorem tryDecimalStringCast_decimalText {ty : DecimalType} (lt : v.natAbs < 10 ^ ty.width) :
    tryDecimalStringCast ty.storage ty.width ty.scale
      (decimalText v ty.width ty.scale) = some v := by
  have power : 0 < 10 ^ ty.scale := Nat.pow_pos (by decide)
  unfold tryDecimalStringCast decimalText
  by_cases zero : ty.scale = 0
  · have fit : v.natAbs < 10 ^ ty.wholeDigits := by
      rw [DecimalType.wholeDigits, zero]
      exact lt
    rw [if_pos zero]
    refine (congrArg (Option.map _) (tryIntegerCast_digits (fun _ => rfl)
      (digits_toDigits v.natAbs) toDigits_ne_nil)).trans ?_
    rw [handleDigits_decimal (digits_toDigits _), digitsValue_toDigits, if_pos fit]
    refine congrArg some ((finalize_afterWhole _).trans ?_)
    rw [withSign_natAbs, zero, pow_zero, mul_one]
  · have pos := Nat.pos_of_ne_zero zero
    have minor := mod_lt v.natAbs power
    have fit : v.natAbs / 10 ^ ty.scale < 10 ^ ty.wholeDigits := by
      rw [Nat.div_lt_iff_lt_mul power, ← Nat.pow_add, DecimalType.wholeDigits,
        Nat.sub_add_cancel ty.scale_le]
      exact lt
    have all : (zeroPad ty.scale (Nat.toDigits 10 (v.natAbs % 10 ^ ty.scale))).length =
        ty.scale := length_zeroPad (length_toDigits_le pos minor)
    -- there are no digits before the point if all digits are decimals
    have hw : Digits (if ty.scale < ty.width
          then Nat.toDigits 10 (v.natAbs / 10 ^ ty.scale) else []) ∧
        digitsValue (if ty.scale < ty.width
          then Nat.toDigits 10 (v.natAbs / 10 ^ ty.scale) else []) =
        v.natAbs / 10 ^ ty.scale := by
      split_ifs with less
      · exact ⟨digits_toDigits _, digitsValue_toDigits _⟩
      · have same : ty.scale = ty.width := by
          have := ty.scale_le
          omega
        exact ⟨digits_nil, (div_eq_of_lt (same ▸ lt)).symm⟩
    rw [if_neg zero]
    refine (congrArg (Option.map _) (tryIntegerCast_decimals (fun _ => rfl) hw.1
      (digits_zeroPad (digits_toDigits _)) (.inr ?_))).trans ?_
    · exact List.ne_nil_of_length_pos (all.symm ▸ pos)
    · rw [handleDigits_decimal hw.1, hw.2, if_pos fit, Option.bind_some, handleDecimals_decimal fit]
      refine congrArg some ((finalize_afterDecimals fit all).trans ?_)
      rw [digitsValue_zeroPad, digitsValue_toDigits, div_add_mod', withSign_natAbs]

/-! ## Both -/

theorem DecimalType.pow_width_le (ty : DecimalType) :
    10 ^ ty.width ≤ 2 ^ (8 * ty.storage.bytes) := by
  refine (Nat.pow_le_pow_right (by decide) ty.width_le).trans ?_
  cases ty.storage <;> decide

/-- Every number of a type with a formatter, and every decimal within its width, is written
with as many characters as announced, and read back from them. -/
theorem formatted_roundTrip :
    (∀ (t : IntegerType) (value : t.Value) (beyond : Int), t ≠ ⟨false, .sixteen⟩ →
      (formatSigned t value).text.length = (formatSigned t value).length ∧
      stringCast t beyond (formatSigned t value).text = some (t.toInt value)) ∧
    ∀ (type : DecimalType) (value : Int), value.natAbs < 10 ^ type.width →
      (format type.storage value type.width type.scale).text.length =
        (format type.storage value type.width type.scale).length ∧
      tryDecimalStringCast type.storage type.width type.scale
        (format type.storage value type.width type.scale).text = some value := by
  constructor
  · intro t value beyond formatter
    unfold stringCast formatSigned
    by_cases huge : t.width = .sixteen
    · have bounds := toInt_bounds value
      have signed : t.signed = true := by
        obtain ⟨signed, _⟩ := t
        cases huge
        cases signed with
        | false => exact absurd rfl formatter
        | true => rfl
      rw [IntegerType.minimum, IntegerType.maximum, if_pos signed, if_pos signed,
        IntegerType.bits, IntegerType.bytes, huge] at bounds
      have lower : -2 ^ 127 ≤ t.toInt value := bounds.1
      have upper : t.toInt value ≤ 2 ^ 127 - 1 := bounds.2
      have spec := formatSignedHuge_spec lower (Int.lt_of_le_sub_one upper)
      rw [if_pos huge, if_pos huge]
      exact ⟨spec.2.symm, spec.1 ▸ tryHugeintCast_numberText beyond lower (by omega)⟩
    · have spec := formatSignedSmall_spec value
      rw [if_neg huge, if_neg huge]
      have bounds := toInt_bounds value
      exact ⟨spec.2.symm,
        spec.1 ▸ trySimpleIntegerCast_numberText bounds.1 bounds.2 signed_of_negative⟩
  · intro type value bound
    unfold format
    rw [formatDecimal_eq]
    exact ⟨(decimalLength_eq type.pow_width_le type.scale_le bound).symm,
      tryDecimalStringCast_decimalText bound⟩

end AccessPath
