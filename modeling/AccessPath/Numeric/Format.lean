import AccessPath.Library.DecimalText
import AccessPath.Types

/-!
# Writing numbers

The formatters of `NumericHelper` and `DecimalToString`. They write backwards into a
buffer whose length is computed first, two digits at a time, or for `hugeint_t`
seventeen.
-/

namespace AccessPath

open Library List Nat

variable {t : IntegerType} {storage : IntegerWidth} {fuel length n sc steps value w : Nat}

/-! ## Unsigned numbers -/

/-- `duckdb_fmt::internal::data::digits`: the numbers from 00 to 99, one after the other. -/
def fmtDigits : List Char := (range 100).flatMap fun n => [(n / 10).digitChar, (n % 10).digitChar]

def fmtDigit (index : Nat) : Char := fmtDigits.getD index '0'

namespace NumericHelper

/-- The rounds of `FormatUnsigned`, at most `fuel` of them. What is written goes in front of
what `ptr` points to. -/
def formatPairs : Nat → Nat → List Char → List Char
  | 0, _, ptr => ptr
  | fuel + 1, value, ptr =>
    if 100 ≤ value then
      let index := value % 100 * 2
      formatPairs fuel (value / 100) (fmtDigit index :: fmtDigit (index + 1) :: ptr)
    else if value < 10 then Char.ofNat ('0'.toNat + value) :: ptr
    else fmtDigit (value * 2) :: fmtDigit (value * 2 + 1) :: ptr

def formatUnsigned (value : Nat) (ptr : List Char) : List Char := formatPairs (value + 1) value ptr

/-- `length`, and one more for each of the powers of ten from there on that the value
reaches. -/
def lengthFrom (length : Nat) : Nat → Nat → Nat
  | 0, _ => length
  | steps + 1, value =>
    lengthFrom length steps value + if 10 ^ (length + steps) ≤ value then 1 else 0

/-- `UnsignedLength` for `uint8_t` to `uint64_t`, and for a `hugeint_t` that is not
negative. -/
def unsignedLength : IntegerWidth → Nat → Nat
  | .one, value => lengthFrom 1 2 value
  | .two, value => lengthFrom 1 4 value
  | .four, value => if 10000 ≤ value then lengthFrom 5 5 value else lengthFrom 1 3 value
  | .eight, value => lengthEight value
  | .sixteen, value =>
    if value < 2 ^ 64 then lengthEight value
    else if 10 ^ 27 ≤ value then
      if 10 ^ 32 ≤ value then
        if 10 ^ 36 ≤ value then lengthFrom 37 2 value else lengthFrom 33 3 value
      else if 10 ^ 30 ≤ value then lengthFrom 31 2 value else lengthFrom 28 2 value
    else if 10 ^ 22 ≤ value then
      if 10 ^ 25 ≤ value then lengthFrom 26 1 value else lengthFrom 23 2 value
    else if 10 ^ 20 ≤ value then lengthFrom 21 1 value else lengthFrom 18 2 value
where
  lengthEight (value : Nat) : Nat := if 10 ^ 10 ≤ value then
      if 10 ^ 15 ≤ value then lengthFrom 16 4 value else lengthFrom 11 4 value
    else if 10 ^ 5 ≤ value then lengthFrom 6 4 value else lengthFrom 1 4 value

/-- `FormatUnsigned` for a `hugeint_t`, with at most `fuel` groups of seventeen digits
before what is left fits in 64 bits. -/
def formatGroups : Nat → Nat → List Char → List Char
  | 0, _, ptr => ptr
  | fuel + 1, value, ptr =>
    if 2 ^ 64 ≤ value then
      let group := formatUnsigned (value % 10 ^ 17) []
      formatGroups fuel (value / 10 ^ 17) (zeroPad 17 group ++ ptr)
    else formatUnsigned value ptr

def formatUnsignedHuge (value : Nat) (ptr : List Char) : List Char :=
  formatGroups (value + 1) value ptr

end NumericHelper

/-! ## Signed numbers -/

/-- What was written, and the length that was computed for it before. -/
structure Formatted where
  length : Nat
  text : List Char

/-- The sign of a number that is negative. -/
def signText (negative : Bool) : List Char := if negative then ['-'] else []

namespace NumericHelper

open NumericHelper (formatUnsigned unsignedLength)

/-- `FormatSigned` for `int8_t` to `int64_t` and `uint8_t` to `uint64_t`. -/
def formatSignedSmall (t : IntegerType) (value : t.Value) : Formatted :=
  let negative := decide (t.toInt value < 0)
  let sign : t.Value := if negative then -1 else 0
  let unsignedValue := (value ^^^ sign) + if negative then 1 else 0
  { length := unsignedLength t.width unsignedValue.toNat + (signText negative).length
    text := signText negative ++ formatUnsigned unsignedValue.toNat [] }

/-- `Hugeint::HUGEINT_MINIMUM_STRING`. -/
def hugeintMinimumString : List Char := "-170141183460469231731687303715884105728".toList

/-- `FormatSigned` for `hugeint_t`. -/
def formatSignedHuge (value : Int) : Formatted :=
  if value = -2 ^ 127 then ⟨hugeintMinimumString.length, hugeintMinimumString⟩
  else
    let negative := decide (value < 0)
    let magnitude := value.natAbs
    { length := unsignedLength .sixteen magnitude + (signText negative).length
      text := signText negative ++
        if magnitude < 2 ^ 64 then formatUnsigned magnitude []
        else formatUnsignedHuge magnitude [] }

/-- `FormatSigned`, of which there is no instance for `uhugeint_t`. -/
def formatSigned (t : IntegerType) (value : t.Value) : Formatted :=
  if t.width = .sixteen then formatSignedHuge (t.toInt value) else formatSignedSmall t value

def signedLength (width : IntegerWidth) (value : Int) : Nat :=
  unsignedLength width value.natAbs + (signText (value < 0)).length

end NumericHelper

/-! ## Decimals -/

namespace DecimalToString

open NumericHelper

/-- `DecimalLength`, in the order in which the instance for `hugeint_t` adds the sign or
that of the others. -/
def decimalLength (storage : IntegerWidth) (value : Int) (width scale : Nat) : Nat :=
  let extra := if scale < width then 2 else 1
  let sign := (signText (value < 0)).length
  if scale = 0 then signedLength storage value
  else if storage = .sixteen then
    max (scale + extra) (unsignedLength storage value.natAbs + 1) + sign
  else max (scale + extra + sign) (signedLength storage value + 1)

/-- `FormatDecimal` with the `FormatUnsigned` of the storage type. -/
def formatDecimal (storage : IntegerWidth) (value : Int) (width scale : Nat) : List Char :=
  let format := if storage = .sixteen then formatUnsignedHuge else formatUnsigned
  let magnitude := value.natAbs
  signText (value < 0) ++ if scale = 0 then format magnitude []
    else
      let minor := magnitude % 10 ^ scale
      let major := magnitude / 10 ^ scale
      let ptr := '.' :: zeroPad scale (format minor [])
      if scale < width then format major ptr else ptr

/-- `DecimalToString::Format`. -/
def format (storage : IntegerWidth) (value : Int) (width scale : Nat) : Formatted :=
  ⟨decimalLength storage value width scale, formatDecimal storage value width scale⟩

end DecimalToString

/-! ## What is written -/

theorem fmtDigit_pair (lt : n < 100) :
    fmtDigit (n * 2) = (n / 10).digitChar ∧ fmtDigit (n * 2 + 1) = (n % 10).digitChar := by
  have all : ∀ n < 100, fmtDigit (n * 2) = (n / 10).digitChar ∧
      fmtDigit (n * 2 + 1) = (n % 10).digitChar := by decide +kernel
  exact all n lt

theorem zeroPad_two (lt : n < 100) :
    zeroPad 2 (toDigits 10 n) = [(n / 10).digitChar, (n % 10).digitChar] := by
  rw [zeroPad_succ one_pos, toDigits_of_lt_base (by omega)]
  rfl

namespace NumericHelper

theorem formatPairs_eq (enough : value < fuel) (ptr : List Char) :
    formatPairs fuel value ptr = toDigits 10 value ++ ptr := by
  induction fuel generalizing value ptr with
  | zero => omega
  | succ fuel ih =>
    rw [formatPairs]
    split_ifs with large d
    · have lt := mod_lt value (show 100 > 0 by decide)
      have split : value = 10 ^ 2 * (value / 100) + value % 100 := (div_add_mod _ _).symm
      rw [ih (by omega), (fmtDigit_pair lt).1, (fmtDigit_pair lt).2]
      conv_rhs => rw [split, toDigits_mul_pow_add (by omega) (by decide) lt,
        zeroPad_two lt, append_assoc]
      rfl
    · rw [digitChar_eq d, toDigits_of_lt_base d]
      rfl
    · have lt : value < 100 := by omega
      rw [(fmtDigit_pair lt).1, (fmtDigit_pair lt).2,
        toDigits_of_base_le (by decide) (by omega), toDigits_of_lt_base (by omega)]
      rfl

@[simp] theorem formatUnsigned_eq (v : Nat) (ptr : List Char) :
    formatUnsigned v ptr = toDigits 10 v ++ ptr :=
  formatPairs_eq (lt_succ_self v) ptr

theorem formatGroups_eq (enough : value < fuel) (ptr : List Char) :
    formatGroups fuel value ptr = toDigits 10 value ++ ptr := by
  induction fuel generalizing value ptr with
  | zero => omega
  | succ fuel ih =>
    rw [formatGroups]
    split_ifs with large
    · have few := mod_lt value (show 10 ^ 17 > 0 by decide)
      have split : value = 10 ^ 17 * (value / 10 ^ 17) + value % 10 ^ 17 := (div_add_mod _ _).symm
      rw [ih (by omega), formatUnsigned_eq, append_nil, ← append_assoc]
      conv_rhs => rw [split, toDigits_mul_pow_add (by omega) (by decide) few]
    · exact formatUnsigned_eq value ptr

@[simp] theorem formatUnsignedHuge_eq (v : Nat) (ptr : List Char) :
    formatUnsignedHuge v ptr = toDigits 10 v ++ ptr :=
  formatGroups_eq (lt_succ_self v) ptr

/-! ## The announced length -/

theorem lengthFrom_of_reached (le : 10 ^ (length + steps) ≤ value) :
    lengthFrom length steps value = length + steps := by
  induction steps with
  | zero => rfl
  | succ steps ih =>
    have old : 10 ^ (length + steps) ≤ value :=
      (Nat.pow_le_pow_right (by decide) (le_succ _)).trans le
    rw [lengthFrom, if_pos old, ih old, add_assoc]

theorem lengthFrom_eq (lower : 10 ^ length ≤ value ∨ length = 0)
    (upper : value < 10 ^ (length + 1 + steps)) :
    lengthFrom (length + 1) steps value = (toDigits 10 value).length := by
  induction steps with
  | zero => exact (length_toDigits_eq lower upper).symm
  | succ steps ih =>
    rw [lengthFrom]
    split_ifs with hr
    · rw [length_toDigits_eq (.inl hr) upper, lengthFrom_of_reached hr]
    · omega

theorem lengthEight_eq (lt : value < 2 ^ 64) :
    unsignedLength.lengthEight value = (toDigits 10 value).length := by
  unfold unsignedLength.lengthEight
  split_ifs
  · exact lengthFrom_eq (by omega) (by omega)
  · exact lengthFrom_eq (by omega) (by omega)
  · exact lengthFrom_eq (by omega) (by omega)
  · exact lengthFrom_eq (.inr rfl) (by omega)

theorem unsignedLength_eq (w : IntegerWidth) (lt : value < 2 ^ (8 * w.bytes)) :
    unsignedLength w value = (toDigits 10 value).length := by
  cases w with
  | one | two => exact lengthFrom_eq (.inr rfl) (lt.trans (by decide))
  | four =>
    rw [unsignedLength]
    split_ifs
    · exact lengthFrom_eq (.inl (by omega)) (lt.trans (by decide))
    · exact lengthFrom_eq (.inr rfl) (by omega)
  | eight => exact lengthEight_eq lt
  | sixteen =>
    have lt : value < 2 ^ 128 := lt
    rw [unsignedLength]
    split_ifs
    · exact lengthEight_eq ‹_›
    all_goals exact lengthFrom_eq (.inl (by omega)) (by omega)

/-- The text of a number. -/
def numberText (value : Int) : List Char := signText (value < 0) ++ Nat.toDigits 10 value.natAbs

theorem toNat_xor_sign (v : t.Value) : ((v ^^^ (if decide (t.toInt v < 0) then -1 else 0)) +
      if decide (t.toInt v < 0) then 1 else 0).toNat = (t.toInt v).natAbs := by
  by_cases neg : t.toInt v < 0
  · have signed : t.signed = true := by
      by_contra unsigned
      rw [IntegerType.toInt, if_neg unsigned] at neg
      omega
    rw [IntegerType.toInt, if_pos signed, BitVec.toInt_eq_toNat_cond] at neg ⊢
    have opposite : (v ^^^ (-1 : t.Value)) + 1 = -v := by
      rw [show (-1 : t.Value) = BitVec.allOnes t.bits from BitVec.neg_one_eq_allOnes,
        BitVec.xor_allOnes]
      exact (BitVec.neg_eq_not_add v).symm
    rw [if_pos (decide_eq_true neg), if_pos (decide_eq_true neg), opposite, BitVec.toNat_neg]
    split_ifs at neg ⊢
    · omega
    · rw [mod_eq_of_lt (by omega)]
      omega
  · have nonneg : (t.toInt v) = v.toNat := by
      unfold IntegerType.toInt at neg ⊢
      split_ifs at neg ⊢
      · rw [BitVec.toInt_eq_toNat_cond] at neg ⊢
        split_ifs at neg ⊢
        · rfl
        · omega
      · rfl
    have same : (v ^^^ (0 : t.Value)) + 0 = v := by
      rw [show v ^^^ (0 : t.Value) = v from BitVec.xor_zero]
      exact BitVec.add_zero _
    rw [if_neg (by simpa using neg), if_neg (by simpa using neg), same, nonneg]
    rfl

theorem formatSignedSmall_spec (v : t.Value) :
    (formatSignedSmall t v).text = numberText (t.toInt v) ∧
      (formatSignedSmall t v).length = (formatSignedSmall t v).text.length := by
  have magnitude := toNat_xor_sign v
  have lt : (t.toInt v).natAbs < 2 ^ (8 * t.width.bytes) := magnitude ▸ BitVec.isLt _
  unfold formatSignedSmall
  dsimp only
  rw [magnitude, formatUnsigned_eq, append_nil, unsignedLength_eq t.width lt]
  exact ⟨rfl, by rw [length_append, add_comm]⟩

theorem formatSignedHuge_spec {v : Int} (lower : -2 ^ 127 ≤ v) (upper : v < 2 ^ 127) :
    (formatSignedHuge v).text = numberText v ∧
      (formatSignedHuge v).length = (formatSignedHuge v).text.length := by
  unfold formatSignedHuge
  split_ifs with least
  · subst least
    exact ⟨by decide, rfl⟩
  · dsimp only
    rw [formatUnsigned_eq, formatUnsignedHuge_eq, ite_self, append_nil, unsignedLength_eq]
    · exact ⟨rfl, by rw [length_append, add_comm]⟩
    · have huge : v.natAbs < 2 ^ 128 := by omega
      exact huge

theorem signedLength_eq {w : IntegerWidth} {v : Int} (lt : v.natAbs < 2 ^ (8 * w.bytes)) :
    signedLength w v = (numberText v).length := by
  rw [signedLength, unsignedLength_eq w lt, numberText, length_append, add_comm]

end NumericHelper

namespace DecimalToString

open NumericHelper

/-- The text of a decimal: the digits before the point are left out if there are none. -/
def decimalText (value : Int) (width scale : Nat) : List Char := signText (value < 0) ++
    if scale = 0 then Nat.toDigits 10 value.natAbs
    else (if scale < width then Nat.toDigits 10 (value.natAbs / 10 ^ scale) else []) ++
      '.' :: zeroPad scale (Nat.toDigits 10 (value.natAbs % 10 ^ scale))

theorem formatDecimal_eq (sto : IntegerWidth) (v : Int) (w sc : Nat) :
    formatDecimal sto v w sc = decimalText v w sc := by
  have same (n : Nat) (ptr : List Char) :
      (if sto = .sixteen then formatUnsignedHuge else formatUnsigned) n ptr =
        toDigits 10 n ++ ptr := by
    split <;> simp
  unfold formatDecimal decimalText
  split_ifs <;> simp

theorem decimalLength_eq_max {v : Int} (lt : v.natAbs < 2 ^ (8 * storage.bytes)) (pos : sc ≠ 0) :
    decimalLength storage v w sc = (signText (v < 0)).length +
      max (sc + if sc < w then 2 else 1) ((toDigits 10 v.natAbs).length + 1) := by
  unfold decimalLength
  rw [if_neg pos, signedLength_eq lt, unsignedLength_eq storage lt, numberText, length_append]
  split_ifs <;> omega

/-- A decimal is written with the announced number of characters. -/
theorem decimalLength_eq {v : Int} (fits : 10 ^ w ≤ 2 ^ (8 * storage.bytes))
    (le : sc ≤ w) (lt : v.natAbs < 10 ^ w) :
    decimalLength storage v w sc = (decimalText v w sc).length := by
  have few := lt.trans_le fits
  by_cases full : sc = 0
  · rw [decimalLength, decimalText, if_pos full, if_pos full, signedLength_eq few]
    rfl
  · have power : 0 < 10 ^ sc := Nat.pow_pos (by decide)
    have rest := mod_lt v.natAbs power
    have pos := pos_of_ne_zero full
    have minor := length_zeroPad (length_toDigits_le pos rest)
    rw [decimalLength_eq_max few full, decimalText, if_neg full, length_append,
      length_append, length_cons, minor]
    congr 1
    by_cases major : v.natAbs / 10 ^ sc = 0
    · have lo : v.natAbs < 10 ^ sc := lt_of_div_eq_zero power major
      have hsh := length_toDigits_le pos lo
      rw [major]
      split_ifs
      · rw [toDigits_zero, length_singleton]
        omega
      · rw [length_nil]
        omega
    · have split := toDigits_mul_pow_add (pos_of_ne_zero major) pos rest
      rw [div_add_mod] at split
      have old : sc < w := by
        by_contra equal
        have : sc = w := by omega
        exact major (div_eq_of_lt (this ▸ lt))
      have some := (@length_toDigits_pos 10 (v.natAbs / 10 ^ sc))
      rw [if_pos old, if_pos old, split, length_append, minor]
      omega

end DecimalToString

end AccessPath
