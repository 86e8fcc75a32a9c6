import AccessPath.Numeric.IntegerCast

/-!
# Reading decimals

`TryDecimalStringCast` collects the digits before and after the point in one number. It
counts the digits before the point and keeps more decimals than the type has, in case an
exponent follows.
-/

namespace AccessPath

open Library List Nat

variable {digit k m n : Nat}

inductive ExponentType where
  | none
  | positive
  | negative
deriving DecidableEq

structure DecimalCastData where
  result : Int
  width : Nat
  scale : Nat
  digitCount : Nat
  decimalCount : Nat
  roundSet : Bool
  shouldRound : Bool
  excessiveDecimals : Nat
  exponentType : ExponentType
deriving DecidableEq

/-- `DecimalWidth<T>::max`; there are no decimals with one byte. -/
def decimalMaxWidth : IntegerWidth → Nat
  | .one => 0
  | .two => 4
  | .four => 9
  | .eight => 18
  | .sixteen => 38

namespace DecimalCastData

variable (storage : IntegerWidth)

/-- The state at the start. -/
def start (width scale : Nat) : DecimalCastData := ⟨0, width, scale, 0, 0, false, false, 0, .none⟩

/-- A number with one more digit. -/
def append (negative : Bool) (number : Int) (digit : Nat) : Int :=
  if negative then number * 10 - digit else number * 10 + digit

def handleDigit (negative : Bool) (state : DecimalCastData) (digit : Nat) :
    Option DecimalCastData :=
  if state.result = 0 ∧ digit = 0 then some state
  else if state.digitCount = state.width - state.scale then none
  else if (if negative then state.result < (IntegerType.mk true storage).minimum.tdiv 10
    else (IntegerType.mk true storage).maximum.tdiv 10 < state.result) then none
  else some { state with
    digitCount := state.digitCount + 1, result := append negative state.result digit }

def roundUpResult (negative : Bool) (state : DecimalCastData) : DecimalCastData :=
  { state with result := if negative then state.result - 1 else state.result + 1 }

/-- The digit that was cut off last rounds up. -/
def roundsUp (negative : Bool) (mod : Int) : Bool := if negative then mod ≤ -5 else 5 ≤ mod

/-- Cut off digits; the flag is for the last one. -/
def cut (negative : Bool) : Nat → Int → Bool → Int × Bool
  | 0, number, up => (number, up)
  | n + 1, number, _ => cut negative n (number.tdiv 10) (roundsUp negative (number.tmod 10))

/-- Cut off digits until there are none left. -/
def cutUntilZero (negative : Bool) : Nat → Int → Bool → Int × Bool
  | 0, number, up => (number, up)
  | n + 1, number, _ =>
    let up := roundsUp negative (number.tmod 10)
    if number.tdiv 10 = 0 then (0, up) else cutUntilZero negative n (number.tdiv 10) up

def truncateExcessiveDecimals (negative : Bool) (state : DecimalCastData) : DecimalCastData :=
  let (result, up) := cut negative state.excessiveDecimals state.result false
  let state := { state with result }
  let state := if state.exponentType = .positive ∧ up then state.roundUpResult negative else state
  { state with decimalCount := state.scale }

/-- The decimals that are in excess without a positive exponent. -/
def setExcessive (state : DecimalCastData) : DecimalCastData :=
  if state.exponentType ≠ .positive ∧ state.scale < state.decimalCount then
    { state with excessiveDecimals := state.decimalCount - state.scale }
  else state

/-- `Finalize`, which never fails. -/
def finalize (negative : Bool) (state : DecimalCastData) : DecimalCastData :=
  let state := state.setExcessive
  let state :=
    if state.excessiveDecimals ≠ 0 then state.truncateExcessiveDecimals negative else state
  let state := if state.exponentType = .none ∧ state.roundSet ∧ state.shouldRound then
      state.roundUpResult negative
    else state
  { state with result := state.result * 10 ^ (state.scale - state.decimalCount) }

/-- Append zeros. -/
def appendZeros (negative : Bool) : Nat → DecimalCastData → Option DecimalCastData
  | 0, state => some state
  | n + 1, state => (state.handleDigit storage negative 0).bind (appendZeros negative n)

def handleExponent (negative : Bool) (state : DecimalCastData) (exponent : Int) :
    Option DecimalCastData :=
  let excess := state.decimalCount - state.scale
  if 0 < exponent then
    if exponent < excess then
      some ({ state with
        exponentType := .positive
        excessiveDecimals := excess - exponent.toNat }.finalize negative)
    else
      appendZeros storage negative (exponent.toNat - excess)
        ({ state with exponentType := .positive }.finalize negative)
  else if exponent < 0 then
    let state := { state with exponentType := .negative }.finalize negative
    let (result, up) := cutUntilZero negative exponent.natAbs state.result false
    let state := { state with result }
    some (if up then state.roundUpResult negative else state)
  else some (state.finalize negative)

/-- The first decimal after those of the type decides whether to round. -/
def setRound (state : DecimalCastData) (digit : Nat) : DecimalCastData :=
  if state.decimalCount = state.scale ∧ !state.roundSet then
    { state with roundSet := true, shouldRound := 5 ≤ digit }
  else state

def handleDecimal (negative allowExponent : Bool) (state : DecimalCastData) (digit : Nat) :
    DecimalCastData :=
  let state := state.setRound digit
  if !allowExponent ∧ state.decimalCount = state.scale then state
  else if decimalMaxWidth storage ≤ state.digitCount + state.decimalCount then state
  else { state with
    decimalCount := state.decimalCount + 1, result := append negative state.result digit }

end DecimalCastData

def decimalCastOperation (storage : IntegerWidth) : CastOperation DecimalCastData where
  handleDigit := DecimalCastData.handleDigit storage
  handleHexDigit _ _ := none
  handleBinaryDigit _ _ := none
  handleExponent := DecimalCastData.handleExponent storage
  handleDecimal negative allowExponent state digit :=
    some (state.handleDecimal storage negative allowExponent digit)
  finalize negative state := some (state.finalize negative)

def tryDecimalStringCast (storage : IntegerWidth) (width scale : Nat) (text : List Char) :
    Option Int :=
  (tryIntegerCast (decimalCastOperation storage) true true false '.' (.start width scale)
    text).map DecimalCastData.result

/-! ## Digits and decimals -/

/-- The number of digits without zeros in front; zero has none. -/
def digitLength (n : Nat) : Nat := (Nat.digits 10 n).length

theorem digitLength_le_iff : digitLength n ≤ k ↔ n < 10 ^ k := digits_length_le_iff (by decide) n

theorem digitLength_append (lt : digit < 10) (some : m * 10 + digit ≠ 0) :
    digitLength (m * 10 + digit) = digitLength m + 1 := by
  have pos : 0 < m * 10 + digit := pos_of_ne_zero some
  have cut : (m * 10 + digit) / 10 = m := by omega
  rw [digitLength, digits_def' (by decide) pos, length_cons, cut]
  rfl

/-- A type for decimals, with a storage type that is wide enough. -/
structure DecimalType where
  storage : IntegerWidth
  width : Nat
  scale : Nat
  scale_le : scale ≤ width
  width_le : width ≤ decimalMaxWidth storage

namespace DecimalType

variable (type : DecimalType)

/-- The number of digits before the point. -/
def wholeDigits : Nat := type.width - type.scale

theorem pow_le_limits (sto : IntegerWidth) (less : k < decimalMaxWidth sto) :
    (10 : Int) ^ k ≤ (IntegerType.mk true sto).maximum.tdiv 10 ∧
      (IntegerType.mk true sto).minimum.tdiv 10 ≤ -10 ^ k := by
  have bounded (n : Nat) (le : k ≤ n) {low high : Int} (top : 10 ^ n ≤ high)
      (bottom : low ≤ -10 ^ n) : (10 : Int) ^ k ≤ high ∧ low ≤ -10 ^ k :=
    have power := pow_le_pow_right₀ (by decide) le
    ⟨power.trans top, bottom.trans (neg_le_neg power)⟩
  cases sto with
  | one => exact absurd less (not_lt_zero k)
  | two => exact bounded 3 (le_of_lt_succ less) (by decide) (by decide)
  | four => exact bounded 8 (le_of_lt_succ less) (by decide) (by decide)
  | eight => exact bounded 17 (le_of_lt_succ less) (by decide) (by decide)
  | sixteen => exact bounded 37 (le_of_lt_succ less) (by decide) (by decide)

end DecimalType

theorem append_withSign (neg : Bool) (n d : Nat) :
    DecimalCastData.append neg (withSign neg n) d = withSign neg (n * 10 + d) := by
  unfold DecimalCastData.append withSign
  cases neg with
  | false => simp
  | true =>
    simp only [if_true]
    push_cast
    ring

namespace DecimalCastData

variable {type : DecimalType} {neg : Bool}

/-- The state after the digits before the point. -/
def afterWhole (type : DecimalType) (negative : Bool) (n : Nat) : DecimalCastData :=
  { start type.width type.scale with result := withSign negative n, digitCount := digitLength n }

theorem handleDigit_afterWhole (le : m ≤ 10 ^ type.wholeDigits - 1) (lt : digit < 10) :
    (afterWhole type neg m).handleDigit type.storage neg digit =
      if m * 10 + digit ≤ 10 ^ type.wholeDigits - 1 then
        some (afterWhole type neg (m * 10 + digit))
      else none := by
  have power : 0 < 10 ^ type.wholeDigits := Nat.pow_pos (by decide)
  have length : digitLength m ≤ type.wholeDigits := digitLength_le_iff.mpr (by omega)
  unfold handleDigit
  by_cases leading : m = 0 ∧ digit = 0
  · obtain ⟨rfl, rfl⟩ := leading
    rw [if_pos ⟨withSign_eq_zero.mpr rfl, rfl⟩, if_pos (zero_le _)]
  · have some : m * 10 + digit ≠ 0 := by omega
    have longer := digitLength_append lt some
    rw [if_neg fun zero => leading ⟨withSign_eq_zero.mp zero.1, zero.2⟩]
    change (if digitLength m = type.wholeDigits then none
      else if (if neg then
          withSign neg m < (IntegerType.mk true type.storage).minimum.tdiv 10
        else (IntegerType.mk true type.storage).maximum.tdiv 10 < withSign neg m) then none
      else Option.some _) = _
    by_cases full : digitLength m = type.wholeDigits
    · have hb : ¬ m * 10 + digit ≤ 10 ^ type.wholeDigits - 1 := by
        intro fits
        have := digitLength_le_iff.mpr (show m * 10 + digit < 10 ^ type.wholeDigits by omega)
        omega
      rw [if_pos full, if_neg hb]
    · have fits : m * 10 + digit < 10 ^ type.wholeDigits := digitLength_le_iff.mp (by omega)
      have small_m : m < 10 ^ (type.wholeDigits - 1) := digitLength_le_iff.mp (by omega)
      have bounds := DecimalType.pow_le_limits type.storage (k := type.wholeDigits - 1) (by
        have := type.width_le
        unfold DecimalType.wholeDigits at *
        omega)
      have cast : (m : Int) < 10 ^ (type.wholeDigits - 1) := by exact_mod_cast small_m
      have room : ¬ (if neg then
          withSign neg m < (IntegerType.mk true type.storage).minimum.tdiv 10
          else (IntegerType.mk true type.storage).maximum.tdiv 10 < withSign neg m) := by
        cases neg <;> simp only [withSign, Bool.false_eq_true, if_true, if_false] <;> omega
      rw [if_neg full, if_neg room, if_pos (by omega)]
      simp only [afterWhole, append_withSign, longer]

/-- The digits before the point are accepted if there are not too many. -/
theorem handleDigits_decimal {text : List Char} (ds : Digits text) :
    handleDigits (decimalCastOperation type.storage) neg text (start type.width type.scale) =
      if digitsValue text < 10 ^ type.wholeDigits then
        some (afterWhole type neg (digitsValue text))
      else none := by
  have power : 0 < 10 ^ type.wholeDigits := Nat.pow_pos (by decide)
  have initial : start type.width type.scale = afterWhole type neg 0 := by
    cases neg <;> rfl
  have all := @handleDigits_eq text _ (decimalCastOperation type.storage) neg
    (afterWhole type neg) (10 ^ type.wholeDigits - 1)
    (fun m digit fit few => handleDigit_afterWhole fit few) ds 0 (zero_le _)
  rw [mul_zero, zero_add] at all
  rw [initial, all]
  congr 1
  exact propext (by omega)

/-- How many decimals are kept. -/
def keptDecimals (type : DecimalType) (n count : Nat) : Nat :=
  min count (decimalMaxWidth type.storage - digitLength n)

/-- The state after the digits and the decimals. -/
def afterDecimals (type : DecimalType) (negative : Bool) (n : Nat) (decimals : List Char) :
    DecimalCastData :=
  let kept := keptDecimals type n decimals.length
  { start type.width type.scale with
    result := withSign negative (n * 10 ^ kept + digitsValue (decimals.take kept))
    digitCount := digitLength n
    decimalCount := kept
    roundSet := type.scale < decimals.length
    shouldRound := (decimals[type.scale]?).any fun c => 5 ≤ digitValue c }

theorem scale_le_room (lt : n < 10 ^ type.wholeDigits) :
    type.scale ≤ decimalMaxWidth type.storage - digitLength n := by
  have length := digitLength_le_iff.mpr lt
  have bounds := type.width_le
  have scale := type.scale_le
  unfold DecimalType.wholeDigits at length
  omega

theorem setRound_afterDecimals (lt : n < 10 ^ type.wholeDigits) (ds : List Char)
    (c : Char) :
    (afterDecimals type neg n ds).setRound (digitValue c) =
    { afterDecimals type neg n ds with
      roundSet := type.scale < (ds ++ [c]).length
      shouldRound := ((ds ++ [c])[type.scale]?).any fun c => 5 ≤ digitValue c } := by
  have room := scale_le_room lt
  have count : (afterDecimals type neg n ds).decimalCount =
      min ds.length (decimalMaxWidth type.storage - digitLength n) := rfl
  have set : (afterDecimals type neg n ds).roundSet =
      decide (type.scale < ds.length) := rfl
  have scale : (afterDecimals type neg n ds).scale = type.scale := rfl
  unfold setRound
  rw [count, set, scale, length_append, length_singleton]
  rcases lt_trichotomy ds.length type.scale with less | heq | greater
  · rw [if_neg (by omega), getElem?_eq_none (by simp; omega)]
    simp only [afterDecimals, getElem?_eq_none less.le]
    congr 1
    simp only [decide_eq_decide]
    omega
  · rw [if_pos (by simp; omega), getElem?_append_right heq.le, heq, Nat.sub_self]
    simp [scale, count, heq]
  · rw [if_neg (by simp; omega), getElem?_append_left greater]
    simp only [afterDecimals]
    congr 1
    simp only [decide_eq_decide]
    omega

theorem handleDecimal_afterDecimals (lt : n < 10 ^ type.wholeDigits) (ds : List Char)
    (c : Char) : (afterDecimals type neg n ds).handleDecimal type.storage neg true
        (digitValue c) = afterDecimals type neg n (ds ++ [c]) := by
  unfold handleDecimal
  rw [setRound_afterDecimals lt]
  simp only [Bool.not_true, Bool.false_eq_true, false_and, if_false]
  by_cases full : decimalMaxWidth type.storage - digitLength n ≤ ds.length
  · have kept (k : Nat) (more : ds.length ≤ k) : keptDecimals type n k =
        decimalMaxWidth type.storage - digitLength n := by
      unfold keptDecimals
      omega
    have same : (ds ++ [c]).take (decimalMaxWidth type.storage - digitLength n) =
        ds.take (decimalMaxWidth type.storage - digitLength n) :=
      take_append_of_le_length full
    have longer : ds.length ≤ (ds ++ [c]).length := by simp
    simp only [afterDecimals, kept _ le_rfl, kept _ longer, same]
    rw [if_pos (by omega)]
  · have kept (k : Nat) (less : k ≤ ds.length + 1) : keptDecimals type n k = k := by
      unfold keptDecimals
      omega
    have longer : (ds ++ [c]).length = ds.length + 1 := by simp
    simp only [afterDecimals, longer, kept _ le_rfl, kept _ (le_succ _), append_withSign]
    rw [if_neg (by omega), take_length, take_of_length_le longer.le, digitsValue_concat]
    congr 2
    rw [pow_succ]
    ring

theorem handleDecimals_decimal (lt : n < 10 ^ type.wholeDigits) (ds : List Char) :
    handleDecimals (decimalCastOperation type.storage) neg true ds
        (afterWhole type neg n) = some (afterDecimals type neg n ds) := by
  induction ds using List.reverseRecOn with
  | nil =>
    have kept : keptDecimals type n 0 = 0 := zero_min _
    simp [handleDecimals, afterDecimals, afterWhole, kept, start]
  | append_singleton ds c ih =>
    rw [handleDecimals, foldlM_append]
    refine (congrArg (Option.bind · _) ih).trans ?_
    exact congrArg some (handleDecimal_afterDecimals lt ds c)

end DecimalCastData

end AccessPath
