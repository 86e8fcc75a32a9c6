import AccessPath.Numeric.IntegerCast

/-!
# Reading `hugeint_t`

Digits are collected in an `int64_t` that is flushed into the result when it is full, so
that there are few multiplications of 128 bits.
-/

namespace AccessPath

open Library Option Nat Bool

namespace Hugeint

def minimum : Int := -2 ^ 127

def maximum : Int := 2 ^ 127 - 1

/-- `TryAddInPlace` and `TrySubtractInPlace`. -/
def checked (x : Int) : Option Int := if minimum ≤ x ∧ x ≤ maximum then some x else none

/-- `TryMultiply` multiplies magnitudes, except for the minimum, which has none. -/
def tryMultiply (x y : Int) : Option Int := if x = minimum ∨ y = minimum then
    if x = 0 ∨ y = 0 then some 0
    else if x = 1 ∨ y = 1 then some minimum
    else none
  else if (x * y).natAbs < 2 ^ 127 then some (x * y)
  else none

end Hugeint

/-- `HugeIntCastData<hugeint_t, Hugeint, int64_t>`. -/
structure HugeIntCastData where
  result : Int
  intermediate : Int
  digits : Nat
  decimal : Int
  decimalTotalDigits : Nat
  decimalIntermediate : Int
  decimalIntermediateDigits : Nat
deriving DecidableEq

namespace HugeIntCastData

/-- The state at the start. -/
def zero : HugeIntCastData := ⟨0, 0, 0, 0, 0, 0, 0⟩

/-- Append digits to a number, as both `Flush` and `FlushDecimal` do. -/
def appendDigits (number added : Int) (digits : Nat) : Option Int := if number ≠ 0 then
    if 38 < digits then none
    else (Hugeint.tryMultiply number (10 ^ digits)).bind fun shifted =>
      Hugeint.checked (shifted + added)
  else Hugeint.checked (number + added)

def flush (state : HugeIntCastData) : Option HugeIntCastData :=
  if state.digits = 0 ∧ state.intermediate = 0 then some state
  else (appendDigits state.result state.intermediate state.digits).map fun result =>
    { state with result, digits := 0, intermediate := 0 }

def flushDecimal (state : HugeIntCastData) : Option HugeIntCastData :=
  if state.decimalIntermediateDigits = 0 ∧ state.decimalIntermediate = 0 then some state
  else
    (appendDigits state.decimal state.decimalIntermediate state.decimalIntermediateDigits).map
      fun decimal => { state with
          decimal
          decimalTotalDigits := (state.decimalTotalDigits + state.decimalIntermediateDigits) % 65536
          decimalIntermediateDigits := 0
          decimalIntermediate := 0 }

/-- There is no room for another digit. -/
def full (negative : Bool) (state : HugeIntCastData) (digit : Nat) : Bool :=
  if negative then state.intermediate < (-2 ^ 63 + digit : Int).tdiv 10
  else (2 ^ 63 - 1 - digit : Int).tdiv 10 < state.intermediate

def handleDigit (negative : Bool) (state : HugeIntCastData) (digit : Nat) :
    Option HugeIntCastData :=
  (if state.full negative digit then state.flush else some state).map fun state =>
  { state with
    intermediate :=
      if negative then state.intermediate * 10 - digit else state.intermediate * 10 + digit
    digits := (state.digits + 1) % 256 }

def handleDecimal (state : HugeIntCastData) (digit : Nat) : Option HugeIntCastData := do
  let state ← state.flush
  let state ←
    if (2 ^ 63 - 1 - digit : Int).tdiv 10 < state.decimalIntermediate then state.flushDecimal
    else some state
  some { state with
    decimalIntermediate := state.decimalIntermediate * 10 + digit
    decimalIntermediateDigits := (state.decimalIntermediateDigits + 1) % 65536 }

/-- An entry of `POWERS_OF_TEN`; there is none after the 39th, and what is read there instead
is not known. -/
def powerOfTen (beyond : Int) (index : Nat) : Int := if index ≤ 38 then 10 ^ index else beyond

/-- The loop of `Finalize`, in at most `fuel` rounds. -/
def cutDecimal (beyond : Int) : Nat → Int → Nat → Int × Nat
  | 0, decimal, digits => (decimal, digits)
  | fuel + 1, decimal, digits =>
    if 39 < digits then cutDecimal beyond fuel (decimal.tdiv (powerOfTen beyond 39)) (digits - 39)
    else (decimal, digits)

def finalize (beyond : Int) (negative : Bool) (state : HugeIntCastData) :
    Option HugeIntCastData := do
  let state ← state.flush
  let state ← state.flushDecimal
  if state.decimal = 0 ∨ state.decimalTotalDigits = 0 then some state
  else
    let (decimal, digits) :=
      cutDecimal beyond state.decimalTotalDigits state.decimal state.decimalTotalDigits
    let decimal := decimal.tdiv (powerOfTen beyond (digits - 1))
    let result ← if 5 ≤ decimal then
        Hugeint.checked (if negative then state.result - 1 else state.result + 1)
      else some state.result
    some { state with result, decimal, decimalTotalDigits := digits }

def handleExponent (beyond : Int) (negative : Bool) (state : HugeIntCastData) (exponent : Int) :
    Option HugeIntCastData := do
  let state ← state.flush
  if exponent < -38 then some { state with result := 0 }
  else if exponent < 0 then
    let power : Int := 10 ^ exponent.natAbs
    finalize beyond negative { state with
      result := state.result.tdiv power
      decimal := (state.result.tmod power).natAbs
      decimalTotalDigits := exponent.natAbs
      decimalIntermediate := 0
      decimalIntermediateDigits := 0 }
  else do
    let result ← if state.result = 0 then some 0
      else if 38 < exponent then none
      else Hugeint.tryMultiply state.result (10 ^ exponent.toNat)
    let state ← { state with result }.flushDecimal
    if state.decimal = 0 then finalize beyond negative state
    else
      let e := exponent - state.decimalTotalDigits
      let (decimal, remainder, digits) ← if e < 0 then
          let power := powerOfTen beyond e.natAbs
          some (state.decimal.tdiv power, state.decimal.tmod power,
            ((state.decimalTotalDigits - exponent) % 65536).toNat)
        else if 38 < e then none
        else (Hugeint.tryMultiply state.decimal (10 ^ e.toNat)).map fun decimal =>
          (decimal, (0 : Int), state.decimalTotalDigits)
      let result ← Hugeint.checked (if negative then state.result - decimal else
        state.result + decimal)
      finalize beyond negative
        { state with result, decimal := remainder, decimalTotalDigits := digits }

end HugeIntCastData

def hugeIntegerCastOperation (beyond : Int) : CastOperation HugeIntCastData where
  handleDigit := HugeIntCastData.handleDigit
  handleHexDigit _ _ := none
  handleBinaryDigit _ _ := none
  handleExponent := HugeIntCastData.handleExponent beyond
  handleDecimal _ _ := HugeIntCastData.handleDecimal
  finalize := HugeIntCastData.finalize beyond

/-- `TryCast` from a text to `hugeint_t`. -/
def tryHugeintCast (beyond : Int) (strict : Bool) (text : List Char) : Option Int :=
  (tryIntegerCast (hugeIntegerCastOperation beyond) true true strict '.' .zero text).map
    HugeIntCastData.result

/-! ## Digits -/

namespace HugeIntCastData

/-- The largest magnitude. -/
def limit (negative : Bool) : Nat := if negative then 2 ^ 127 else 2 ^ 127 - 1

/-- The state stands for a number, of which it has flushed the higher digits. -/
structure Stands (negative : Bool) (state : HugeIntCastData) (number count high low : Nat) :
    Prop where
  result : state.result = withSign negative high
  intermediate : state.intermediate = withSign negative low
  number : high * 10 ^ state.digits + low = number
  low_lt : low < 10 ^ state.digits
  digits : state.digits ≤ count
  decimal : state.decimal = 0
  decimalIntermediate : state.decimalIntermediateDigits = 0 ∧ state.decimalIntermediate = 0

variable {neg : Bool} {st : HugeIntCastData} {num n high low : Nat}

theorem stands_zero (neg : Bool) : Stands neg zero 0 0 0 0 := by
  cases neg <;> exact ⟨rfl, rfl, rfl, one_pos, le_refl _, rfl, rfl, rfl⟩

theorem checked_withSign (fits : num ≤ limit neg) :
    Hugeint.checked (withSign neg num) = some (withSign neg num) := by
  apply if_pos
  unfold withSign Hugeint.minimum Hugeint.maximum
  unfold limit at fits
  cases neg <;> simp only [false_eq_true, if_true, if_false] at fits ⊢ <;> omega

theorem withSign_add (neg : Bool) (m n : Nat) :
    withSign neg m + withSign neg n = withSign neg (m + n) := by
  cases neg with
  | false => simp [withSign]
  | true =>
    simp only [withSign, if_true, cast_add]
    ring

theorem mul_pow_ne {ds : Nat} (pos : 0 < ds) (high : Nat) : high * 10 ^ ds ≠ 2 ^ 127 := by
  obtain ⟨_, rfl⟩ := exists_eq_add_one_of_ne_zero pos.ne'
  rw [pow_succ, ← mul_assoc]
  omega

section

variable (ok : Stands neg st num n high low)
include ok

theorem Stands.append (fits : num ≤ limit neg) (some : 0 < st.digits) :
    appendDigits st.result st.intermediate st.digits = Option.some (withSign neg num) := by
  have full := ok.number
  unfold appendDigits
  rw [ok.result, ok.intermediate]
  by_cases emp : high = 0
  · have zero : withSign neg high = 0 := by
      rw [emp]
      cases neg <;> rfl
    rw [if_neg (not_not.mpr zero), withSign_add, emp, zero_add]
    rw [emp, zero_mul, zero_add] at full
    rw [full]
    exact checked_withSign fits
  · have nonzero : withSign neg high ≠ 0 := by
      cases neg <;> simp [withSign, emp]
    have hb : high * 10 ^ st.digits ≤ 2 ^ 127 := by
      have : limit neg ≤ 2 ^ 127 := by cases neg <;> decide
      omega
    have few : ¬ 38 < st.digits := by
      intro many
      have power := Nat.pow_le_pow_right (show 0 < 10 by decide) many
      have := mul_le_mul (one_le_iff_ne_zero.mpr emp) power
      omega
    have product : (withSign neg high * 10 ^ st.digits) = withSign neg (high * 10 ^ st.digits) := by
      cases neg <;> simp [withSign]
    have less : high * 10 ^ st.digits < 2 ^ 127 := hb.lt_of_ne (mul_pow_ne some high)
    have notMinimum : ¬ (withSign neg high = Hugeint.minimum ∨
        (10 ^ st.digits : Int) = Hugeint.minimum) := by
      have one := Nat.le_mul_of_pos_right high (Nat.pow_pos (show 0 < 10 by decide) :
        0 < 10 ^ st.digits)
      have pos : (0 : Int) < 10 ^ st.digits := by positivity
      unfold withSign Hugeint.minimum
      cases neg <;> simp only [false_eq_true, if_true, if_false] <;> omega
    have magnitude : (withSign neg (high * 10 ^ st.digits)).natAbs < 2 ^ 127 := by
      unfold withSign
      cases neg <;> simp only [false_eq_true, if_true, if_false] <;> omega
    rw [if_pos nonzero, if_neg few, Hugeint.tryMultiply, if_neg notMinimum, product,
      if_pos magnitude, bind_some, withSign_add, full]
    exact checked_withSign fits

theorem Stands.flush (fits : num ≤ limit neg) :
    ∃ st', st.flush = some st' ∧ Stands neg st' num n num 0 ∧ st'.digits = 0 := by
  unfold HugeIntCastData.flush
  split_ifs with emp
  · have hno : low = 0 := by
      have := ok.low_lt
      rw [emp.1] at this
      omega
    have same : high = num := by
      have := ok.number
      rw [emp.1, hno] at this
      omega
    rw [hno, same] at ok
    exact ⟨st, rfl, ok, emp.1⟩
  · have some : 0 < st.digits := by
      by_contra none
      have zero : st.digits = 0 := by omega
      have low_lt := ok.low_lt
      rw [zero] at low_lt
      have hno : low = 0 := by omega
      exact emp ⟨zero, by rw [ok.intermediate, hno]; cases neg <;> rfl⟩
    rw [ok.append fits some]
    refine ⟨_, rfl, ⟨rfl, ?_, ?_, one_pos, zero_le _, ok.decimal, ok.decimalIntermediate⟩, rfl⟩
    · cases neg <;> rfl
    · simp

theorem Stands.handleDigit {d : Nat}
    (lt : d < 10) (fits : num * 10 + d ≤ limit neg) (room : n < 255) :
    ∃ st' high' low', st.handleDigit neg d = some st' ∧
      Stands neg st' (num * 10 + d) (n + 1) high' low' := by
  -- the digit after the flush, if there was one
  have add {st : HugeIntCastData} {high low : Nat} (ok : Stands neg st num n high low) :
      Stands neg { st with
        intermediate := if neg then st.intermediate * 10 - d
          else st.intermediate * 10 + d
        digits := (st.digits + 1) % 256 } (num * 10 + d) (n + 1) high (low * 10 + d) := by
    have wrap : (st.digits + 1) % 256 = st.digits + 1 := mod_eq_of_lt (by have := ok.digits; omega)
    have full := ok.number
    have less := ok.low_lt
    refine ⟨ok.result, ?_, ?_, ?_, ?_, ok.decimal, ok.decimalIntermediate⟩
    · dsimp only
      rw [ok.intermediate]
      cases neg with
      | false => simp [withSign]
      | true =>
        simp only [withSign, if_true]
        push_cast
        ring
    · dsimp only
      rw [wrap, pow_succ, ← full]
      ring
    · dsimp only
      rw [wrap, pow_succ]
      omega
    · dsimp only
      rw [wrap]
      exact succ_le_succ ok.digits
  unfold HugeIntCastData.handleDigit
  cases st.full neg d with
  | true =>
    obtain ⟨_, done, pos', -⟩ := ok.flush (by omega)
    rw [if_pos rfl, done]
    exact ⟨_, _, _, rfl, add pos'⟩
  | false => exact ⟨_, _, _, rfl, add ok⟩

end

theorem Stands.handleDigits {lim : Int} {s : List Char} (ds : Digits s)
    (pos : Stands neg st num n high low) (fits : 10 ^ s.length * num + digitsValue s ≤ limit neg)
    (room : n + s.length < 256) :
    ∃ st' high' low', AccessPath.handleDigits (hugeIntegerCastOperation lim) neg s
        st = some st' ∧ Stands neg st' (10 ^ s.length * num + digitsValue s)
        (n + s.length) high' low' := by
  induction s generalizing st num n high low with
  | nil =>
    refine ⟨st, high, low, rfl, ?_⟩
    simpa using pos
  | cons c s ih =>
    obtain ⟨d, ho⟩ := digits_cons_iff.mp ds
    have eq : 10 ^ (c :: s).length * num + digitsValue (c :: s) =
        10 ^ s.length * (num * 10 + digitValue c) + digitsValue s := by
      rw [digitsValue_cons, List.length_cons, pow_succ]
      ring
    have power := one_le_pow s.length 10 (by decide)
    rw [eq] at fits ⊢
    rw [List.length_cons] at room ⊢
    obtain ⟨_, _, _, handled, stands₁⟩ :=
      pos.handleDigit (digitValue_lt d) (by nlinarith) (by omega)
    obtain ⟨state₂, high₂, low₂, done, stands₂⟩ := ih ho stands₁ fits (by omega)
    refine ⟨state₂, high₂, low₂, ?_, ?_⟩
    · rw [AccessPath.handleDigits, List.foldlM_cons]
      exact (congrArg (Option.bind · _) handled).trans done
    · have count_eq : n + 1 + s.length = n + (s.length + 1) := by omega
      exact count_eq ▸ stands₂

theorem Stands.finalize {lim : Int} (pos : Stands neg st num n high low)
    (fits : num ≤ limit neg) : ∃ st', st.finalize lim neg = some st' ∧
      st'.result = withSign neg num := by
  obtain ⟨hfl, done, pos', -⟩ := pos.flush fits
  have decimals : hfl.flushDecimal = some hfl := if_pos pos'.decimalIntermediate
  refine ⟨hfl, ?_, pos'.result⟩
  rw [HugeIntCastData.finalize, done, bind_eq_bind, bind_some, decimals,
    bind_eq_bind, bind_some, if_pos (.inl pos'.decimal)]

end HugeIntCastData

end AccessPath
