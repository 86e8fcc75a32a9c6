import AccessPath.Temporal.TimestampText

/-!
# Times with an offset

A `dtime_tz_t` is a time of day and an offset in seconds, in one word of 64 bits. The offset
is written with hours, and with minutes and seconds if they are not zero.
-/

namespace AccessPath

open Library List Option Nat Bool

/-- `dtime_tz_t`: the time in the higher 40 bits, the offset in the lower 24. -/
structure TimeTz where
  bits : BitVec 64
deriving DecidableEq

namespace TimeTz

def maxOffset : Int := 16 * 60 * 60 - 1

def minOffset : Int := -maxOffset

def encodeOffset (offset : Int) : BitVec 64 := BitVec.ofInt 64 (maxOffset - offset)

def decodeOffset (bits : BitVec 64) : Int := maxOffset - (bits &&& (BitVec.allOnes 64 >>> 40)).toNat

def encodeMicros (micros : Nat) : BitVec 64 := BitVec.ofNat 64 micros <<< 24

def decodeMicros (bits : BitVec 64) : Nat := (bits >>> 24).toNat

/-- The constructor from a time and an offset. -/
def make (time : Nat) (offset : Int) : TimeTz := ⟨encodeMicros time ||| encodeOffset offset⟩

def time (value : TimeTz) : Nat := decodeMicros value.bits

def offset (value : TimeTz) : Int := decodeOffset value.bits

end TimeTz

/-! ## Writing -/

/-- Hours, minutes and seconds of an offset, as far as they are written. -/
def offsetText (negative : Bool) (hh mm ss : Nat) : List Char := (if negative then '-' else '+') ::
    ((if hh < 100 then TimeToStringCast.formatTwoDigits hh
      else NumericHelper.formatUnsigned hh []) ++
    ((if mm ≠ 0 then ':' :: TimeToStringCast.formatTwoDigits mm else []) ++
      if ss ≠ 0 then ':' :: TimeToStringCast.formatTwoDigits ss else []))

/-- `StringCastTZ::Operation` for a `dtime_tz_t`. -/
def stringCastTz (input : TimeTz) : List Char :=
  let ss := input.offset.natAbs
  Time.toString input.time ++
    offsetText (input.offset < 0) (ss / secsPerHour) (ss % secsPerHour / secsPerMinute)
      (ss % secsPerHour % secsPerMinute)

/-! ## Reading -/

namespace Time

/-- The seconds of an offset, which get the sign of hours and minutes. -/
def parseOffsetSeconds (offset : Int) : List Char → Option (Int × List Char)
  | ':' :: text =>
    (Date.parseDoubleDigit text).map fun (ss, text) =>
      (offset + if offset < 0 then -(ss : Int) else ss, text)
  | text => some (offset, text)

/-- The offset that comes after the time; without one it is zero. -/
def parseOffset (text : List Char) : Option (Int × List Char) := if text = [] then some (0, [])
  else do
    let (hh, mm, text) ← Timestamp.tryParseUtcOffset text
    parseOffsetSeconds ((hh * minsPerHour + mm) * secsPerMinute) text

/-- `TryConvertTimeTZ` after the time. -/
def readOffset (strict : Bool) (text : List Char) : Option Int := do
  let (offset, text) ← parseOffset (skipSpaces text)
  if offset < TimeTz.minOffset ∨ TimeTz.maxOffset < offset then none
  else if strict ∧ skipSpaces text ≠ [] then none
  else some offset

/-- The last chance of a text that is not a time. -/
def timeOfTimestamp (text : List Char) : Option TimeTz :=
  match Timestamp.tryConvertTimestamp text with
  | .ok timestamp =>
    if Timestamp.isFinite timestamp then some (.make (Timestamp.getTime timestamp).toNat 0)
    else none
  | .error _ => none

def tryConvertTimeTz (strict : Bool) (text : List Char) : Option TimeTz :=
  match tryConvertInternal false text with
  | none => if strict then none else timeOfTimestamp text
  | some (time, rest) => (readOffset strict rest).map (TimeTz.make time)

end Time

/-! ## The word -/

namespace TimeTz

section

variable {off : Int} (low : minOffset ≤ off) (high : off ≤ maxOffset) (t : Nat)
include low high t

theorem toNat_make : (make t off).bits.toNat =
      2 ^ 24 * (t % 2 ^ 40) + (maxOffset - off).toNat := by
  unfold minOffset at low
  unfold maxOffset at low high ⊢
  have lt : (16 * 60 * 60 - 1 - off).toNat < 2 ^ 24 := by omega
  have encoded : (encodeOffset off).toNat = (16 * 60 * 60 - 1 - off).toNat := by
    rw [encodeOffset, maxOffset, BitVec.toNat_ofInt]
    omega
  have micros : (encodeMicros t).toNat = (t % 2 ^ 40) <<< 24 := by
    rw [encodeMicros, BitVec.toNat_shiftLeft, BitVec.toNat_ofNat, shiftLeft_eq, shiftLeft_eq]
    omega
  rw [make, BitVec.toNat_or, encoded, micros, ← shiftLeft_add_eq_or_of_lt lt,
    shiftLeft_eq, mul_comm]

theorem time_make : (make t off).time = t % 2 ^ 40 := by
  have bits := toNat_make low high t
  unfold minOffset at low
  unfold maxOffset at low high bits
  rw [TimeTz.time, decodeMicros, BitVec.toNat_ushiftRight, bits, shiftRight_eq_div_pow]
  omega

theorem offset_make : (make t off).offset = off := by
  have bits := toNat_make low high t
  have mask : (BitVec.allOnes 64 >>> 40).toNat = 2 ^ 24 - 1 := by decide
  unfold minOffset at low
  unfold maxOffset at low high bits
  rw [TimeTz.offset, decodeOffset, BitVec.toNat_and, bits, mask, and_two_pow_sub_one_eq_mod,
    maxOffset]
  omega

end

end TimeTz

/-! ## Offsets -/

theorem formatTwoDigits_pair {v : Nat} (lt : v < 100) :
    ∃ c d, TimeToStringCast.formatTwoDigits v = [c, d] ∧ c.isDigit = true ∧
      d.isDigit = true ∧ digitValue c * 10 + digitValue d = v := by
  obtain ⟨ds, len, num⟩ := TimeToStringCast.digits_formatTwoDigits lt
  match TimeToStringCast.formatTwoDigits v, ds, len, num with
  | [c, d], ds, _, num =>
    obtain ⟨fst, snd⟩ := digits_cons_iff.mp ds
    rw [digitsValue_cons, digitsValue_single, length_singleton] at num
    exact ⟨c, d, rfl, fst, (digits_cons_iff.mp snd).1, by omega⟩

namespace Timestamp

theorem parseOffsetMinutes_colon {sign c d : Char} (fst : c.isDigit = true)
    (second : d.isDigit = true) (rest : List Char) :
    parseOffsetMinutes sign (':' :: c :: d :: rest) =
      (signedOffset sign (digitValue c * 10 + digitValue d), rest) := if_pos ⟨fst, second⟩

theorem tryParseUtcOffset_digits {sign c d : Char} (known : sign = '+' ∨ sign = '-')
    (first : c.isDigit = true) (snd : d.isDigit = true) (s : List Char) :
    tryParseUtcOffset (sign :: c :: d :: s) =
      some (signedOffset sign (digitValue c * 10 + digitValue d), parseOffsetMinutes sign s) := by
  have signs : ¬ (sign ≠ '+' ∧ sign ≠ '-') := by
    intro ⟨noPlus, noMinus⟩
    exact known.elim noPlus noMinus
  rw [tryParseUtcOffset, if_neg signs, if_neg (by rw [first, snd]; decide)]

end Timestamp

namespace Time

open TimeToStringCast

/-- The seconds that the text of an offset is read as. -/
def readSeconds (hh mm ss : Nat) : Nat :=
  if mm = 0 then hh * 3600 + ss * 60 else hh * 3600 + mm * 60 + ss

theorem signedOffset_sign (neg : Bool) (n : Nat) :
    Timestamp.signedOffset (if neg then '-' else '+') n = withSign neg n := by
  cases neg <;> rfl

theorem withSign_minutes (neg : Bool) (hh mm : Nat) :
    (withSign neg hh * minsPerHour + withSign neg mm) * secsPerMinute =
      withSign neg (hh * 3600 + mm * 60) := by
  unfold withSign minsPerHour secsPerMinute
  cases neg with
  | false =>
    simp only [false_eq_true, if_false]
    omega
  | true =>
    simp only [if_true]
    omega

theorem parseOffset_offsetText {neg : Bool} {hh mm ss : Nat} (hours : hh < 100)
    (minutes : mm < 60) (seconds : ss < 60) : parseOffset (offsetText neg hh mm ss) =
      some (withSign neg (readSeconds hh mm ss), []) := by
  obtain ⟨_, _, hourText, fst, snd, hourValue⟩ := formatTwoDigits_pair hours
  have known : (if neg then '-' else '+') = '+' ∨ (if neg then '-' else '+') = '-' := by
    cases neg <;> decide
  unfold offsetText parseOffset
  rw [if_neg (cons_ne_nil _ _), if_pos hours, hourText, cons_append, cons_append,
    nil_append, Timestamp.tryParseUtcOffset_digits known fst snd, hourValue,
    signedOffset_sign]
  simp only [bind_eq_bind, bind_some]
  unfold readSeconds
  by_cases noMinutes : mm = 0
  · rw [if_neg (not_not.mpr noMinutes), if_pos noMinutes, nil_append]
    by_cases noSeconds : ss = 0
    · have none : Timestamp.parseOffsetMinutes (if neg then '-' else '+') [] = (0, []) := rfl
      have zero : (0 : Int) = withSign neg 0 := (withSign_eq_zero.mpr rfl).symm
      rw [if_neg (not_not.mpr noSeconds), none, noSeconds, zero]
      rw [withSign_minutes]
      rfl
    · -- the seconds are taken for minutes
      obtain ⟨e, f, s, third, fourth, v⟩ := formatTwoDigits_pair (show ss < 100 by omega)
      rw [if_pos noSeconds, s, Timestamp.parseOffsetMinutes_colon third fourth, v,
        signedOffset_sign]
      rw [withSign_minutes]
      rfl
  · obtain ⟨_, _, s, third, fourth, v⟩ := formatTwoDigits_pair (show mm < 100 by omega)
    rw [if_pos noMinutes, if_neg noMinutes, s, cons_append, cons_append,
      cons_append, nil_append, Timestamp.parseOffsetMinutes_colon third fourth, v,
      signedOffset_sign]
    rw [withSign_minutes]
    by_cases noSeconds : ss = 0
    · rw [if_neg (not_not.mpr noSeconds), noSeconds, add_zero]
      rfl
    · have read := Date.parseDoubleDigit_iff.mpr
        (doubleDigit_formatTwoDigits (show ss < 100 by omega) [])
      rw [append_nil] at read
      rw [if_pos noSeconds, parseOffsetSeconds, read, map_some]
      congr 2
      unfold withSign
      cases neg with
      | false =>
        simp only [false_eq_true, if_false]
        rw [if_neg (by omega)]
        rfl
      | true =>
        simp only [if_true]
        rw [if_pos (by omega)]
        congr 1
        omega

theorem skipSpaces_offsetText (neg : Bool) (hh mm ss : Nat) :
    skipSpaces (offsetText neg hh mm ss) = offsetText neg hh mm ss := by
  unfold offsetText
  cases neg <;> rfl

theorem readOffset_offsetText {strict neg : Bool} {hh mm ss : Nat} (hours : hh < 100)
    (minutes : mm < 60) (seconds : ss < 60)
    (le : (readSeconds hh mm ss : Int) ≤ TimeTz.maxOffset) :
    readOffset strict (offsetText neg hh mm ss) = some (withSign neg (readSeconds hh mm ss)) := by
  have range : ¬ (withSign neg (readSeconds hh mm ss) < TimeTz.minOffset ∨
      TimeTz.maxOffset < withSign neg (readSeconds hh mm ss)) := by
    unfold TimeTz.minOffset withSign
    unfold TimeTz.maxOffset at le ⊢
    cases neg <;> simp only [false_eq_true, if_false, if_true] <;> omega
  rw [readOffset, skipSpaces_offsetText, parseOffset_offsetText hours minutes seconds,
    bind_eq_bind, bind_some]
  dsimp only
  rw [if_neg range, if_neg fun rem => rem.2 rfl]

/-- The text of a time with an offset is read as the same time. -/
theorem tryConvertTimeTz_stringCastTz (strict : Bool) {t : Nat} {off : Int}
    (day : t ≤ microsPerDay) (low : TimeTz.minOffset ≤ off) (high : off ≤ TimeTz.maxOffset) :
    ∃ res, tryConvertTimeTz strict (stringCastTz (.make t off)) = some res ∧
      res.time = t ∧ res.offset = withSign (off < 0)
        (readSeconds (off.natAbs / 3600) (off.natAbs % 3600 / 60) (off.natAbs % 3600 % 60)) := by
  have eq : t % 2 ^ 40 = t := by
    unfold microsPerDay at day
    omega
  have range : off.natAbs ≤ 57599 := by
    unfold TimeTz.minOffset at low
    unfold TimeTz.maxOffset at low high
    omega
  have le : (readSeconds (off.natAbs / 3600) (off.natAbs % 3600 / 60)
      (off.natAbs % 3600 % 60) : Int) ≤ TimeTz.maxOffset := by
    unfold readSeconds TimeTz.maxOffset
    split_ifs <;> omega
  have read := @readOffset_offsetText strict (off < 0) _ _ _
    (show off.natAbs / 3600 < 100 by omega) (show off.natAbs % 3600 / 60 < 60 by omega)
    (mod_lt _ (by decide)) le
  have start (hh mm ss : Nat) : startsWithDigit (offsetText (off < 0) hh mm ss) = false ∧
      (offsetText (off < 0) hh mm ss).head? ≠ some '.' := by
    unfold offsetText
    cases decide (off < 0) <;> exact ⟨rfl, nofun⟩
  generalize readSeconds _ _ _ = seconds at le read ⊢
  have seconds_bounds : TimeTz.minOffset ≤ withSign (off < 0) seconds ∧
      withSign (off < 0) seconds ≤ TimeTz.maxOffset := by
    unfold TimeTz.minOffset withSign
    unfold TimeTz.maxOffset at le ⊢
    split_ifs <;> omega
  refine ⟨.make t (withSign (off < 0) seconds), ?_, ?_, ?_⟩
  · unfold stringCastTz secsPerHour secsPerMinute
    rw [TimeTz.time_make low high, TimeTz.offset_make low high, eq, tryConvertTimeTz,
      tryConvertInternal_toString (by unfold microsPerDay at day; unfold microsPerHour; omega)
        (start _ _ _).1 (start _ _ _).2]
    dsimp only
    rw [read]
    rfl
  · rw [TimeTz.time_make seconds_bounds.1 seconds_bounds.2, eq]
  · exact TimeTz.offset_make seconds_bounds.1 seconds_bounds.2 t

theorem readOffset_bounds {strict : Bool} {s : List Char} {off : Int}
    (read : readOffset strict s = some off) :
    TimeTz.minOffset ≤ off ∧ off ≤ TimeTz.maxOffset := by
  unfold readOffset at read
  rw [bind_eq_bind, bind_eq_some_iff] at read
  obtain ⟨⟨_, _⟩, -, read⟩ := read
  dsimp only at read
  split_ifs at read with out
  cases read
  omega

theorem timeOfTimestamp_le {s : List Char} {res : TimeTz}
    (read : timeOfTimestamp s = some res) : res.time ≤ microsPerDay := by
  unfold timeOfTimestamp at read
  split at read
  next ts _ =>
    split_ifs at read with fin
    cases read
    rw [TimeTz.time_make (by decide) (by decide), Timestamp.getTime_eq fin]
    have less := Int.emod_lt_of_pos ts (show (0 : Int) < microsPerDay by decide)
    exact (mod_le _ _).trans (by omega)
  next => cases read

/-- Times are read again exactly if the offset has minutes or no seconds. A text is read as a
time after the end of the day exactly if its hours, minutes and seconds are more than a day,
once they are cut to 40 bits, and an offset follows. -/
theorem timeTz_text_iff (strict : Bool) : (∀ (time : Nat) (offset : Int), time ≤ microsPerDay →
      TimeTz.minOffset ≤ offset → offset ≤ TimeTz.maxOffset →
      ((∃ result, tryConvertTimeTz strict (stringCastTz (.make time offset)) = some result ∧
        result.time = time ∧ result.offset = offset) ↔
        (offset.natAbs % 3600 / 60 = 0 → offset.natAbs % 60 = 0))) ∧ ∀ text : List Char,
      ((∀ result, tryConvertTimeTz strict text = some result → result.time ≤ microsPerDay) ↔
        ∀ units rest, ClockText text units rest → (readOffset strict rest).isSome →
          fromTime units % 2 ^ 40 ≤ microsPerDay) := by
  constructor
  · intro time offset day low high
    obtain ⟨read, accepted, sameTime, value⟩ := tryConvertTimeTz_stringCastTz strict day low high
    have same : withSign (offset < 0) (readSeconds (offset.natAbs / 3600)
        (offset.natAbs % 3600 / 60) (offset.natAbs % 3600 % 60)) = offset ↔
        (offset.natAbs % 3600 / 60 = 0 → offset.natAbs % 60 = 0) := by
      unfold withSign readSeconds
      by_cases negative : offset < 0
      · rw [if_pos (decide_eq_true negative)]
        split_ifs <;> omega
      · rw [if_neg (by simpa using negative)]
        split_ifs <;> omega
    constructor
    · intro ⟨result, read', _, offset'⟩
      cases accepted.symm.trans read'
      exact same.mp (value.symm.trans offset')
    · intro written
      exact ⟨read, accepted, sameTime, value.trans (same.mpr written)⟩
  · intro text
    constructor
    · intro within units rest clock offset
      obtain ⟨offset, read⟩ := isSome_iff_exists.mp offset
      obtain ⟨low, high⟩ := readOffset_bounds read
      have accepted : tryConvertTimeTz strict text = some (.make (fromTime units) offset) := by
        rw [tryConvertTimeTz, tryConvertInternal_iff.mpr ⟨units, clock, rfl⟩]
        dsimp only
        rw [read]
        rfl
      rw [← TimeTz.time_make low high]
      exact within _ accepted
    · intro within result accepted
      unfold tryConvertTimeTz at accepted
      split at accepted
      next =>
        split_ifs at accepted
        exact timeOfTimestamp_le accepted
      next time rest converted =>
        obtain ⟨_, read, rfl⟩ := map_eq_some_iff.mp accepted
        obtain ⟨low, high⟩ := readOffset_bounds read
        obtain ⟨units, clock, rfl⟩ := tryConvertInternal_iff.mp converted
        rw [TimeTz.time_make low high]
        exact within units rest clock (by rw [read]; rfl)

/-- One second is read as one minute, and 25 hours are accepted. -/
theorem timeTz_text_offsets :
    (¬ ∃ result, tryConvertTimeTz true (stringCastTz (.make 0 1)) = some result ∧
      result.time = 0 ∧ result.offset = 1) ∧
    ∃ result, tryConvertTimeTz true "25:00:00+00".toList = some result ∧
      microsPerDay < result.time := by
  have minute : tryConvertTimeTz true (stringCastTz (.make 0 1)) = some (.make 0 60) := by
    decide +kernel
  constructor
  · intro ⟨result, read, _, second⟩
    cases minute.symm.trans read
    exact absurd second (by decide +kernel)
  · exact ⟨.make 90000000000 0, by decide +kernel, by decide +kernel⟩

end Time

end AccessPath
