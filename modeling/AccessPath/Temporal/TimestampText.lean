import AccessPath.Temporal.DateText

/-!
# Text of timestamps

A timestamp is a number of microseconds from the start of 1970, written as a date and a
time of day. What is read may also have a time zone, of which only the offset is known.
-/

namespace AccessPath

open Library Option

variable {ts : Int} {time : Nat}

namespace Timestamp

def infinity : Int := 2 ^ 63 - 1

def ninfinity : Int := -(2 ^ 63 - 1)

def isFinite (timestamp : Int) : Bool := timestamp != infinity && timestamp != ninfinity

/-- The result of an operation on `int64_t` without overflow. -/
def checked (x : Int) : Option Int := (IntegerType.mk true .eight).checked x

/-! ## Date and time -/

def getDate (timestamp : Int) : Int := if timestamp = infinity then Date.infinity
  else if timestamp = ninfinity then Date.ninfinity
  else
    let before := if timestamp < 0 then 1 else 0
    (timestamp + before).tdiv microsPerDay - before

/-- `GetTime`, which is for finite timestamps; nothing is checked for overflow. -/
def getTime (timestamp : Int) : Int :=
  Int.bmod (timestamp - Int.bmod (getDate timestamp * microsPerDay) (2 ^ 64)) (2 ^ 64)

def tryFromDatetime (date : Int) (time : Nat) : Option Int := do
  let days ← checked (date * microsPerDay)
  let result ← checked (days + time)
  if isFinite result then some result else none

/-- `Convert`, which throws if the start of the day is out of range. -/
def convert (timestamp : Int) : Option (Int × Nat) :=
  let date := getDate timestamp
  (checked (date * microsPerDay)).map fun days => (date, (timestamp - days).toNat)

def toString (timestamp : Int) : Option (List Char) := if timestamp = infinity then some Date.pinf
  else if timestamp = ninfinity then some Date.ninf
  else (convert timestamp).map fun (date, time) => Date.toString date ++ ' ' :: Time.toString time

/-! ## Reading -/

def characterIsTimeZone (c : Char) : Bool :=
  c.isAlpha || c.isDigit || c == '_' || c == '/' || c == '+' || c == '-'

/-- A number with the sign of the offset. -/
def signedOffset (sign : Char) (n : Nat) : Int := if sign = '-' then -(n : Int) else n

/-- The minutes of an offset, which may come after a colon; the colon is left out in any
case. -/
def parseOffsetMinutes (sign : Char) (text : List Char) : Int × List Char :=
  let text := match text with
    | ':' :: rest => rest
    | text => text
  match text with
  | c :: d :: rest =>
    if c.isDigit ∧ d.isDigit then (signedOffset sign (digitValue c * 10 + digitValue d), rest)
    else (0, text)
  | text => (0, text)

/-- `TryParseUTCOffset`: the hours, the minutes and the rest of the text. -/
def tryParseUtcOffset : List Char → Option (Int × Int × List Char)
  | sign :: c :: d :: text =>
    if sign ≠ '+' ∧ sign ≠ '-' then none
    else if !c.isDigit || !d.isDigit then none
    else
      let (minutes, rest) := parseOffsetMinutes sign text
      some (signedOffset sign (digitValue c * 10 + digitValue d), minutes, rest)
  | _ => none

/-- The timestamp, the name of the time zone and the rest of the text. -/
def parseZone (result : Int) (text : List Char) : Option (Int × List Char × List Char) :=
  match text with
  | 'Z' :: rest => some (result, [], rest)
  | text =>
    match tryParseUtcOffset text with
    | some (hours, minutes, rest) =>
      (checked (result - (hours * microsPerHour + minutes * microsPerMinute))).map (·, [], rest)
    | none => do
      let text ← dropCharacter ' ' text
      some (result, text.takeWhile characterIsTimeZone, text.dropWhile characterIsTimeZone)

/-- The separator between date and time. -/
def dropTimeSeparator : List Char → List Char
  | ' ' :: text => text
  | 'T' :: text => text
  | text => text

/-- `TryConvertTimestampTZ`: the timestamp and the name of the time zone. -/
def tryConvertTimestampTz (text : List Char) : Option (Int × List Char) := do
  let (date, text) ← Date.tryConvertDate false text
  if text = [] then
    if date = Date.infinity then some (infinity, [])
    else if date = Date.ninfinity then some (ninfinity, [])
    else (tryFromDatetime date 0).map (·, [])
  else do
    let (time, text) ← Time.tryConvertInternal false (dropTimeSeparator text)
    if microsPerDay < time then none
    else do
      let result ← tryFromDatetime date time
      if text = [] then some (result, [])
      else do
        let (result, zone, text) ← parseZone result text
        if skipSpaces text = [] then some (result, zone) else none

/-- The errors of `TimestampCastResult`. -/
inductive CastError where
  | incorrectFormat
  | nonUtcTimezone
deriving DecidableEq

/-- The only time zone that is known. -/
def isUtc (zone : List Char) : Bool :=
  zone.map characterToLower == "utc".toList

def tryConvertTimestamp (text : List Char) : Except CastError Int :=
  match tryConvertTimestampTz text with
  | none => .error .incorrectFormat
  | some (result, zone) =>
    if zone = [] ∨ isUtc zone then .ok result else .error .nonUtcTimezone

/-- `FromString`, which throws if the text is not a timestamp. -/
def fromString (text : List Char) : Option Int := (tryConvertTimestamp text).toOption

/-! ## Days and the time of day -/

theorem checked_eq_some {x y : Int} : checked x = some y ↔ y = x ∧ -2 ^ 63 ≤ x ∧ x < 2 ^ 63 := by
  have low : (IntegerType.mk true .eight).minimum = -2 ^ 63 := rfl
  have high : (IntegerType.mk true .eight).maximum = 2 ^ 63 - 1 := rfl
  rw [checked, IntegerType.checked, low, high, ite_none_right_eq_some, Option.some.injEq]
  constructor
  · intro ⟨range, same⟩
    exact ⟨same.symm, by omega⟩
  · intro ⟨same, range⟩
    exact ⟨by omega, same.symm⟩

theorem getDate_eq (fin : isFinite ts = true) : getDate ts = ts / microsPerDay := by
  unfold isFinite at fin
  rw [Bool.and_eq_true, bne_iff_ne, bne_iff_ne] at fin
  rw [getDate, if_neg fin.1, if_neg fin.2]
  have day : (microsPerDay : Int) = 86400000000 := rfl
  rw [day]
  split_ifs with old
  · have opposite : (ts + 1).tdiv 86400000000 = -((-(ts + 1)) / 86400000000) := by
      rw [← Int.tdiv_eq_ediv_of_nonneg (by omega), Int.neg_tdiv, Int.neg_neg]
    dsimp only
    rw [opposite]
    omega
  · dsimp only
    rw [Int.tdiv_eq_ediv_of_nonneg (by omega)]
    omega

theorem getTime_eq (fin : isFinite ts = true) : getTime ts = ts % microsPerDay := by
  have day : (microsPerDay : Int) = 86400000000 := rfl
  rw [getTime, getDate_eq fin, Int.sub_bmod_bmod]
  have eq : ts - ts / microsPerDay * microsPerDay = ts % microsPerDay := by
    rw [Int.emod_def, mul_comm]
  rw [eq, Int.bmod_eq_of_le] <;> rw [day] <;> omega

/-- The day of a finite timestamp is a date, and the time is below 24 hours. -/
theorem convert_spec {d : Int} (fin : isFinite ts = true)
    (converted : convert ts = some (d, time)) :
    (-2 ^ 63 ≤ d * microsPerDay ∧ d * microsPerDay < 2 ^ 63) ∧
      d * microsPerDay + time = ts ∧ time < microsPerDay := by
  unfold convert at converted
  rw [map_eq_some_iff] at converted
  obtain ⟨_, fit, same⟩ := converted
  obtain ⟨rfl, rfl⟩ := Prod.mk.inj same
  obtain ⟨rfl, range⟩ := checked_eq_some.mp fit
  refine ⟨range, ?_⟩
  rw [getDate_eq fin]
  have pos := Int.emod_nonneg ts (show (microsPerDay : Int) ≠ 0 by decide)
  have less := Int.emod_lt_of_pos ts (show (0 : Int) < microsPerDay by decide)
  rw [Int.emod_def, mul_comm] at pos less
  omega

theorem tryFromDatetime_eq {d : Int} (range : -2 ^ 63 ≤ ts ∧ ts < 2 ^ 63)
    (fin : isFinite ts = true) (days : -2 ^ 63 ≤ d * microsPerDay ∧ d * microsPerDay < 2 ^ 63)
    (sum : d * microsPerDay + time = ts) : tryFromDatetime d time = some ts := by
  have first := checked_eq_some.mpr ⟨rfl, days⟩
  have second := checked_eq_some.mpr ⟨rfl, range⟩
  rw [tryFromDatetime, first, bind_eq_bind, bind_some, sum, second, bind_some, if_pos fin]

/-! ## Round trip -/

theorem notBc_time (lt : time < microsPerDay) : Date.NotBc (' ' :: Time.toString time) := by
  have two : (Time.convert time).hour < 100 := by
    rw [(Time.convert_spec time).2.1]
    unfold microsPerDay at lt
    unfold microsPerHour
    omega
  obtain ⟨ds, len, -⟩ := TimeToStringCast.digits_formatTwoDigits two
  unfold Time.toString TimeToStringCast.format
  match TimeToStringCast.formatTwoDigits (Time.convert time).hour, ds, len with
  | [c, d], ds, _ =>
    have digit := (digits_cons_iff.mp ds).1
    refine Date.notBc_of_second (by decide) ?_
    intro same
    rw [same] at digit
    exact absurd digit (by decide)

theorem fromString_toString (range : -2 ^ 63 ≤ ts ∧ ts < 2 ^ 63) {text : List Char}
    (got : toString ts = some text) : fromString text = some ts := by
  unfold toString at got
  split_ifs at got with isInfinity isNinfinity
  · cases got
    rw [isInfinity]
    decide
  · cases got
    rw [isNinfinity]
    decide
  · have fin : isFinite ts = true := by
      rw [isFinite, Bool.and_eq_true, bne_iff_ne, bne_iff_ne]
      exact ⟨isInfinity, isNinfinity⟩
    rw [map_eq_some_iff] at got
    obtain ⟨⟨d, time⟩, converted, rfl⟩ := got
    obtain ⟨days, sum, few⟩ := convert_spec fin converted
    have day : microsPerDay = 86400000000 := rfl
    have mem : d ∈ Date.finiteDays := by
      rw [day] at days
      have low : -2147483646 ≤ d := by omega
      have high : d ≤ 2147483646 := by omega
      exact ⟨low, high⟩
    have readTime := @Time.tryConvertInternal_toString time (by unfold microsPerHour; omega) [] rfl
      nofun
    rw [List.append_nil] at readTime
    have read : tryConvertTimestampTz (Date.toString d ++ ' ' :: Time.toString time) =
        some (ts, []) := by
      rw [tryConvertTimestampTz, Date.tryConvertDate_toString mem (notBc_time few)]
      simp only [bind_eq_bind, bind_some]
      rw [if_neg (List.cons_ne_nil _ _), dropTimeSeparator, readTime, bind_some]
      rw [if_neg (by omega), tryFromDatetime_eq range fin days sum, bind_some, if_pos rfl]
    rw [fromString, tryConvertTimestamp, read]
    rfl

end Timestamp

/-- Dates and timestamps are read again from their texts. -/
theorem temporal_roundTrip :
    (∀ date : Int, date ∈ Date.finiteDays ∨ date = Date.infinity ∨ date = Date.ninfinity →
      Date.fromString false (Date.toString date) = some date) ∧
    ∀ (timestamp : Int) (text : List Char), -2 ^ 63 ≤ timestamp ∧ timestamp < 2 ^ 63 →
      Timestamp.toString timestamp = some text → Timestamp.fromString text = some timestamp := by
  constructor
  · intro date valid
    exact Date.fromString_toString valid
  · intro timestamp text range written
    exact Timestamp.fromString_toString range written

end AccessPath
