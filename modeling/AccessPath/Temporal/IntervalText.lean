import AccessPath.Numeric.TextRoundTrip
import AccessPath.Temporal.TimeText

/-!
# Text of intervals

An interval has months, days and microseconds, each with a sign of its own. Its text has
years, months and days with their names, and then a time. `FromCString` goes from one
number to the next and adds each under the name that follows it.
-/

namespace AccessPath

open Library NumericHelper List Option Nat Bool

variable {foundAny : Bool} {inp mul target x : Int} {t : IntegerType}

/-- `interval_t`: 32 bits for months and for days, 64 for microseconds. -/
structure IntervalValue where
  months : Int
  days : Int
  micros : Int
deriving DecidableEq

variable {v : Int} {interval : IntervalValue} {buffer digits rest text : List Char} {rounds : Nat}

/-! ## Writing -/

namespace IntervalToStringCast

open TimeToStringCast

def formatSignedNumber (value : Int) : List Char :=
  signText (value < 0) ++ formatUnsigned value.natAbs []

/-- `FormatIntervalValue`, which writes behind what is in the buffer. -/
def formatIntervalValue (value : Int) (name : List Char) (buffer : List Char) : List Char :=
  if value = 0 then buffer
  else
    (if buffer ≠ [] then buffer ++ [' '] else buffer) ++
      (formatSignedNumber value ++ (name ++ if value ≠ 1 ∧ value ≠ -1 then ['s'] else []))

/-- The time, for which numbers are kept negative so that the minimum has none out of range. -/
def formatTime (micros : Int) : List Char :=
  let sign := signText (micros < 0)
  let micros := if micros < 0 then micros else -micros
  let hour := -(micros.tdiv microsPerHour)
  let micros := micros + hour * microsPerHour
  let minute := -(micros.tdiv microsPerMinute)
  let micros := micros + minute * microsPerMinute
  let second := -(micros.tdiv microsPerSec)
  let micros := -(micros + second * microsPerSec)
  sign ++ ((if hour < 10 then ['0'] else []) ++ formatSignedNumber hour ++
    ':' :: (formatTwoDigits minute.toNat ++ ':' :: (formatTwoDigits second.toNat ++
      fractionText micros.toNat)))

/-- The part of `Format` before the time. -/
def formatUnits (interval : IntervalValue) : List Char :=
  let years := interval.months.tdiv 12
  let buffer := if interval.months ≠ 0 then
      formatIntervalValue (interval.months - years * 12) " month".toList
        (formatIntervalValue years " year".toList [])
    else []
  if interval.days ≠ 0 then formatIntervalValue interval.days " day".toList buffer else buffer

def format (interval : IntervalValue) : List Char :=
  let buffer := formatUnits interval
  if interval.micros ≠ 0 then
    (if buffer ≠ [] then buffer ++ [' '] else buffer) ++ formatTime interval.micros
  else if buffer = [] then "00:00:00".toList
  else buffer

end IntervalToStringCast

/-! ## Names of units -/

inductive DatePartSpecifier where
  | year
  | month
  | day
  | decade
  | century
  | millennium
  | microseconds
  | milliseconds
  | second
  | minute
  | hour
  | dow
  | isodow
  | week
  | isoyear
  | quarter
  | doy
  | yearweek
  | era
  | timezone
  | timezoneHour
  | timezoneMinute
  | epoch
  | julianDay
deriving DecidableEq

/-- The names that `TryGetDatePartSpecifier` compares with, in its order. -/
def datePartNames : List (List String × DatePartSpecifier) :=
  [(["year", "yr", "y", "years", "yrs"], .year),
    (["month", "mon", "months", "mons"], .month),
    (["day", "days", "d", "dayofmonth"], .day),
    (["decade", "dec", "decades", "decs"], .decade),
    (["century", "cent", "centuries", "c"], .century),
    (["millennium", "mil", "millenniums", "millennia", "mils", "millenium"], .millennium),
    (["microseconds", "microsecond", "us", "usec", "usecs", "usecond", "useconds"], .microseconds),
    (["milliseconds", "millisecond", "ms", "msec", "msecs", "msecond", "mseconds"], .milliseconds),
    (["second", "sec", "seconds", "secs", "s"], .second),
    (["minute", "min", "minutes", "mins", "m"], .minute),
    (["hour", "hr", "hours", "hrs", "h"], .hour),
    (["epoch"], .epoch),
    (["dow", "dayofweek", "weekday"], .dow),
    (["isodow"], .isodow),
    (["week", "weeks", "w", "weekofyear"], .week),
    (["doy", "dayofyear"], .doy),
    (["quarter", "quarters"], .quarter),
    (["yearweek"], .yearweek),
    (["isoyear"], .isoyear),
    (["era"], .era),
    (["timezone"], .timezone),
    (["timezone_hour"], .timezoneHour),
    (["timezone_minute"], .timezoneMinute),
    (["julian", "jd"], .julianDay)]

def tryGetDatePartSpecifier (specifier : List Char) : Option DatePartSpecifier :=
  (datePartNames.find? fun names =>
    names.1.any fun name => name.toList == specifier.map characterToLower).map Prod.snd

/-! ## Reading -/

namespace IntervalValue

/-- The type of months and days. -/
def int32 : IntegerType := ⟨true, .four⟩

/-- The type of microseconds. -/
def int64 : IntegerType := ⟨true, .eight⟩

/-- `IntervalTryAddition`, which throws if a result is out of range. -/
def tryAddition (t : IntegerType) (target input multiplier fraction : Int) : Option Int := do
  let addition ← int64.checked (input * multiplier)
  let base ← t.checked addition
  let target ← t.checked (target + base)
  if fraction ≠ 0 then do
    let base ← t.checked ((fraction * multiplier).tdiv microsPerSec)
    t.checked (target + base)
  else some target

/-- Add a number of months, with a fraction of the unit. -/
def addMonths (interval : IntervalValue) (number multiplier fraction : Int) :
    Option IntervalValue :=
  (tryAddition int32 interval.months number multiplier fraction).map fun months =>
    { interval with months }

def addDays (interval : IntervalValue) (number multiplier fraction : Int) : Option IntervalValue :=
  (tryAddition int32 interval.days number multiplier fraction).map fun days =>
    { interval with days }

def addMicros (interval : IntervalValue) (number multiplier fraction : Int) :
    Option IntervalValue :=
  (tryAddition int64 interval.micros number multiplier fraction).map fun micros =>
    { interval with micros }

/-- Add a number under the name of a unit. -/
def addSpecifier (interval : IntervalValue) (number fraction : Int) :
    DatePartSpecifier → Option IntervalValue
  | .millennium => interval.addMonths number 12000 fraction
  | .century => interval.addMonths number 1200 fraction
  | .decade => interval.addMonths number 120 fraction
  | .year => interval.addMonths number 12 fraction
  | .quarter => do
    let interval ← interval.addMonths number 3 fraction
    interval.addDays 0 30 ((fraction * 3).tmod microsPerSec)
  | .month => do
    let interval ← interval.addMonths number 1 0
    interval.addDays 0 30 fraction
  | .day => do
    let interval ← interval.addDays number 1 0
    interval.addMicros 0 microsPerDay fraction
  | .week => do
    let interval ← interval.addDays number 7 fraction
    interval.addMicros 0 microsPerDay ((fraction * 7).tmod microsPerSec)
  | .microseconds =>
    interval.addMicros (int64.wrapped (number + (fraction * 2).tdiv microsPerSec)) 1 0
  | .milliseconds => interval.addMicros number 1000 fraction
  | .second => interval.addMicros number microsPerSec fraction
  | .minute => interval.addMicros number microsPerMinute fraction
  | .hour => interval.addMicros number microsPerHour fraction
  | _ => none

/-- The spaces between the parts of an interval. -/
def isBlank (c : Char) : Bool := c == ' ' || c == '\t' || c == '\n'

/-- The end of the text. -/
def finish (foundAny : Bool) (interval : IntervalValue) : Option IntervalValue :=
  if foundAny then some interval else none

/-- The time, after which nothing is read. -/
def parseTime (negative : Bool) (interval : IntervalValue) (text : List Char) :
    Option IntervalValue := do
  let (time, _) ← Time.tryConvertInternal false text
  let micros := int64.wrapped (interval.micros + time)
  some { interval with micros := if negative then int64.wrapped (-micros) else micros }

/-- The word that ends an interval and inverts it. -/
def parseAgo (foundAny : Bool) (interval : IntervalValue) (text : List Char) :
    Option IntervalValue :=
  if (text.take 3).map characterToLower = "ago".toList ∧ (text.drop 3).all isBlank then
    finish foundAny ⟨int32.wrapped (-interval.months), int32.wrapped (-interval.days),
      int64.wrapped (-interval.micros)⟩
  else none

/-- Seconds without a name. -/
def parseSeconds (interval : IntervalValue) (number fraction : Int) (text : List Char) :
    Option IntervalValue := do
  let interval ← interval.addMicros number microsPerSec 0
  let interval ← interval.addMicros fraction 1 0
  if text.all isBlank then some interval else none

/-- What a part of the text leads to: the end, or more parts. -/
inductive Outcome where
  | stop (result : Option IntervalValue)
  | go (interval : IntervalValue) (rest : List Char)

/-- The name after a number. -/
def parseIdentifier (foundAny : Bool) (interval : IntervalValue) (number fraction : Int)
    (text : List Char) : Outcome :=
  let text := text.dropWhile isBlank
  let specifier := text.takeWhile Char.isAlpha
  let rest := text.dropWhile Char.isAlpha
  if specifier = [] ∧ !foundAny then .stop (parseSeconds interval number fraction rest)
  else
    match (tryGetDatePartSpecifier specifier).bind (interval.addSpecifier number fraction) with
    | none => .stop none
    | some interval => .go interval rest

/-- A number after its sign, which may turn out to be the hours of a time. -/
def parseNumber (foundAny negative : Bool) (interval : IntervalValue) (text : List Char) :
    Outcome :=
  let digits := text.takeWhile Char.isDigit
  match text.dropWhile Char.isDigit with
  | [] => .stop (finish foundAny interval)
  | c :: rest =>
    if c = ':' then .stop (parseTime negative interval text)
    else if digits = [] then .stop none
    else
      match trySimpleIntegerCast int64 false digits with
      | none => .stop none
      | some number =>
        let (fraction, rest) := Time.readFraction (c :: rest)
        parseIdentifier foundAny interval (if negative then -number else number)
          (withSign negative fraction) rest

/-- A part of a standard interval. -/
def parsePart (foundAny : Bool) (interval : IntervalValue) (text : List Char) : Outcome :=
  match text.dropWhile isBlank with
  | [] => .stop (finish foundAny interval)
  | c :: text =>
    if c.isDigit then parseNumber foundAny false interval (c :: text)
    else if c = '-' then parseNumber foundAny true interval text
    else if c = 'a' ∨ c = 'A' then .stop (parseAgo foundAny interval (c :: text))
    else .stop none

/-- The parts of a standard interval, at most `fuel` of them. -/
def standardInterval : Nat → Bool → IntervalValue → List Char → Option IntervalValue
  | 0, _, _, _ => none
  | fuel + 1, foundAny, interval, text =>
    match parsePart foundAny interval text with
    | .stop result => result
    | .go interval rest => standardInterval fuel true interval rest

/-- `FromCString`; there is no reader for intervals that start with a `P`. -/
def fromCString (text : List Char) : Option IntervalValue :=
  match text with
  | [] => none
  | '@' :: text => standardInterval (text.length + 1) false ⟨0, 0, 0⟩ text
  | 'P' :: _ => none
  | 'p' :: _ => none
  | text => standardInterval (text.length + 1) false ⟨0, 0, 0⟩ text

/-! ## Reading units -/

/-- A text that starts a new part. -/
def AtPart (text : List Char) : Prop := text = [] ∨ text.head? = some ' '

theorem AtPart.notLetter (lo : AtPart text) :
    text.takeWhile Char.isAlpha = [] ∧ text.dropWhile Char.isAlpha = text := by
  cases text with
  | nil => exact ⟨rfl, rfl⟩
  | cons c text =>
    obtain emp | head := lo
    · cases emp
    · cases head
      exact ⟨rfl, rfl⟩

theorem takeWhile_digits (digs : Digits digits) (noDigit : startsWithDigit rest = false) :
    (digits ++ rest).takeWhile Char.isDigit = digits ∧
      (digits ++ rest).dropWhile Char.isDigit = rest := by
  induction digits with
  | nil =>
    cases rest with
    | nil => exact ⟨rfl, rfl⟩
    | cons c rest =>
      have other : ¬ c.isDigit = true := eq_false_iff.mp noDigit
      exact ⟨takeWhile_cons_of_neg other, dropWhile_cons_of_neg other⟩
  | cons c digits ih =>
    obtain ⟨d, ho⟩ := digits_cons_iff.mp digs
    rw [cons_append, takeWhile_cons_of_pos d, dropWhile_cons_of_pos d]
    exact ⟨congrArg (c :: ·) (ih ho).1, (ih ho).2⟩

theorem parsePart_sign {neg : Bool} (digs : Digits digits) (ne : digits ≠ []) :
    parsePart foundAny interval (signText neg ++ (digits ++ rest)) =
      parseNumber foundAny neg interval (digits ++ rest) := by
  cases neg with
  | true => rfl
  | false =>
    cases digits with
    | nil => exact absurd rfl ne
    | cons c digits =>
      have d := (digits_cons_iff.mp digs).1
      have blank : isBlank c = false := by
        unfold isBlank
        simp only [or_eq_false_iff, beq_eq_false_iff_ne]
        have literal := literalCharacter_digit d
        exact ⟨⟨literal_ne literal (by decide), literal_ne literal (by decide)⟩,
          literal_ne literal (by decide)⟩
      have lo : List.dropWhile isBlank (signText false ++ (c :: digits ++ rest)) =
          c :: (digits ++ rest) := dropWhile_cons_of_neg (by rw [blank]; decide)
      rw [parsePart, lo]
      exact if_pos d

theorem parsePart_space (foundAny : Bool) (iv : IntervalValue) (s : List Char) :
    parsePart foundAny iv (' ' :: s) = parsePart foundAny iv s := rfl

theorem formatSignedNumber_eq (v : Int) :
    IntervalToStringCast.formatSignedNumber v = numberText v := by
  rw [IntervalToStringCast.formatSignedNumber, formatUnsigned_eq, append_nil]
  rfl

theorem not_isBlank {c : Char} (letter : c.isAlpha = true) : ¬ isBlank c = true := by
  intro blank
  unfold isBlank at blank
  simp only [or_eq_true, beq_iff_eq] at blank
  obtain (rfl | rfl) | rfl := blank <;> exact absurd letter (by decide)

theorem parsePart_unit (le : v.natAbs ≤ 2 ^ 31) {ls : List Char}
    (name : ∀ c ∈ ls, c.isAlpha = true) (ne : ls ≠ []) (lo : AtPart rest) :
    parsePart foundAny interval (numberText v ++ ' ' :: (ls ++ rest)) =
      match (tryGetDatePartSpecifier ls).bind (interval.addSpecifier v 0) with
      | none => .stop none
      | some interval => .go interval rest := by
  have digits := digits_toDigits v.natAbs
  obtain ⟨ht, hdr⟩ := @takeWhile_digits _ (' ' :: (ls ++ rest)) digits rfl
  have number : trySimpleIntegerCast int64 false (Nat.toDigits 10 v.natAbs) =
      some (v.natAbs : Int) := by
    have low : int64.minimum = -2 ^ 63 := rfl
    have high : int64.maximum = 2 ^ 63 - 1 := rfl
    exact trySimpleIntegerCast_numberText (x := (v.natAbs : Int)) (by omega) (by omega) (by omega)
  have signs : (if decide (v < 0) then -(v.natAbs : Int) else v.natAbs) = v := withSign_natAbs v
  have zero : withSign (decide (v < 0)) 0 = 0 := withSign_eq_zero.mpr rfl
  have blank : (' ' :: (ls ++ rest)).dropWhile isBlank = ls ++ rest := by
    cases ls with
    | nil => exact absurd rfl ne
    | cons c ls =>
      rw [dropWhile_cons_of_pos rfl, cons_append]
      exact dropWhile_cons_of_neg (not_isBlank (name c mem_cons_self))
  have word : (ls ++ rest).takeWhile Char.isAlpha = ls ∧
      (ls ++ rest).dropWhile Char.isAlpha = rest := by
    rw [takeWhile_append_of_pos name, dropWhile_append_of_pos name, lo.notLetter.1,
      lo.notLetter.2, append_nil]
    exact ⟨rfl, rfl⟩
  rw [numberText, append_assoc, parsePart_sign digits toDigits_ne_nil, parseNumber, hdr]
  dsimp only
  rw [if_neg (by decide), ht, if_neg toDigits_ne_nil, number]
  have fraction : Time.readFraction (' ' :: (ls ++ rest)) = (0, ' ' :: (ls ++ rest)) := rfl
  dsimp only
  rw [fraction, signs, zero, parseIdentifier, blank, word.1, word.2, if_neg fun emp => ne emp.1]

/-- A text that starts with a digit or a minus sign. -/
def StartsNumber (text : List Char) : Prop :=
  ∃ c rest, text = c :: rest ∧ (c = '-' ∨ c.isDigit = true)

theorem StartsNumber.append (lo : StartsNumber text) (rest : List Char) :
    StartsNumber (text ++ rest) := by
  obtain ⟨c, tail, rfl, hk⟩ := lo
  exact ⟨c, tail ++ rest, rfl, hk⟩

theorem startsNumber_sign (neg : Bool) (digs : Digits digits) (ne : digits ≠ []) :
    StartsNumber (signText neg ++ digits) := by
  cases neg with
  | true => exact ⟨'-', digits, rfl, .inl rfl⟩
  | false =>
    cases digits with
    | nil => exact absurd rfl ne
    | cons c digits => exact ⟨c, digits, rfl, .inr (digits_cons_iff.mp digs).1⟩

/-- The parts of a text are read in some rounds as an interval, whatever follows. -/
structure Reads (rounds : Nat) (text : List Char) (interval : IntervalValue) : Prop where
  rounds_le : rounds ≤ text.length
  start : text = [] ∨ StartsNumber text
  run : ∀ fuel rest, text = [] ∨ AtPart rest →
    standardInterval (fuel + rounds) false ⟨0, 0, 0⟩ (text ++ rest) =
      standardInterval fuel (text ≠ []) interval rest

theorem reads_nil : Reads 0 [] ⟨0, 0, 0⟩ := ⟨le_refl _, .inl rfl, fun _ _ _ => rfl⟩

/-- What follows a buffer. -/
def separated (buffer text : List Char) : List Char := if buffer ≠ [] then ' ' :: text else text

theorem le_length_separated (buf s : List Char) : s.length ≤ (separated buf s).length := by
  unfold separated
  split_ifs <;> simp

theorem Reads.next (reads : Reads rounds buffer interval) (n : Nat) (s : List Char) :
    standardInterval (n + 1 + rounds) false ⟨0, 0, 0⟩ (buffer ++ separated buffer s) =
      match parsePart (buffer ≠ []) interval s with
      | .stop result => result
      | .go interval rest => standardInterval n true interval rest := by
  have lo : buffer = [] ∨ AtPart (separated buffer s) := by
    unfold separated
    split_ifs with emp
    · exact .inr (.inr rfl)
    · exact .inl (not_not.mp emp)
  have eq : parsePart (buffer ≠ []) interval (separated buffer s) =
      parsePart (buffer ≠ []) interval s := by
    unfold separated
    split_ifs
    · exact parsePart_space _ _ _
    · rfl
  rw [reads.run (n + 1) _ lo, standardInterval, eq]

/-- What is separated from a buffer starts with a number if it does by itself. -/
theorem Reads.startsNumber (reads : Reads rounds buffer interval) (lo : StartsNumber text) :
    StartsNumber (buffer ++ separated buffer text) := by
  obtain emp | num := reads.start
  · subst emp
    exact lo
  · exact num.append _

theorem formatIntervalValue_eq (nonzero : v ≠ 0) (name buf : List Char) :
    IntervalToStringCast.formatIntervalValue v name buf = buf ++ separated buf (numberText v ++
        (name ++ if v ≠ 1 ∧ v ≠ -1 then ['s'] else [])) := by
  rw [IntervalToStringCast.formatIntervalValue, if_neg nonzero, formatSignedNumber_eq, separated]
  split_ifs <;> simp

theorem Reads.append {interval' : IntervalValue} (reads : Reads rounds buffer interval)
    (nonzero : v ≠ 0) (le : v.natAbs ≤ 2 ^ 31) {ls : List Char}
    (ne : ls ≠ []) (name : ∀ c ∈ ls, c.isAlpha = true) {part : DatePartSpecifier}
    (hk : tryGetDatePartSpecifier ls = some part ∧
      tryGetDatePartSpecifier (ls ++ ['s']) = some part)
    (added : interval.addSpecifier v 0 part = some interval') : Reads (rounds + 1)
      (IntervalToStringCast.formatIntervalValue v (' ' :: ls) buffer) interval' := by
  rw [formatIntervalValue_eq nonzero]
  -- the name with the plural, if there is one
  obtain ⟨word, eq, letterWord, ne', hk'⟩ :
      ∃ word, ' ' :: ls ++ (if v ≠ 1 ∧ v ≠ -1 then ['s'] else []) = ' ' :: word ∧
        (∀ c ∈ word, c.isAlpha = true) ∧ word ≠ [] ∧
        tryGetDatePartSpecifier word = some part := by
    split_ifs
    · refine ⟨ls ++ ['s'], rfl, ?_, by simp, hk.2⟩
      intro c mem
      obtain mem | mem := mem_append.mp mem
      · exact name c mem
      · rw [mem_singleton.mp mem]
        decide
    · exact ⟨ls, by simp, name, ne, hk.1⟩
  have length := le_length_separated buffer (numberText v ++ ' ' :: word)
  rw [length_append, length_cons] at length
  have old := reads.rounds_le
  rw [eq]
  constructor
  · rw [length_append]
    omega
  · exact .inr (reads.startsNumber
      ((startsNumber_sign _ (digits_toDigits _) toDigits_ne_nil).append _))
  · intro n rest lo
    have filled : buffer ++ separated buffer (numberText v ++ ' ' :: word) ≠ [] := by
      apply ne_nil_of_length_pos
      rw [length_append]
      omega
    have atRest : AtPart rest := lo.resolve_left filled
    have moved : buffer ++ separated buffer (numberText v ++ ' ' :: word) ++ rest =
        buffer ++ separated buffer (numberText v ++ ' ' :: (word ++ rest)) := by
      unfold separated
      split_ifs <;> simp
    have fuel_eq : n + (rounds + 1) = n + 1 + rounds := by omega
    rw [moved, fuel_eq, reads.next, parsePart_unit le letterWord ne' atRest, hk',
      bind_some, added]
    rw [decide_eq_true filled]

/-! ## The parts of an interval -/

theorem checked_eq (low : t.minimum ≤ x) (high : x ≤ t.maximum) :
    t.checked x = some x := if_pos ⟨low, high⟩

theorem tryAddition_eq (product : int64.minimum ≤ inp * mul ∧ inp * mul ≤ int64.maximum)
    (base : t.minimum ≤ inp * mul ∧ inp * mul ≤ t.maximum)
    (sum : t.minimum ≤ target + inp * mul ∧ target + inp * mul ≤ t.maximum) :
    tryAddition t target inp mul 0 = some (target + inp * mul) := by
  rw [tryAddition, checked_eq product.1 product.2, bind_eq_bind, bind_some,
    checked_eq base.1 base.2, bind_some, checked_eq sum.1 sum.2, bind_some,
    if_neg (not_not.mpr rfl)]

theorem tryAddition_int32 (base : -2 ^ 31 ≤ inp * mul ∧ inp * mul < 2 ^ 31)
    (sum : -2 ^ 31 ≤ target + inp * mul ∧ target + inp * mul < 2 ^ 31) :
    tryAddition int32 target inp mul 0 = some (target + inp * mul) := by
  have low : int32.minimum = -2 ^ 31 := rfl
  have high : int32.maximum = 2 ^ 31 - 1 := rfl
  have low' : int64.minimum = -2 ^ 63 := rfl
  have high' : int64.maximum = 2 ^ 63 - 1 := rfl
  exact tryAddition_eq (by omega) (by omega) (by omega)

theorem Reads.unit {interval' : IntervalValue} (reads : Reads rounds buffer interval)
    (ls : List Char) (le : v.natAbs ≤ 2 ^ 31) (ne : ls ≠ [])
    (name : ls.all Char.isAlpha = true) {part : DatePartSpecifier}
    (hk : tryGetDatePartSpecifier ls = some part ∧
      tryGetDatePartSpecifier (ls ++ ['s']) = some part)
    (zero : v = 0 → interval' = interval)
    (added : interval.addSpecifier v 0 part = some interval') : ∃ rounds', Reads rounds'
      (IntervalToStringCast.formatIntervalValue v (' ' :: ls) buffer) interval' := by
  by_cases none : v = 0
  · rw [IntervalToStringCast.formatIntervalValue, if_pos none, zero none]
    exact ⟨rounds, reads⟩
  · exact ⟨rounds + 1, reads.append none le ne (List.all_eq_true.mp name) hk added⟩

theorem reads_formatUnits (months : -2 ^ 31 ≤ interval.months ∧ interval.months < 2 ^ 31)
    (days : -2 ^ 31 ≤ interval.days ∧ interval.days < 2 ^ 31) :
    ∃ rounds, Reads rounds (IntervalToStringCast.formatUnits interval)
      ⟨interval.months, interval.days, 0⟩ := by
  generalize years_eq : interval.months.tdiv 12 = years
  have years_bounds : -2 ^ 31 ≤ years * 12 ∧ years * 12 < 2 ^ 31 ∧
      (interval.months - years * 12).natAbs ≤ 11 := by
    rw [Int.tdiv_eq_ediv] at years_eq
    have sign : Int.sign 12 = 1 := rfl
    rw [sign] at years_eq
    split_ifs at years_eq <;> omega
  have yearAdded : addSpecifier ⟨0, 0, 0⟩ years 0 .year = some ⟨years * 12, 0, 0⟩ := by
    rw [addSpecifier, addMonths, tryAddition_int32 (by omega) (by dsimp only; omega), zero_add]
    rfl
  have monthAdded : addSpecifier ⟨years * 12, 0, 0⟩ (interval.months - years * 12) 0 .month =
      some ⟨interval.months, 0, 0⟩ := by
    have months_eq : years * 12 + (interval.months - years * 12) * 1 = interval.months := by ring
    rw [addSpecifier, addMonths, tryAddition_int32 (by omega) (by dsimp only; omega), months_eq]
    rfl
  have dayAdded : addSpecifier ⟨interval.months, 0, 0⟩ interval.days 0 .day =
      some ⟨interval.months, interval.days, 0⟩ := by
    rw [addSpecifier, addDays, tryAddition_int32 (by omega) (by dsimp only; omega), mul_one,
      zero_add]
    rfl
  obtain ⟨_, readYears⟩ := reads_nil.unit "year".toList (by omega) (by decide)
    (by decide) (by decide +kernel) (fun zero => by rw [zero, zero_mul]) yearAdded
  obtain ⟨_, readMonths⟩ := readYears.unit "month".toList (by omega) (by decide)
    (by decide) (by decide +kernel) (fun zero => by congr 1; omega) monthAdded
  obtain ⟨_, readDays⟩ := readMonths.unit "day".toList (by omega) (by decide)
    (by decide) (by decide +kernel) (fun zero => by rw [zero]) dayAdded
  have eq : IntervalToStringCast.formatUnits interval =
      IntervalToStringCast.formatIntervalValue interval.days (' ' :: "day".toList)
        (IntervalToStringCast.formatIntervalValue (interval.months - years * 12)
          (' ' :: "month".toList)
          (IntervalToStringCast.formatIntervalValue years (' ' :: "year".toList) [])) := by
    have emp (name buf : List Char) :
        IntervalToStringCast.formatIntervalValue 0 name buf = buf := rfl
    unfold IntervalToStringCast.formatUnits
    dsimp only
    rw [years_eq]
    by_cases noMonths : interval.months = 0
    · have zero : years = 0 := by omega
      rw [if_neg (not_not.mpr noMonths), noMonths, zero, emp, zero_mul, sub_zero, emp]
      split_ifs with noDays
      · rfl
      · rw [not_not.mp noDays, emp]
    · rw [if_pos noMonths]
      split_ifs with noDays
      · rfl
      · rw [not_not.mp noDays, emp]
        rfl
  rw [eq]
  exact ⟨_, readDays⟩

/-! ## The time of an interval -/

/-- The hours have two digits or more. -/
def hourText (hour : Nat) : List Char := (if hour < 10 then ['0'] else []) ++ Nat.toDigits 10 hour

theorem digits_hourText (hour : Nat) : Digits (hourText hour) ∧ hourText hour ≠ [] ∧
    digitsValue (hourText hour) = hour := by
  have zeros : (if hour < 10 then ['0'] else []) = replicate (if hour < 10 then 1 else 0) '0' := by
    split_ifs <;> rfl
  unfold hourText
  rw [zeros, digitsValue_append, digitsValue_zeros, digitsValue_toDigits, mul_zero, zero_add]
  exact ⟨digits_append_iff.mpr ⟨digits_zeros _, digits_toDigits _⟩,
    append_ne_nil_of_right_ne_nil _ toDigits_ne_nil, rfl⟩

theorem length_hourText_le_iff (hour : Nat) : (hourText hour).length ≤ 9 ↔ hour < 10 ^ 9 := by
  have digits := @length_toDigits_le_iff 10 hour 9 (by decide) (by decide)
  unfold hourText
  rw [length_append]
  split_ifs with few
  · have one : (Nat.toDigits 10 hour).length ≤ 1 := length_toDigits_le (by decide) few
    simp only [length_singleton]
    omega
  · rw [length_nil, zero_add]
    exact digits

open IntervalToStringCast TimeToStringCast in
/-- The time is that of the magnitude, with one digit more for hours below ten. -/
theorem formatTime_eq (us : Int) : formatTime us = signText (us < 0) ++
      (hourText (Time.convert us.natAbs).hour ++
      ':' :: (formatTwoDigits (Time.convert us.natAbs).minute ++
        ':' :: (formatTwoDigits (Time.convert us.natAbs).second ++
          fractionText (Time.convert us.natAbs).micros))) := by
  -- a quotient and a remainder of a number that is kept negative
  have quotient (n k : Nat) : -((-(n : Int)).tdiv k) = ((n / k : Nat) : Int) := by
    rw [Int.neg_tdiv, Int.neg_neg, Int.tdiv_eq_ediv_of_nonneg (Int.natCast_nonneg n),
      Int.natCast_ediv]
  have remainder (n k : Nat) : -(n : Int) + ((n / k : Nat) : Int) * k =
      -((n - n / k * k : Nat) : Int) := by
    rw [cast_sub (div_mul_le_self n k)]
    push_cast
    ring
  have magnitude : (if us < 0 then us else -us) = -(us.natAbs : Int) := by
    split_ifs <;> omega
  have digit (n : Nat) : formatSignedNumber (n : Int) = Nat.toDigits 10 n := by
    rw [formatSignedNumber_eq, numberText, decide_eq_false (by omega), Int.natAbs_natCast]
    rfl
  have few (n : Nat) : (if (n : Int) < 10 then ['0'] else []) = if n < 10 then ['0'] else [] := by
    split_ifs
    · rfl
    · omega
    · omega
    · rfl
  unfold formatTime Time.convert
  generalize microsPerHour = perHour, microsPerMinute = perMinute, microsPerSec = perSec
  dsimp only
  rw [magnitude, quotient, remainder, quotient, remainder, quotient, remainder, Int.neg_neg,
    Int.toNat_natCast, Int.toNat_natCast, Int.toNat_natCast, digit, few]
  rfl

theorem wrapped_eq (low : -2 ^ 63 ≤ x) (high : x < 2 ^ 63) : int64.wrapped x = x := by
  change (BitVec.ofInt 64 x).toInt = x
  rw [BitVec.toInt_ofInt]
  exact Int.bmod_eq_of_le (by omega) (by omega)

/-- The time is read as long as there are at most nine digits for the hours. -/
theorem parsePart_formatTime (foundAny : Bool) (mo days us : Int) :
    parsePart foundAny ⟨mo, days, 0⟩ (IntervalToStringCast.formatTime us) =
      .stop (if us.natAbs < 10 ^ 9 * microsPerHour then some ⟨mo, days, us⟩
        else none) := by
  obtain ⟨time, hour, minutes, seconds, fraction⟩ := Time.convert_spec us.natAbs
  have hours_iff : us.natAbs < 10 ^ 9 * microsPerHour ↔
      (hourText (Time.convert us.natAbs).hour).length ≤ 9 := by
    rw [length_hourText_le_iff, hour]
    exact (Nat.div_lt_iff_lt_mul (by decide)).symm
  obtain ⟨digits, ne, v⟩ := digits_hourText (Time.convert us.natAbs).hour
  have aft := @TimeToStringCast.afterHours_format [] (Time.convert us.natAbs) minutes seconds
    fraction rfl nofun
  rw [append_nil] at aft
  rw [formatTime_eq, parsePart_sign digits ne, parseNumber]
  generalize hourText (Time.convert us.natAbs).hour = hours at hours_iff digits ne v ⊢
  generalize ':' :: (TimeToStringCast.formatTwoDigits (Time.convert us.natAbs).minute ++ _) =
    rest at aft ⊢
  have colon := aft
  obtain ⟨tail, _, _, rfl, -⟩ := colon
  rw [(takeWhile_digits digits rfl).2]
  dsimp only
  rw [if_pos rfl]
  congr 1
  unfold parseTime
  by_cases few : us.natAbs < 10 ^ 9 * microsPerHour
  · have clock : ClockText (hours ++ ':' :: tail) (Time.convert us.natAbs) [] :=
      ⟨hours, ':' :: tail, (skipSpaces_digits digits ne).1, digits, ne, hours_iff.mp few, v, aft⟩
    have read := Time.tryConvertInternal_iff.mpr ⟨_, clock, time.symm⟩
    have perHour : microsPerHour = 3600000000 := rfl
    have eq : (if decide (us < 0) then -(us.natAbs : Int) else us.natAbs) = us := withSign_natAbs us
    have forward : int64.wrapped (us.natAbs : Int) = us.natAbs := wrapped_eq (by omega) (by omega)
    have backward : int64.wrapped (-(us.natAbs : Int)) = -(us.natAbs : Int) :=
      wrapped_eq (by omega) (by omega)
    rw [read, bind_eq_bind, bind_some]
    dsimp only
    rw [zero_add, forward, backward, eq, if_pos few]
  · have long : 9 < hours.length := by
      by_contra short
      exact few (hours_iff.mpr (by omega))
    rw [Time.tryConvertInternal_of_long digits rfl long, if_neg few]
    rfl

/-! ## Round trip -/

theorem fromCString_eq (lo : StartsNumber text) :
    fromCString text = standardInterval (text.length + 1) false ⟨0, 0, 0⟩ text := by
  obtain ⟨c, rest, rfl, hk⟩ := lo
  have other (d : Char) (noDigit : d.isDigit = false) (noMinus : d ≠ '-') : c ≠ d := by
    intro eq
    subst eq
    obtain minus | digit := hk
    · exact noMinus minus
    · exact Bool.false_ne_true (noDigit.symm.trans digit)
  unfold fromCString
  split
  next eq => exact absurd eq (cons_ne_nil _ _)
  next eq => exact absurd (List.cons.inj eq).1 (other '@' rfl (by decide))
  next eq => exact absurd (List.cons.inj eq).1 (other 'P' rfl (by decide))
  next eq => exact absurd (List.cons.inj eq).1 (other 'p' rfl (by decide))
  next => rfl

theorem startsNumber_formatTime (us : Int) : StartsNumber (IntervalToStringCast.formatTime us) := by
  obtain ⟨digits, ne, -⟩ := digits_hourText (Time.convert us.natAbs).hour
  rw [formatTime_eq, ← append_assoc]
  exact (startsNumber_sign _ digits ne).append _

/-- An interval is read again from its text if it has fewer than a billion hours. -/
theorem fromCString_format (months : -2 ^ 31 ≤ interval.months ∧ interval.months < 2 ^ 31)
    (days : -2 ^ 31 ≤ interval.days ∧ interval.days < 2 ^ 31) :
    fromCString (IntervalToStringCast.format interval) =
      if interval.micros.natAbs < 10 ^ 9 * microsPerHour then some interval else none := by
  obtain ⟨rounds, reads⟩ := reads_formatUnits months days
  have old := reads.rounds_le
  unfold IntervalToStringCast.format
  generalize IntervalToStringCast.formatUnits interval = buffer at reads old ⊢
  by_cases noTime : interval.micros = 0
  · have eq : (⟨interval.months, interval.days, 0⟩ : IntervalValue) = interval := by
      rw [← noTime]
    have lt : interval.micros.natAbs < 10 ^ 9 * microsPerHour := by
      rw [noTime]
      decide
    rw [if_neg (not_not.mpr noTime), if_pos lt, ← eq]
    by_cases emp : buffer = []
    · -- the text for an interval of which nothing was written
      subst emp
      obtain rfl : rounds = 0 := le_zero.mp old
      rw [if_pos rfl]
      exact (reads.run 9 "00:00:00".toList (.inl rfl)).trans rfl
    · have n : buffer.length + 1 = (buffer.length - rounds) + 1 + rounds := by omega
      have run := reads.run (buffer.length - rounds + 1) [] (.inr (.inl rfl))
      rw [append_nil] at run
      rw [if_neg emp, fromCString_eq (reads.start.resolve_left emp), n, run,
        decide_eq_true emp]
      rfl
  · have joined : (if buffer ≠ [] then buffer ++ [' '] else buffer) ++
        IntervalToStringCast.formatTime interval.micros =
        buffer ++ separated buffer (IntervalToStringCast.formatTime interval.micros) := by
      unfold separated
      split_ifs <;> simp
    have lo := reads.startsNumber (startsNumber_formatTime interval.micros)
    have next := reads.next
      ((buffer ++ separated buffer (IntervalToStringCast.formatTime interval.micros)).length -
        rounds) (IntervalToStringCast.formatTime interval.micros)
    rw [if_pos noTime, joined, fromCString_eq lo]
    generalize length_eq : (buffer ++ separated buffer
      (IntervalToStringCast.formatTime interval.micros)).length = len at next ⊢
    rw [length_append] at length_eq
    have n : len + 1 = len - rounds + 1 + rounds := by omega
    rw [n, next, parsePart_formatTime]

/-- The text of an interval is read as the interval exactly if it has fewer than a billion
hours, in either direction. -/
theorem interval_text_iff (interval : IntervalValue)
    (months : -2 ^ 31 ≤ interval.months ∧ interval.months < 2 ^ 31)
    (days : -2 ^ 31 ≤ interval.days ∧ interval.days < 2 ^ 31) :
    fromCString (IntervalToStringCast.format interval) = some interval ↔
      interval.micros.natAbs < 3600000000000000000 := by
  rw [fromCString_format months days, ite_none_right_eq_some]
  exact and_iff_left rfl

/-- Months and microseconds below zero, days above. -/
theorem interval_text_mixed : fromCString (IntervalToStringCast.format ⟨-14, 3, -90061000001⟩) =
      some ⟨-14, 3, -90061000001⟩ :=
  (interval_text_iff ⟨-14, 3, -90061000001⟩ (by decide) (by decide)).mpr (by decide)

/-- A billion hours are written with ten digits. -/
theorem interval_text_hours :
    ¬ fromCString (IntervalToStringCast.format ⟨0, 0, 3600000000000000000⟩) =
      some ⟨0, 0, 3600000000000000000⟩ := by
  decide +kernel

end IntervalValue

end AccessPath
