import AccessPath.Numeric.Format
import AccessPath.Numeric.IntegerCast

/-!
# Text of times

`TimeToStringCast` writes hours, minutes, seconds and
the fraction of a second without the zeros at its end, and `TryConvertInternal` reads them.
-/

namespace AccessPath

open Library
open List hiding format

variable {digits xs text : List Char} {micros v : Nat}

/-! ## Constants of `Interval` -/

def secsPerMinute : Nat := 60

def minsPerHour : Nat := 60

def secsPerHour : Nat := 3600

def microsPerSec : Nat := 1000000

def microsPerMinute : Nat := 60000000

def microsPerHour : Nat := 3600000000

def microsPerDay : Nat := 86400000000

/-- What `Time::Convert` computes. -/
structure TimeUnits where
  hour : Nat
  minute : Nat
  second : Nat
  micros : Nat
deriving DecidableEq

namespace Time

def fromTime (units : TimeUnits) : Nat :=
  ((units.hour * minsPerHour + units.minute) * secsPerMinute + units.second) * microsPerSec +
    units.micros

def convert (time : Nat) : TimeUnits :=
  let hour := time / microsPerHour
  let time := time - hour * microsPerHour
  let minute := time / microsPerMinute
  let time := time - minute * microsPerMinute
  let second := time / microsPerSec
  ⟨hour, minute, second, time - second * microsPerSec⟩

end Time

/-! ## Writing -/

namespace TimeToStringCast

open NumericHelper

/-- The buffer of `FormatMicros`. -/
def microBuffer (micros : Nat) : List Char := zeroPad 6 (formatUnsigned micros [])

/-- The zeros at the end that `FormatMicros` counts; the first digit is not looked at. -/
def trailingZeros (buffer : List Char) : Nat :=
  ((buffer.drop 1).reverse.takeWhile (· == '0')).length

/-- The point and the digits of the fraction. -/
def fractionText (micros : Nat) : List Char := if micros = 0 then []
  else
    let buffer := microBuffer micros
    '.' :: buffer.take (6 - trailingZeros buffer)

def formatTwoDigits (value : Nat) : List Char :=
  if value < 10 then ['0', Char.ofNat ('0'.toNat + value)]
  else [fmtDigit (value * 2), fmtDigit (value * 2 + 1)]

def format (units : TimeUnits) : List Char :=
  formatTwoDigits units.hour ++ ':' :: (formatTwoDigits units.minute ++
    ':' :: (formatTwoDigits units.second ++ fractionText units.micros))

end TimeToStringCast

def Time.toString (time : Nat) : List Char := TimeToStringCast.format (Time.convert time)

/-! ## Reading -/

/-- `ParseDoubleDigit`, which takes one digit or two. -/
def Date.parseDoubleDigit : List Char → Option (Nat × List Char)
  | [] => none
  | c :: text =>
    if c.isDigit then
      match text with
      | [] => some (digitValue c, [])
      | d :: text =>
        if d.isDigit then some (digitValue d + digitValue c * 10, text)
        else some (digitValue c, d :: text)
    else none

/-- Go past a character that has to be there. -/
def dropCharacter (c : Char) : List Char → Option (List Char)
  | [] => none
  | d :: text => if d = c then some text else none

namespace Time

open Date

/-- The loop over the hours, in which some more digits are allowed. -/
def readHours (digits hour : Nat) : List Char → Option (Nat × List Char)
  | [] => some (hour, [])
  | c :: text =>
    if c.isDigit then
      if 0 < digits then readHours (digits - 1) (hour * 10 + digitValue c) text else none
    else some (hour, c :: text)

/-- The loop over the digits of the fraction. -/
def readMicros (micros mult : Nat) : List Char → Nat × List Char
  | [] => (micros, [])
  | c :: text =>
    if c.isDigit then readMicros (micros + digitValue c * mult) (mult / 10) text
    else (micros, c :: text)

/-- The fraction, if there is one. -/
def readFraction : List Char → Nat × List Char
  | '.' :: text => readMicros 0 100000 text
  | text => (0, text)

/-- `TryConvertInternal` after the hours. -/
def convertAfterHours (strict : Bool) (hour : Nat) (text : List Char) :
    Option (Nat × List Char) := do
  let text ← dropCharacter ':' text
  let (minute, text) ← (parseDoubleDigit text).filter (·.1 < 60)
  let text ← dropCharacter ':' text
  let (second, text) ← (parseDoubleDigit text).filter (·.1 < 60)
  let (micros, text) := readFraction text
  let time := fromTime ⟨hour, minute, second, micros⟩
  if strict then
    if skipSpaces text = [] then some (time, []) else none
  else some (time, text)

/-- `TryConvertInternal`, with the rest of the text after the time. -/
def tryConvertInternal (strict : Bool) (text : List Char) : Option (Nat × List Char) :=
  if startsWithDigit (skipSpaces text) then do
    let (hour, text) ← readHours 9 0 (skipSpaces text)
    convertAfterHours strict hour text
  else none

end Time

/-! ## What is read -/

/-- One digit or two that are not followed by more. -/
def DoubleDigit (text : List Char) (n : Nat) (rest : List Char) : Prop :=
  ∃ digits, text = digits ++ rest ∧ Digits digits ∧ digitsValue digits = n ∧
    (digits.length = 2 ∨ digits.length = 1 ∧ startsWithDigit rest = false)

/-- A fraction, of which the first six digits count. -/
def Fraction (text : List Char) (micros : Nat) (rest : List Char) : Prop :=
  (text = rest ∧ rest.head? ≠ some '.' ∧ micros = 0) ∨
    ∃ digits, text = '.' :: (digits ++ rest) ∧ Digits digits ∧ startsWithDigit rest = false ∧
      micros = digitsValue (digits.take 6) * 10 ^ (6 - digits.length)

/-- What follows the hours. -/
def AfterHours (text : List Char) (units : TimeUnits) (rest : List Char) : Prop :=
  ∃ afterHours afterMinutes afterSeconds, text = ':' :: afterHours ∧
    DoubleDigit afterHours units.minute (':' :: afterMinutes) ∧ units.minute < 60 ∧
    DoubleDigit afterMinutes units.second afterSeconds ∧ units.second < 60 ∧
    Fraction afterSeconds units.micros rest

/-- A text that starts with a time of at most nine digits for the hours. -/
def ClockText (text : List Char) (units : TimeUnits) (rest : List Char) : Prop :=
  ∃ hours afterHours, skipSpaces text = hours ++ afterHours ∧ Digits hours ∧ hours ≠ [] ∧
    hours.length ≤ 9 ∧ digitsValue hours = units.hour ∧ AfterHours afterHours units rest

theorem digitsValue_single (c : Char) : digitsValue [c] = digitValue c := by
  rw [digitsValue_cons, digitsValue_nil, length_nil, pow_zero, one_mul, add_zero]

theorem digits_single {c : Char} (d : c.isDigit = true) : Digits [c] :=
  digits_cons_iff.mpr ⟨d, digits_nil⟩

/-- Every text is digits and a rest that does not start with one. -/
theorem exists_digits (text : List Char) :
    ∃ digits xs, text = digits ++ xs ∧ Digits digits ∧ startsWithDigit xs = false := by
  induction text with
  | nil => exact ⟨[], [], rfl, digits_nil, rfl⟩
  | cons c text ih =>
    cases d : c.isDigit with
    | false => exact ⟨[], c :: text, rfl, digits_nil, d⟩
    | true =>
      obtain ⟨digits, xs, rfl, had, noDigit⟩ := ih
      exact ⟨c :: digits, xs, rfl, digits_cons_iff.mpr ⟨d, had⟩, noDigit⟩

theorem AfterHours.noDigit {units : TimeUnits} (aft : AfterHours text units xs) :
    startsWithDigit text = false := by
  obtain ⟨_, _, _, rfl, _⟩ := aft
  rfl

theorem skipSpaces_digits (digs : Digits digits) (ne : digits ≠ []) :
    skipSpaces (digits ++ xs) = digits ++ xs ∧ startsWithDigit (digits ++ xs) = true := by
  cases digits with
  | nil => exact absurd rfl ne
  | cons c digits =>
    have d := (digits_cons_iff.mp digs).1
    exact ⟨skipSpaces_literal (literalCharacter_digit d) _, d⟩

theorem Date.parseDoubleDigit_iff {n : Nat} :
    parseDoubleDigit text = some (n, xs) ↔ DoubleDigit text n xs := by
  constructor
  · intro read
    unfold parseDoubleDigit at read
    split at read
    next => cases read
    next c text =>
      split_ifs at read with fst
      cases text with
      | nil =>
        cases read
        exact ⟨[c], rfl, digits_single fst, digitsValue_single c, .inr ⟨rfl, rfl⟩⟩
      | cons d text =>
        dsimp only at read
        split_ifs at read with second
        · cases read
          refine ⟨[c, d], rfl, digits_cons_iff.mpr ⟨fst, digits_single second⟩, ?_, .inl rfl⟩
          rw [digitsValue_cons, digitsValue_single, length_singleton]
          ring
        · cases read
          exact ⟨[c], rfl, digits_single fst, digitsValue_single c,
            .inr ⟨rfl, Bool.eq_false_iff.mpr second⟩⟩
  · intro ⟨digits, eq, had, v, len⟩
    subst eq v
    match digits, len with
    | [c, d], _ =>
      obtain ⟨fst, second⟩ := digits_cons_iff.mp had
      have second := (digits_cons_iff.mp second).1
      have v : digitsValue [c, d] = digitValue d + digitValue c * 10 := by
        rw [digitsValue_cons, digitsValue_single, length_singleton]
        ring
      exact (if_pos fst).trans ((if_pos second).trans (by rw [v]; rfl))
    | [c], .inr ⟨_, noDigit⟩ =>
      have fst := (digits_cons_iff.mp had).1
      refine (if_pos fst).trans ?_
      rw [digitsValue_single]
      cases xs with
      | nil => rfl
      | cons d xs => exact if_neg (Bool.eq_false_iff.mp noDigit)

namespace Time

open Date

theorem readHours_digits (digs : Digits digits) (noDigit : startsWithDigit xs = false)
    (budget hour : Nat) :
    readHours budget hour (digits ++ xs) =
      if digits.length ≤ budget then some (10 ^ digits.length * hour + digitsValue digits, xs)
      else none := by
  induction digits generalizing budget hour with
  | nil =>
    rw [length_nil, if_pos (Nat.zero_le _), digitsValue_nil, pow_zero, one_mul, add_zero]
    cases xs with
    | nil => rfl
    | cons c xs =>
      have other : c.isDigit = false := noDigit
      rw [nil_append, readHours, if_neg (by rw [other]; decide)]
  | cons c digits ih =>
    obtain ⟨d, ho⟩ := digits_cons_iff.mp digs
    rw [cons_append, readHours, if_pos d]
    cases budget with
    | zero => rfl
    | succ budget =>
      rw [if_pos (Nat.succ_pos _), Nat.add_sub_cancel, ih ho, digitsValue_cons,
        length_cons, Nat.pow_succ]
      simp only [Nat.add_le_add_iff_right]
      congr 3
      ring

theorem readMicros_digits (digs : Digits digits) (noDigit : startsWithDigit xs = false)
    {k : Nat} (us : Nat) : readMicros us (10 ^ k / 10) (digits ++ xs) =
      (us + digitsValue (digits.take k) * 10 ^ (k - digits.length), xs) := by
  induction digits generalizing k us with
  | nil =>
    rw [take_nil, digitsValue_nil, zero_mul, add_zero]
    cases xs with
    | nil => rfl
    | cons c xs =>
      have other : c.isDigit = false := noDigit
      rw [nil_append, readMicros, if_neg (by rw [other]; decide)]
  | cons c digits ih =>
    obtain ⟨d, ho⟩ := digits_cons_iff.mp digs
    rw [cons_append, readMicros, if_pos d]
    cases k with
    | zero =>
      have zero : 10 ^ 0 / 10 / 10 = 10 ^ 0 / 10 := rfl
      rw [zero, ih ho]
      simp
    | succ k =>
      have power : 10 ^ (k + 1) / 10 = 10 ^ k := by
        rw [Nat.pow_succ, Nat.mul_div_cancel _ (by decide)]
      rw [power, ih ho, take_succ_cons, digitsValue_cons, length_cons,
        Nat.add_sub_add_right, length_take]
      congr 1
      have split : k = min k digits.length + (k - digits.length) := by omega
      have eq : 10 ^ k = 10 ^ min k digits.length * 10 ^ (k - digits.length) := by
        rw [← Nat.pow_add, ← split]
      rw [eq]
      ring

theorem readFraction_iff : readFraction text = (micros, xs) ↔ Fraction text micros xs := by
  have point {ds xs : List Char} (digs : Digits ds)
      (noDigit : startsWithDigit xs = false) : readFraction ('.' :: (ds ++ xs)) =
        (digitsValue (ds.take 6) * 10 ^ (6 - ds.length), xs) := by
    have read := @readMicros_digits ds xs digs noDigit 6 0
    rw [zero_add] at read
    exact read
  constructor
  · intro read
    unfold readFraction at read
    split at read
    next text =>
      obtain ⟨ds, _, rfl, digs, noDigit⟩ := exists_digits text
      obtain ⟨rfl, rfl⟩ := Prod.mk.inj ((point digs noDigit).symm.trans read)
      exact .inr ⟨ds, rfl, digs, noDigit, rfl⟩
    next text o =>
      cases read
      refine .inl ⟨rfl, fun head => ?_, rfl⟩
      obtain ⟨tail, eq⟩ := head?_eq_some_iff.mp head
      exact o tail eq
  · intro fraction
    obtain ⟨rfl, noPoint, rfl⟩ | ⟨_, rfl, digs, noDigit, rfl⟩ := fraction
    · unfold readFraction
      split
      next => exact absurd rfl noPoint
      next => rfl
    · exact point digs noDigit

theorem dropCharacter_iff {c : Char} : dropCharacter c text = some xs ↔ text = c :: xs := by
  cases text with
  | nil => exact ⟨nofun, nofun⟩
  | cons d text =>
    rw [dropCharacter, Option.ite_none_right_eq_some, List.cons.injEq, Option.some.injEq]

theorem parseDoubleDigit_filter_iff {n : Nat} :
    (parseDoubleDigit text).filter (fun read => decide (read.1 < 60)) = some (n, xs) ↔
      DoubleDigit text n xs ∧ n < 60 := by
  rw [Option.filter_eq_some_iff, parseDoubleDigit_iff, decide_eq_true_iff]

theorem convertAfterHours_iff {hour t : Nat} : convertAfterHours false hour text = some (t, xs) ↔
      ∃ units, AfterHours text units xs ∧ units.hour = hour ∧ t = fromTime units := by
  unfold convertAfterHours
  simp only [Option.bind_eq_bind, Option.bind_eq_some_iff, dropCharacter_iff, Prod.exists,
    parseDoubleDigit_filter_iff, Bool.false_eq_true, if_false, Option.some.injEq, Prod.mk.injEq]
  constructor
  · intro ⟨afterHours, lo, minute, _, ⟨minutes, less⟩, afterMinutes, colon, snd,
      afterSeconds, ⟨seconds, less'⟩, v, eq⟩
    subst colon
    exact ⟨⟨hour, minute, snd, (readFraction afterSeconds).1⟩,
      ⟨afterHours, afterMinutes, afterSeconds, lo, minutes, less, seconds, less',
        readFraction_iff.mp (Prod.ext rfl eq)⟩, rfl, v.symm⟩
  · intro ⟨units, ⟨afterHours, afterMinutes, afterSeconds, lo, minutes, less, seconds, less',
      fraction⟩, hours, v⟩
    have read := readFraction_iff.mpr fraction
    subst hours
    exact ⟨afterHours, lo, units.minute, _, ⟨minutes, less⟩, afterMinutes, rfl, units.second,
      afterSeconds, ⟨seconds, less'⟩, by rw [v, read], by rw [read]⟩

theorem tryConvertInternal_iff {t : Nat} : tryConvertInternal false text = some (t, xs) ↔
      ∃ units, ClockText text units xs ∧ t = fromTime units := by
  obtain ⟨hours, aft, split, digits, noDigit⟩ := exists_digits (skipSpaces text)
  unfold tryConvertInternal
  constructor
  · intro read
    rw [Option.ite_none_right_eq_some, split, readHours_digits digits noDigit] at read
    obtain ⟨lo, read⟩ := read
    have ne : hours ≠ [] := by
      intro emp
      rw [emp, nil_append, noDigit] at lo
      cases lo
    by_cases few : hours.length ≤ 9
    · rw [if_pos few, mul_zero, zero_add] at read
      obtain ⟨units, hac, v, eq⟩ := convertAfterHours_iff.mp read
      exact ⟨units, ⟨hours, aft, split, digits, ne, few, v.symm, hac⟩, eq⟩
    · rw [if_neg few] at read
      cases read
  · intro ⟨units, ⟨hours, aft, split, digits, ne, few, v, hac⟩, eq⟩
    rw [split, if_pos (skipSpaces_digits digits ne).2, readHours_digits digits hac.noDigit,
      if_pos few, mul_zero,
      zero_add]
    exact convertAfterHours_iff.mpr ⟨units, hac, v.symm, eq⟩

theorem tryConvertInternal_of_long {hours aft : List Char} (ds : Digits hours)
    (noDigit : startsWithDigit aft = false) (long : 9 < hours.length) :
    tryConvertInternal false (hours ++ aft) = none := by
  have ne : hours ≠ [] := ne_nil_of_length_pos (by omega)
  obtain ⟨spaces, lo⟩ := @skipSpaces_digits hours aft ds ne
  rw [tryConvertInternal, spaces, if_pos lo, readHours_digits ds noDigit, if_neg (by omega)]
  rfl

end Time

/-! ## What is written -/

namespace TimeToStringCast

open NumericHelper

theorem formatTwoDigits_eq (lt : v < 100) : formatTwoDigits v = zeroPad 2 (Nat.toDigits 10 v) := by
  rw [zeroPad_two lt, formatTwoDigits]
  split_ifs with d
  · rw [digitChar_eq d, Nat.div_eq_of_lt d, Nat.mod_eq_of_lt d]
    rfl
  · rw [(fmtDigit_pair lt).1, (fmtDigit_pair lt).2]

theorem digits_formatTwoDigits (lt : v < 100) :
    Digits (formatTwoDigits v) ∧ (formatTwoDigits v).length = 2 ∧
      digitsValue (formatTwoDigits v) = v := by
  rw [formatTwoDigits_eq lt, digitsValue_zeroPad, digitsValue_toDigits]
  exact ⟨digits_zeroPad (digits_toDigits _),
    length_zeroPad (length_toDigits_le (by decide) lt), rfl⟩

theorem doubleDigit_formatTwoDigits (lt : v < 100) (xs : List Char) :
    DoubleDigit (formatTwoDigits v ++ xs) v xs := by
  obtain ⟨digits, len, num⟩ := digits_formatTwoDigits lt
  exact ⟨_, rfl, digits, num, .inl len⟩

theorem take_trailingZeros {buf : List Char} (len : buf.length = 6) :
    buf = buf.take (6 - trailingZeros buf) ++
        replicate (trailingZeros buf) '0' ∧ trailingZeros buf ≤ 5 := by
  have zeros : (buf.drop 1).reverse.takeWhile (· == '0') = replicate (trailingZeros buf) '0' := by
    refine eq_replicate_iff.mpr ⟨rfl, fun c mem => ?_⟩
    exact eq_of_beq (List.all_eq_true.mp all_takeWhile c mem)
  have split : buf.drop 1 = ((buf.drop 1).reverse.dropWhile (· == '0')).reverse ++
      replicate (trailingZeros buf) '0' := by
    have reversed := @takeWhile_append_dropWhile _ (· == '0') (buf.drop 1).reverse
    rw [zeros] at reversed
    have back := congrArg List.reverse reversed
    rw [reverse_append, reverse_replicate, reverse_reverse] at back
    exact back.symm
  generalize ((buf.drop 1).reverse.dropWhile (· == '0')).reverse = kept at split
  generalize trailingZeros buf = n at split ⊢
  have full : buf = (buf.take 1 ++ kept) ++ replicate n '0' := by
    rw [append_assoc, ← split, take_append_drop]
  have fst : (buf.take 1).length = 1 := by
    rw [length_take, len]
    rfl
  have tot := congrArg List.length full
  rw [length_append, length_append, length_replicate, len, fst] at tot
  have eq : buf.take (6 - n) = buf.take 1 ++ kept := by
    conv_lhs => rw [full]
    exact take_left' (by rw [length_append, fst]; omega)
  rw [eq]
  exact ⟨full, by omega⟩

theorem length_microBuffer (lt : micros < 1000000) : (microBuffer micros).length = 6 := by
  rw [microBuffer, formatUnsigned_eq, append_nil]
  exact length_zeroPad (length_toDigits_le (by decide) lt)

theorem fraction_fractionText (lt : micros < 1000000) (noDigit : startsWithDigit xs = false)
    (noPoint : xs.head? ≠ some '.') : Fraction (fractionText micros ++ xs) micros xs := by
  unfold fractionText
  dsimp only
  split_ifs with zero
  · exact .inl ⟨rfl, noPoint, zero⟩
  · have len := length_microBuffer lt
    have digits : Digits (microBuffer micros) := by
      rw [microBuffer, formatUnsigned_eq, append_nil]
      exact digits_zeroPad (digits_toDigits _)
    have v : digitsValue (microBuffer micros) = micros := by
      rw [microBuffer, formatUnsigned_eq, append_nil, digitsValue_zeroPad, digitsValue_toDigits]
    obtain ⟨split, few⟩ := take_trailingZeros len
    generalize trailingZeros (microBuffer micros) = zeros at split few ⊢
    have kept : ((microBuffer micros).take (6 - zeros)).length = 6 - zeros := by
      rw [length_take, len]
      omega
    refine .inr ⟨(microBuffer micros).take (6 - zeros), rfl, ?_, noDigit, ?_⟩
    · exact fun c mem => digits c (mem_of_mem_take mem)
    · rw [split, digitsValue_append, digitsValue_zeros, length_replicate, add_zero] at v
      rw [take_of_length_le (by omega), kept, Nat.sub_sub_self (by omega), mul_comm]
      exact v.symm

theorem afterHours_format {units : TimeUnits} (minutes : units.minute < 60)
    (seconds : units.second < 60) (us : units.micros < 1000000)
    (noDigit : startsWithDigit xs = false) (noPoint : xs.head? ≠ some '.') :
    AfterHours (':' :: (formatTwoDigits units.minute ++ ':' :: (formatTwoDigits units.second ++
      fractionText units.micros)) ++ xs) units xs := by
  refine ⟨_, formatTwoDigits units.second ++ (fractionText units.micros ++ xs),
    fractionText units.micros ++ xs, rfl, ?_, minutes,
    doubleDigit_formatTwoDigits (by omega) _, seconds, fraction_fractionText us noDigit noPoint⟩
  have := doubleDigit_formatTwoDigits (show units.minute < 100 by omega)
    (':' :: (formatTwoDigits units.second ++ (fractionText units.micros ++ xs)))
  simpa using this

end TimeToStringCast

namespace Time

open TimeToStringCast

theorem convert_spec (t : Nat) : fromTime (convert t) = t ∧ (convert t).hour = t / microsPerHour ∧
      (convert t).minute < 60 ∧ (convert t).second < 60 ∧ (convert t).micros < 1000000 := by
  unfold fromTime convert microsPerHour microsPerMinute microsPerSec minsPerHour secsPerMinute
  dsimp only
  omega

section

variable {t : Nat} (small : t < 100 * microsPerHour) {xs : List Char}
  (noDigit : startsWithDigit xs = false) (noPoint : xs.head? ≠ some '.')
include small noDigit noPoint

/-- A time below a hundred hours is read again from its text. -/
theorem clockText_toString : ClockText (toString t ++ xs) (convert t) xs := by
  obtain ⟨-, hour, minutes, seconds, micros⟩ := convert_spec t
  have two : (convert t).hour < 100 := by
    rw [hour]
    exact Nat.div_lt_of_lt_mul (Nat.mul_comm _ _ ▸ small)
  obtain ⟨digits, len, num⟩ := digits_formatTwoDigits two
  have ne := ne_nil_of_length_pos (len ▸ Nat.two_pos)
  refine ⟨formatTwoDigits (convert t).hour, _, ?_, digits, ne, by omega, num,
    afterHours_format minutes seconds micros noDigit noPoint⟩
  rw [Time.toString, format, append_assoc]
  exact (skipSpaces_digits digits ne).1

theorem tryConvertInternal_toString : tryConvertInternal false (toString t ++ xs) = some (t, xs) :=
  tryConvertInternal_iff.mpr
    ⟨convert t, clockText_toString small noDigit noPoint, (convert_spec t).1.symm⟩

end

end Time

end AccessPath
