import AccessPath.Temporal.Calendar
import AccessPath.Temporal.TimeText

/-!
# Text of dates

Years before the first are written as years BC after the date. The year has four digits or
more, month and day have two.
-/

namespace AccessPath

open Library
open List hiding format

variable {d : CalendarDate} {rest : List Char}

namespace DateToStringCast

open NumericHelper TimeToStringCast

/-- The year that is written, and whether it is BC. -/
def writtenYear (date : CalendarDate) : Nat × Bool :=
  if date.year ≤ 0 then ((-date.year + 1).toNat, true) else (date.year.toNat, false)

def yearTextLength (year : Nat) : Nat :=
  4 + (if 10000 ≤ year then 1 else 0) + (if 100000 ≤ year then 1 else 0) +
    (if 1000000 ≤ year then 1 else 0) + if 10000000 ≤ year then 1 else 0

def bcText (addBc : Bool) : List Char := if addBc then " (BC)".toList else []

def format (date : CalendarDate) : List Char :=
  let (year, addBc) := writtenYear date
  zeroPad (yearTextLength year) (formatUnsigned year []) ++
    '-' :: (formatTwoDigits date.month.toNat ++ '-' :: (formatTwoDigits date.day.toNat ++
      bcText addBc))

end DateToStringCast

namespace Date

def infinity : Int := 2 ^ 31 - 1

def ninfinity : Int := -(2 ^ 31 - 1)

/-- `Date::PINF`. -/
def pinf : List Char := "infinity".toList

/-- `Date::NINF`. -/
def ninf : List Char := "-infinity".toList

/-- `Date::EPOCH`. -/
def epoch : List Char := "epoch".toList

def toString (date : Int) : List Char := if date = infinity then pinf
  else if date = ninfinity then ninf
  else DateToStringCast.format (convert date)

/-! ## Reading -/

def tryConvertDateSpecial : List Char → List Char → Option (List Char)
  | text, [] => some text
  | c :: text, s :: special =>
    if characterToLower c = s then tryConvertDateSpecial text special else none
  | [], _ :: _ => none

/-- The loop over the year. -/
def readYear (year : Nat) : List Char → Option (Nat × List Char)
  | [] => some (year, [])
  | c :: text =>
    if c.isDigit then
      if 100000000 ≤ year then none else readYear (digitValue c + year * 10) text
    else some (year, c :: text)

/-- The special values, after which there are only spaces. -/
def convertSpecial (yearneg : Bool) (text : List Char) : Option (Int × List Char) :=
  match tryConvertDateSpecial text pinf with
  | some rest =>
    if skipSpaces rest = [] then some (if yearneg then ninfinity else infinity, []) else none
  | none =>
    match tryConvertDateSpecial text epoch with
    | some rest => if skipSpaces rest = [] then some (0, []) else none
    | none => none

/-- The year with what may follow the day. -/
def readBc (yearneg : Bool) (year : Int) : List Char → Option (Int × List Char)
  | space :: left :: b :: c :: right :: text =>
    if characterIsSpace space ∧ left = '(' ∧ characterToLower b = 'b' ∧
        characterToLower c = 'c' ∧ right = ')' then
      if yearneg ∨ year = 0 then none else some (-year + 1, text)
    else some (year, space :: left :: b :: c :: right :: text)
  | text => some (year, text)

/-- What may come after a date. -/
def checkRest (strict : Bool) (text : List Char) : Option (List Char) :=
  if strict then if skipSpaces text = [] then some [] else none
  else if startsWithDigit text then none
  else some text

def isSeparator (c : Char) : Bool := c == ' ' || c == '-' || c == '/' || c == '\\'

/-- `TryConvertDate` after the sign, at a digit. -/
def convertDigits (strict yearneg : Bool) (text : List Char) : Option (Int × List Char) := do
  let (year, text) ← readYear 0 text
  match text with
  | [] => none
  | separator :: text =>
    if isSeparator separator then do
      let (month, text) ← parseDoubleDigit text
      let text ← dropCharacter separator text
      let (day, text) ← parseDoubleDigit text
      let (year, text) ← readBc yearneg (if yearneg then -(year : Int) else year) text
      let text ← checkRest strict text
      (tryFromDate ⟨year, month, day⟩).map (·, text)
    else none

/-- `TryConvertDate` after the sign. -/
def convertUnsigned (strict yearneg : Bool) (text : List Char) : Option (Int × List Char) :=
  if text = [] then none
  else if startsWithDigit text then convertDigits strict yearneg text
  else convertSpecial yearneg text

/-- `TryConvertDate`, with the rest of the text after the date. -/
def tryConvertDate (strict : Bool) (text : List Char) : Option (Int × List Char) :=
  match skipSpaces text with
  | '-' :: text => convertUnsigned strict true text
  | text => convertUnsigned strict false text

/-- `FromString`, which throws if the text is not a date. -/
def fromString (strict : Bool) (text : List Char) : Option Int :=
  (tryConvertDate strict text).map Prod.fst

/-! ## Reading what was written -/

open DateToStringCast

theorem readYear_digits {ds rest : List Char} (digs : Digits ds)
    (noDigit : startsWithDigit rest = false) {y : Nat}
    (lt : 10 ^ ds.length * y + digitsValue ds < 1000000000) : readYear y (ds ++ rest) =
      some (10 ^ ds.length * y + digitsValue ds, rest) := by
  induction ds generalizing y with
  | nil =>
    rw [length_nil, digitsValue_nil, pow_zero, one_mul, add_zero]
    cases rest with
    | nil => rfl
    | cons c rest =>
      have other : c.isDigit = false := noDigit
      rw [nil_append, readYear, if_neg (by rw [other]; decide)]
  | cons c ds ih =>
    obtain ⟨digit, ho⟩ := digits_cons_iff.mp digs
    have eq : 10 ^ (c :: ds).length * y + digitsValue (c :: ds) =
        10 ^ ds.length * (digitValue c + y * 10) + digitsValue ds := by
      rw [digitsValue_cons, length_cons, Nat.pow_succ]
      ring
    have power := Nat.one_le_pow ds.length 10 (by decide)
    rw [eq] at lt ⊢
    have room : ¬ 100000000 ≤ y := by
      intro large
      nlinarith
    rw [cons_append, readYear, if_pos digit, if_neg room, ih ho lt]

/-- What is not taken for the end of a date BC. -/
def NotBc (text : List Char) : Prop :=
  startsWithDigit text = false ∧ ∀ yearneg year, readBc yearneg year text = some (year, text)

theorem notBc_of_second {space c : Char} {text : List Char} (noDigit : space.isDigit = false)
    (other : c ≠ '(') : NotBc (space :: c :: text) := by
  refine ⟨noDigit, fun yearneg y => ?_⟩
  unfold readBc
  split
  next same =>
    obtain ⟨rfl, rfl, rfl⟩ : _ ∧ _ ∧ _ := by simpa using same
    exact if_neg fun bc => other bc.2.1
  next => rfl

/-- The year is that of the date once it is known whether it is BC. -/
theorem readBc_bcText (notBc : NotBc rest) :
    readBc false (writtenYear d).1 (bcText (writtenYear d).2 ++ rest) = some (d.year, rest) := by
  unfold writtenYear
  split_ifs with bc
  · have pos : ¬ (false = true ∨ ((-d.year + 1).toNat : Int) = 0) := by
      simp only [Bool.false_eq_true, false_or]
      omega
    have back : -((-d.year + 1).toNat : Int) + 1 = d.year := by omega
    have text : bcText true ++ rest = ' ' :: '(' :: 'B' :: 'C' :: ')' :: rest := rfl
    rw [text, readBc, if_pos (by decide), if_neg pos, back]
  · have back : (d.year.toNat : Int) = d.year := by omega
    rw [back]
    exact notBc.2 false d.year

theorem digits_year (y : Nat) :
    Digits (zeroPad (yearTextLength y) (NumericHelper.formatUnsigned y [])) ∧
      zeroPad (yearTextLength y) (NumericHelper.formatUnsigned y []) ≠ [] ∧
      digitsValue (zeroPad (yearTextLength y) (NumericHelper.formatUnsigned y [])) = y := by
  rw [NumericHelper.formatUnsigned_eq, append_nil, digitsValue_zeroPad, digitsValue_toDigits]
  refine ⟨digits_zeroPad (digits_toDigits _), ?_, rfl⟩
  exact append_ne_nil_of_right_ne_nil _ Nat.toDigits_ne_nil

/-- A date is read again from its text, with what follows left over. -/
theorem tryConvertDate_format (notBc : NotBc rest) (lt : (writtenYear d).1 < 1000000000)
    (month : 0 ≤ d.month ∧ d.month < 100) (day : 0 ≤ d.day ∧ d.day < 100) :
    tryConvertDate false (format d ++ rest) = (tryFromDate d).map (·, rest) := by
  obtain ⟨ds, ne, v⟩ := digits_year (writtenYear d).1
  unfold format
  rw [append_assoc, cons_append, append_assoc, cons_append, append_assoc]
  generalize zeroPad (yearTextLength (writtenYear d).1)
    (NumericHelper.formatUnsigned (writtenYear d).1 []) = y at ds ne v ⊢
  have read : ∀ aft, startsWithDigit aft = false →
      readYear 0 (y ++ aft) = some ((writtenYear d).1, aft) := by
    intro aft hnd
    have := @readYear_digits y aft ds hnd 0 (by omega)
    rw [mul_zero, zero_add, v] at this
    exact this
  have converted (aft : List Char) : tryConvertDate false (y ++ aft) =
      convertDigits false false (y ++ aft) := by
    obtain ⟨spaces, start⟩ := @skipSpaces_digits y aft ds ne
    have unsigned : convertUnsigned false false (y ++ aft) =
        convertDigits false false (y ++ aft) := by
      rw [convertUnsigned, if_neg (append_ne_nil_of_left_ne_nil ne _), if_pos start]
    rw [tryConvertDate, spaces]
    split
    next text minus =>
      rw [minus] at start
      exact absurd start (by simp [startsWithDigit])
    next => exact unsigned
  have months := parseDoubleDigit_iff.mpr (TimeToStringCast.doubleDigit_formatTwoDigits
    (show d.month.toNat < 100 by omega) ('-' :: (TimeToStringCast.formatTwoDigits d.day.toNat ++
      (bcText (writtenYear d).2 ++ rest))))
  have days := parseDoubleDigit_iff.mpr (TimeToStringCast.doubleDigit_formatTwoDigits
    (show d.day.toNat < 100 by omega) (bcText (writtenYear d).2 ++ rest))
  rw [converted, convertDigits, read _ rfl]
  simp only [Option.bind_eq_bind, Option.bind_some]
  rw [if_pos (by decide), months, Option.bind_some]
  rw [dropCharacter, if_pos rfl, Option.bind_some, days, Option.bind_some]
  rw [if_neg (by decide), readBc_bcText notBc, Option.bind_some]
  rw [checkRest, if_neg (by decide), if_neg (by rw [notBc.1]; decide), Option.bind_some,
    Int.toNat_of_nonneg month.1, Int.toNat_of_nonneg day.1]

theorem isValid_bounds (valid : isValid d = true) :
    (writtenYear d).1 < 10000000 ∧ (0 ≤ d.month ∧ d.month < 100) ∧ (0 ≤ d.day ∧ d.day < 100) := by
  have calendar := ((isValid_iff d).mp valid).1
  obtain ⟨⟨_, _⟩, _, _⟩ := calendar
  have length : monthLength (gregorianLeap d.year) d.month ≤ 31 := by
    unfold monthLength
    split_ifs <;> decide
  have years : minDate.year ≤ d.year ∧ d.year ≤ maxDate.year := by
    unfold isValid at valid
    split_ifs at valid <;> omega
  have low : minDate.year = -5877641 := rfl
  have high : maxDate.year = 5881580 := rfl
  refine ⟨?_, by omega, by omega⟩
  unfold writtenYear
  split_ifs <;> dsimp only <;> omega

theorem tryConvertDate_toString {d : Int} (fin : d ∈ finiteDays) (notBc : NotBc rest) :
    tryConvertDate false (toString d ++ rest) = some (d, rest) := by
  have notInfinity : d ≠ infinity ∧ d ≠ ninfinity := by
    have low : -2147483646 ≤ d := fin.1
    have high : d ≤ 2147483646 := fin.2
    unfold infinity ninfinity
    omega
  obtain ⟨_, month, day⟩ := isValid_bounds (convert_isValid fin)
  rw [toString, if_neg notInfinity.1, if_neg notInfinity.2,
    tryConvertDate_format notBc (by omega) month day, tryFromDate_convert fin]
  rfl

theorem notBc_nil : NotBc [] := ⟨rfl, fun _ _ => rfl⟩

theorem fromString_toString {d : Int} (valid : d ∈ finiteDays ∨ d = infinity ∨ d = ninfinity) :
    fromString false (toString d) = some d := by
  obtain fin | rfl | rfl := valid
  · have read := tryConvertDate_toString fin notBc_nil
    rw [append_nil] at read
    rw [fromString, read]
    rfl
  · decide
  · decide

end Date

end AccessPath
