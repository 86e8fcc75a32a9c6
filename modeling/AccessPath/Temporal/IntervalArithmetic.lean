import AccessPath.Art.Key
import AccessPath.Temporal.DateText
import AccessPath.Temporal.IntervalText

/-!
# Comparing and sorting intervals, and adding them to dates

Two intervals are compared after carrying microseconds into days and both into months. The
carries round toward zero and do not go from the days carried into the months again.
-/

namespace AccessPath.IntervalValue

def daysPerMonth : Int := 30

def microsPerMonth : Int := microsPerDay * daysPerMonth

def normalize (input : IntervalValue) : IntervalValue :=
  let extraMonthsD := input.days.tdiv daysPerMonth
  let extraMonthsMicros := input.micros.tdiv microsPerMonth
  let days := input.days - extraMonthsD * daysPerMonth
  let micros := input.micros - extraMonthsMicros * microsPerMonth
  let extraDaysMicros := micros.tdiv microsPerDay
  ⟨input.months + extraMonthsD + extraMonthsMicros, days + extraDaysMicros,
    micros - extraDaysMicros * microsPerDay⟩

/-- `operator==`. -/
def equals (left right : IntervalValue) : Bool :=
  if left = right then true else decide (left.normalize = right.normalize)

/-- `operator>`. -/
def greaterThan (left right : IntervalValue) : Bool :=
  let l := left.normalize
  let r := right.normalize
  if r.months < l.months then true
  else if l.months < r.months then false
  else if r.days < l.days then true
  else if l.days < r.days then false
  else r.micros < l.micros

def length (i : IntervalValue) : Int := (i.months * daysPerMonth + i.days) * microsPerDay + i.micros

theorem length_normalize (i : IntervalValue) : i.normalize.length = i.length := by
  unfold normalize length microsPerMonth
  ring

theorem equals_iff (left right : IntervalValue) :
    equals left right = true ↔ left.normalize = right.normalize := by
  unfold equals
  split
  · next same => simp [same]
  · simp

/-- Whole months are carried from the days and from the microseconds, each toward zero. -/
def wholeMonths (i : IntervalValue) : Int :=
  i.months + i.days.tdiv daysPerMonth + i.micros.tdiv microsPerMonth

/-- The days of the microseconds are added to those that are left, and not carried again. -/
def daysLeft (i : IntervalValue) : Int :=
  i.days.tmod daysPerMonth + (i.micros.tdiv microsPerDay).tmod daysPerMonth

def microsLeft (i : IntervalValue) : Int := i.micros.tmod microsPerDay

/-- What is left below the months. -/
def belowMonths (i : IntervalValue) : Int :=
  i.days.tmod daysPerMonth * microsPerDay + i.micros.tmod microsPerMonth

/-- It does not matter for the days that whole months are taken from the microseconds first. -/
theorem tdiv_sub_months (micros : Int) :
    (micros - micros.tdiv microsPerMonth * microsPerMonth).tdiv microsPerDay =
      (micros.tdiv microsPerDay).tmod daysPerMonth := by
  have nonneg (m : Int) (sign : 0 ≤ m) : (m - m.tdiv microsPerMonth * microsPerMonth).tdiv
      microsPerDay = (m.tdiv microsPerDay).tmod daysPerMonth := by
    unfold microsPerMonth microsPerDay daysPerMonth
    rw [Int.tdiv_eq_ediv_of_nonneg sign, Int.tdiv_eq_ediv_of_nonneg sign,
      Int.tdiv_eq_ediv_of_nonneg (by omega), Int.tmod_eq_emod_of_nonneg (by omega)]
    omega
  rcases le_total 0 micros with sign | sign
  · exact nonneg micros sign
  · have opposite := nonneg (-micros) (by omega)
    rw [Int.neg_tdiv, Int.neg_tdiv, Int.neg_tmod,
      show -micros - -micros.tdiv microsPerMonth * microsPerMonth =
        -(micros - micros.tdiv microsPerMonth * microsPerMonth) by ring, Int.neg_tdiv] at opposite
    exact Int.neg_inj.mp opposite

theorem belowMonths_eq (i : IntervalValue) :
    i.belowMonths = i.daysLeft * microsPerDay + i.microsLeft := by
  have days := tdiv_sub_months i.micros
  have rest := Int.tmod_def i.micros microsPerMonth
  have split := Int.tmod_def (i.micros.tmod microsPerMonth) microsPerDay
  rw [Int.tmod_tmod_of_dvd i.micros (show ↑microsPerDay ∣ microsPerMonth from ⟨_, rfl⟩), rest,
    mul_comm microsPerMonth, days] at split
  unfold belowMonths daysLeft microsLeft
  rw [split, rest]
  ring

theorem normalize_eq (i : IntervalValue) : i.normalize =
    ⟨i.wholeMonths, i.daysLeft, i.microsLeft⟩ := by
  have below := belowMonths_eq i
  have days := tdiv_sub_months i.micros
  have restDays := Int.tmod_def i.days daysPerMonth
  have restMicros := Int.tmod_def i.micros microsPerMonth
  unfold belowMonths daysLeft at below
  unfold normalize wholeMonths daysLeft
  dsimp only
  rw [days, mk.injEq]
  refine ⟨rfl, ?_, ?_⟩
  · rw [restDays, mul_comm]
  · linear_combination below - restMicros

/-- A difference in a field is made up for by one of the other sign below it. -/
def TakesBack (unit high low : Int) : Prop :=
  0 < high ∧ low ≤ -(high * unit) ∨ high < 0 ∧ -(high * unit) ≤ low

/-- The operators compare lengths exactly if what is left below the months does not take back a
difference in whole months, nor the microseconds that are left one in the days. -/
theorem compare_length_iff (left right : IntervalValue) :
    ((greaterThan left right = true ↔ right.length < left.length) ∧
      (equals left right = true ↔ left.length = right.length)) ↔
    ¬TakesBack microsPerMonth (left.wholeMonths - right.wholeMonths)
      (left.belowMonths - right.belowMonths) ∧
    (left.wholeMonths = right.wholeMonths →
      ¬TakesBack microsPerDay (left.daysLeft - right.daysLeft)
        (left.microsLeft - right.microsLeft)) := by
  rw [equals_iff, ← length_normalize left, ← length_normalize right, belowMonths_eq,
    belowMonths_eq, greaterThan, normalize_eq, normalize_eq]
  generalize left.wholeMonths = lmonths, left.daysLeft = ldays, left.microsLeft = lmicros
  generalize right.wholeMonths = rmonths, right.daysLeft = rdays, right.microsLeft = rmicros
  simp only [length, TakesBack, microsPerMonth, microsPerDay, daysPerMonth, mk.injEq]
  split_ifs <;> simp <;> omega

/-- One day less a microsecond, against as many microseconds. -/
theorem compare_opposite_signs :
    let left : IntervalValue := ⟨0, 1, -1⟩
    let right : IntervalValue := ⟨0, 0, 86399999999⟩
    left.length = right.length ∧ equals left right = false ∧ greaterThan left right = true := by
  decide

/-! ## The key of an interval -/

open Library

/-- `interval_t` with its fields as they are stored. -/
structure Stored where
  months : int32.Value
  days : int32.Value
  micros : int64.Value

namespace Stored

def value (i : Stored) : IntervalValue :=
  ⟨int32.toInt i.months, int32.toInt i.days, int64.toInt i.micros⟩

/-- `Radix::EncodeData<interval_t>`. -/
def encodeData (i : Stored) : Bytes :=
  Radix.encodeData _ i.months ++ (Radix.encodeData _ i.days ++ Radix.encodeData _ i.micros)

end Stored

/-- The first field that differs decides. -/
def Above (l r : IntervalValue) : Prop :=
  r.months < l.months ∨ r.months = l.months ∧ (r.days < l.days ∨
    r.days = l.days ∧ r.micros < l.micros)

theorem greaterThan_iff (l r : IntervalValue) :
    greaterThan l r = true ↔ Above l.normalize r.normalize := by
  rw [Above, greaterThan]
  split_ifs <;> simp <;> omega

/-- The same carries leave the differences of the fields as they are. -/
theorem carried_sub {l r : IntervalValue}
    (months : l.days.tdiv daysPerMonth = r.days.tdiv daysPerMonth)
    (days : l.micros.tdiv microsPerDay = r.micros.tdiv microsPerDay) :
    l.wholeMonths - r.wholeMonths = l.months - r.months ∧
      l.daysLeft - r.daysLeft = l.days - r.days ∧
      l.microsLeft - r.microsLeft = l.micros - r.micros := by
  have daysLeft : l.daysLeft - r.daysLeft = l.days - r.days := by
    unfold daysLeft
    rw [Int.tmod_def l.days, Int.tmod_def r.days, months, days]
    ring
  have microsLeft : l.microsLeft - r.microsLeft = l.micros - r.micros := by
    unfold microsLeft
    rw [Int.tmod_def l.micros, Int.tmod_def r.micros, days]
    ring
  refine ⟨?_, daysLeft, microsLeft⟩
  -- the lengths do not change either
  have left := length_normalize l
  have right := length_normalize r
  rw [normalize_eq] at left right
  simp only [length, microsPerDay, daysPerMonth] at left right
  omega

theorem encodeData_ordered (l r : Stored) :
    (r.encodeData < l.encodeData ↔ Above l.value r.value) ∧
      (l.encodeData = r.encodeData ↔ l.value = r.value) := by
  have ord := int32.encodeData_ordered.pair (int32.encodeData_ordered.pair int64.encodeData_ordered)
  have less := ord.lt_iff (r.months, r.days, r.micros) (l.months, l.days, l.micros)
  have eq := ord.eq_iff (l.months, l.days, l.micros) (r.months, r.days, r.micros)
  have inj (t : IntegerType) (x y : t.Value) : x = y ↔ t.toInt x = t.toInt y :=
    ⟨congrArg _, t.toInt_injective⟩
  simp only [OrderedEncoding.PairLess, Prod.mk.injEq, inj] at less eq
  rw [Above, Stored.value, Stored.value, mk.injEq]
  exact ⟨less, eq⟩

/-- The key sorts as the operators compare if both intervals have the same months carried from
their days and the same days carried from their microseconds, as when nothing is carried. -/
theorem encodeData_compare (left right : Stored)
    (months : left.value.days.tdiv daysPerMonth = right.value.days.tdiv daysPerMonth)
    (days : left.value.micros.tdiv microsPerDay = right.value.micros.tdiv microsPerDay) :
    (right.encodeData < left.encodeData ↔ greaterThan left.value right.value = true) ∧
      (left.encodeData = right.encodeData ↔ equals left.value right.value = true) := by
  rw [(encodeData_ordered left right).1, (encodeData_ordered left right).2, greaterThan_iff,
    equals_iff, Above, Above, normalize_eq, normalize_eq]
  generalize left.value = l at *
  generalize right.value = r at *
  obtain ⟨wholeMonths, daysLeft, microsLeft⟩ := carried_sub months days
  obtain ⟨_, _, _⟩ := l
  obtain ⟨_, _, _⟩ := r
  dsimp only at wholeMonths daysLeft microsLeft ⊢
  rw [mk.injEq, mk.injEq]
  constructor <;> omega

/-- A year against thirteen months with a day less. -/
theorem encodeData_compare_year :
    let left : Stored := ⟨13, -1, 0⟩
    let right : Stored := ⟨12, 0, 0⟩
    right.encodeData < left.encodeData ∧ greaterThan left.value right.value = true := by
  have order := (encodeData_compare ⟨13, -1, 0⟩ ⟨12, 0, 0⟩ (by decide) (by decide)).1
  exact ⟨order.mpr (by decide), by decide⟩

/-- A month and thirty days. -/
theorem encodeData_month :
    let left : Stored := ⟨1, 0, 0⟩
    let right : Stored := ⟨0, 30, 0⟩
    equals left.value right.value = true ∧ right.encodeData < left.encodeData := by
  decide

/-! ## Adding to a date -/

open Date

def monthDays (year month : Int) : Int :=
  entry (if isLeapYear year then leapDays else normalDays) month

def isFinite (date : Int) : Bool := date != infinity && date != ninfinity

/-- The year and month that `Add` goes to. -/
def shiftMonths (date : CalendarDate) (months : Int) : Int × Int :=
  let yearDiff := months.tdiv 12
  let year := date.year + yearDiff
  let month := date.month + (months - yearDiff * 12)
  if 12 < month then (year + 1, month - 12)
  else if month ≤ 0 then (year - 1, month + 12)
  else (year, month)

/-- `Interval::Add`, without a result where it throws. -/
def add (left : Int) (right : IntervalValue) : Option Int :=
  if !isFinite left then some left else do
  let result ← (if right.months ≠ 0 then
      let date := convert left
      let (year, month) := shiftMonths date right.months
      tryFromDate ⟨year, month, min date.day (monthDays year month)⟩
    else some left)
  let result ← (if right.days ≠ 0 then int32.checked (result + right.days) else some result)
  let result ← (if right.micros ≠ 0 then
    int32.checked (result + right.micros.tdiv microsPerDay) else some result)
  if isFinite result then some result else none

/-- The date so many months later, or the last day of that month. -/
def monthsLater (date : CalendarDate) (months : Int) : CalendarDate :=
  let month := date.year * 12 + (date.month - 1) + months
  ⟨month / 12, month % 12 + 1,
    min date.day (monthLength (gregorianLeap (month / 12)) (month % 12 + 1))⟩

variable {date : CalendarDate} {left n : Int}

theorem monthsLater_valid (h : date.Valid) (months : Int) : (monthsLater date months).Valid := by
  unfold monthsLater CalendarDate.Valid at *
  dsimp only
  have := monthLength_pos (gregorianLeap ((date.year * 12 + (date.month - 1) + months) / 12))
    ((date.year * 12 + (date.month - 1) + months) % 12 + 1)
  omega

theorem monthsLater_zero (h : date.Valid) : monthsLater date 0 = date := by
  obtain ⟨⟨_, _⟩, _, le⟩ := h
  have year : (date.year * 12 + (date.month - 1) + 0) / 12 = date.year := by omega
  have month : (date.year * 12 + (date.month - 1) + 0) % 12 + 1 = date.month := by omega
  unfold monthsLater
  dsimp only
  rw [year, month, min_eq_left le]

theorem shiftMonths_eq (h : date.Valid) (months : Int) : shiftMonths date months =
    ((monthsLater date months).year, (monthsLater date months).month) := by
  obtain ⟨⟨_, _⟩, -⟩ := h
  have parts := Int.mul_tdiv_add_tmod months 12
  have low := Int.lt_tmod_of_pos months (by decide : (0 : Int) < 12)
  have high := Int.tmod_lt_of_pos months (by decide : (0 : Int) < 12)
  unfold shiftMonths monthsLater
  dsimp only
  split_ifs <;> refine Prod.ext ?_ ?_ <;> dsimp only <;> omega

theorem monthDays_eq (h : date.Valid) : monthDays date.year date.month =
    monthLength (gregorianLeap date.year) date.month := by
  rw [monthDays, isLeapYear_eq, entry_monthLength _ h.1.1 h.1.2]

theorem mem_tryFromDate (h : date.Valid) : n ∈ tryFromDate date ↔
    n = date.dayNumber ∧ n ∈ finiteDays := by
  by_cases fin : date.dayNumber ∈ finiteDays
  · rw [tryFromDate_eq ((isValid_iff date).mpr ⟨h, fin⟩), Option.mem_some_iff]
    grind
  · rw [tryFromDate, if_neg (mt (isValid_iff date).mp fun both => fin both.2)]
    grind

theorem isFinite_iff : isFinite n = true ↔ n ≠ 2147483647 ∧ n ≠ -2147483647 := by
  simp [isFinite, infinity, ninfinity]

theorem mem_checked {p : Prop} [Decidable p] {a k : Int} (zero : ¬p → k = 0)
    (h : -2 ^ 31 ≤ a ∧ a < 2 ^ 31) :
    n ∈ (if p then int32.checked (a + k) else some a) ↔ n = a + k ∧ -2 ^ 31 ≤ n ∧ n < 2 ^ 31 := by
  have lowest : int32.minimum = -2 ^ 31 := by decide
  have greatest : int32.maximum = 2 ^ 31 - 1 := by decide
  unfold IntegerType.checked
  split
  · split <;> simp <;> omega
  · next none =>
    simp [zero none]
    omega

/-- The result is between the infinities or the smallest number of 32 bits. -/
theorem mem_add_iff (fin : left ∈ finiteDays) (right : IntervalValue) :
    n ∈ add left right ↔ ∃ d ∈ finiteDays,
      d = (monthsLater (convert left) right.months).dayNumber ∧
      -2 ^ 31 ≤ d + right.days ∧ d + right.days < 2 ^ 31 ∧
      n = d + right.days + right.micros.tdiv microsPerDay ∧ (n = -2 ^ 31 ∨ n ∈ finiteDays) := by
  have valid := (convert_spec left).1
  have months : (if right.months ≠ 0 then
      let date := convert left
      let (year, month) := shiftMonths date right.months
      tryFromDate ⟨year, month, min date.day (monthDays year month)⟩
    else some left) = tryFromDate (monthsLater (convert left) right.months) := by
    split
    · dsimp only
      rw [shiftMonths_eq valid, monthDays_eq (monthsLater_valid valid _)]
      rfl
    · next zero =>
      rw [not_not.mp zero, monthsLater_zero valid, tryFromDate_convert fin]
  have isFin : isFinite left = true := by
    rw [isFinite_iff]
    obtain ⟨lo, hi⟩ := fin
    omega
  unfold add
  rw [months, isFin]
  simp only [Bool.not_true, Bool.false_eq_true, if_false, Option.bind_eq_bind, Option.mem_def,
    Option.bind_eq_some_iff]
  simp only [← Option.mem_def, mem_tryFromDate (monthsLater_valid valid _)]
  simp only [finiteDays, Set.mem_ofPred_eq]
  constructor
  · intro h
    rcases h with ⟨d, ⟨hd, lo, hi⟩, _, he, _, got, hn⟩
    obtain ⟨rfl, lo', hi'⟩ := (mem_checked not_not.mp (by omega)).mp he
    obtain ⟨rfl, _, _⟩ := (mem_checked (fun h => by simp [not_not.mp h]) (by omega)).mp got
    rw [Option.mem_ite_none_right, isFinite_iff, Option.mem_some_iff] at hn
    obtain ⟨_, rfl⟩ := hn
    exact ⟨d, ⟨lo, hi⟩, hd, lo', hi', rfl, by omega⟩
  · intro h
    rcases h with ⟨d, ⟨lo, hi⟩, hd, lo', hi', rfl, _⟩
    refine ⟨d, ⟨hd, lo, hi⟩, _, (mem_checked not_not.mp (by omega)).mpr ⟨rfl, lo', hi'⟩, _,
      (mem_checked (fun h => by simp [not_not.mp h]) (by omega)).mpr ⟨rfl, ?_, ?_⟩, ?_⟩
    · omega
    · omega
    · rw [Option.mem_ite_none_right, isFinite_iff, Option.mem_some_iff]
      omega

theorem isValid_convert_iff (n : Int) : isValid (convert n) = true ↔ n ∈ finiteDays := by
  rw [isValid_iff, (convert_spec n).2]
  exact and_iff_right (convert_spec n).1

/-- The smallest number of 32 bits is taken for a date, as it is not an infinity. -/
theorem add_isValid_iff (left : Int) (finite : left ∈ finiteDays) (right : IntervalValue) :
    (∀ n ∈ add left right, isValid (convert n) = true) ↔
      let d := (monthsLater (convert left) right.months).dayNumber
      d ∈ finiteDays → -2 ^ 31 ≤ d + right.days → d + right.days < 2 ^ 31 →
        d + right.days + right.micros.tdiv microsPerDay ≠ -2 ^ 31 := by
  simp only [isValid_convert_iff, mem_add_iff finite right]
  constructor
  · intro h hd lo hi eq
    have := h _ ⟨_, hd, rfl, lo, hi, rfl, .inl eq⟩
    rw [eq] at this
    exact absurd this.1 (by decide)
  · intro h n mem
    rcases mem with ⟨_, hd, rfl, lo, hi, rfl, least | finite⟩
    · exact absurd least (h hd lo hi)
    · exact finite

/-- A day after the epoch. -/
theorem add_isValid_one_day : add 0 ⟨0, 1, 0⟩ = some 1 ∧
    ∀ n ∈ add 0 ⟨0, 1, 0⟩, isValid (convert n) = true :=
  ⟨by decide, (add_isValid_iff 0 ⟨by decide, by decide⟩ ⟨0, 1, 0⟩).mpr (fun _ _ _ => by decide)⟩

/-- Two days before the first date. -/
theorem add_before_first_date : add (-2147483646) ⟨0, -2, 0⟩ = some (-2147483648) ∧
    isValid (convert (-2147483648)) = false := by
  refine ⟨by decide, ?_⟩
  rw [Bool.eq_false_iff, ne_eq, isValid_convert_iff]
  exact fun finite => absurd finite.1 (by decide)

end AccessPath.IntervalValue
