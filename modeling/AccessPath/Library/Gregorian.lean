import Mathlib.Tactic.IntervalCases
import Mathlib.Tactic.Ring

/-!
# The proleptic Gregorian calendar

Dates are a year, a month and a day. The number of a date counts the days from the
first day of 1970, so that the next day has the next number.
-/

namespace AccessPath.Library

@[ext] structure CalendarDate where
  year : Int
  month : Int
  day : Int
deriving DecidableEq, Repr

/-- The years with a leap day. -/
def gregorianLeap (year : Int) : Bool :=
  decide (year % 4 = 0 ∧ (year % 100 ≠ 0 ∨ year % 400 = 0))

def yearLength (leap : Bool) : Int := if leap then 366 else 365

/-- The number of days of a month. -/
def monthLength (leap : Bool) (month : Int) : Int :=
  if month = 2 then (if leap then 29 else 28)
  else if month = 4 ∨ month = 6 ∨ month = 9 ∨ month = 11 then 30
  else 31

/-- The number of days of a year before a month. -/
def daysBeforeMonth (leap : Bool) (month : Int) : Int :=
  ((List.range (month - 1).toNat).map fun i : Nat => monthLength leap (i + 1)).sum

/-- The number of days between the first days of the year zero and of a year. -/
def daysBeforeYear (year : Int) : Int :=
  365 * year + (year - 1) / 4 - (year - 1) / 100 + (year - 1) / 400

theorem daysBeforeYear_succ (y : Int) :
    daysBeforeYear (y + 1) = daysBeforeYear y + yearLength (gregorianLeap y) := by
  unfold daysBeforeYear yearLength gregorianLeap
  split
  next leap =>
    have := of_decide_eq_true leap
    omega
  next common =>
    have := of_decide_eq_false (Bool.eq_false_iff.mpr common)
    omega

theorem daysBeforeYear_mono {y y' : Int} (less : y ≤ y') :
    daysBeforeYear y ≤ daysBeforeYear y' := by
  unfold daysBeforeYear
  omega

theorem daysBeforeYear_add_cycle (y cycles : Int) :
    daysBeforeYear (y + 400 * cycles) = daysBeforeYear y + 146097 * cycles := by
  unfold daysBeforeYear
  omega

theorem gregorianLeap_add_cycle (y cycles : Int) :
    gregorianLeap (y + 400 * cycles) = gregorianLeap y := by
  unfold gregorianLeap
  apply decide_eq_decide.mpr
  omega

variable (leap : Bool)

theorem monthLength_pos (mo : Int) : 0 < monthLength leap mo := by
  unfold monthLength
  split_ifs <;> decide

theorem daysBeforeMonth_succ {mo : Int} (pos : 1 ≤ mo) :
    daysBeforeMonth leap (mo + 1) = daysBeforeMonth leap mo + monthLength leap mo := by
  have grown : (mo + 1 - 1).toNat = (mo - 1).toNat + 1 := by omega
  have last : (((mo - 1).toNat : Nat) : Int) + 1 = mo := by omega
  rw [daysBeforeMonth, daysBeforeMonth, grown, List.range_succ, List.map_append, List.sum_append,
    List.map_singleton, List.sum_singleton, last]

theorem daysBeforeMonth_mono {mo mo' : Int} (pos : 1 ≤ mo)
    (less : mo ≤ mo') : daysBeforeMonth leap mo ≤ daysBeforeMonth leap mo' := by
  induction mo', less using Int.leInduction with
  | base => exact le_refl _
  | succ mo' less ih =>
    rw [daysBeforeMonth_succ leap (pos.trans less)]
    have := monthLength_pos leap mo'
    omega

@[simp] theorem daysBeforeMonth_january : daysBeforeMonth leap 1 = 0 := rfl

theorem daysBeforeMonth_end : daysBeforeMonth leap 13 = yearLength leap := by
  cases leap <;> decide

namespace CalendarDate

/-- The days of the calendar. -/
def Valid (date : CalendarDate) : Prop :=
  (1 ≤ date.month ∧ date.month ≤ 12) ∧
    1 ≤ date.day ∧ date.day ≤ monthLength (gregorianLeap date.year) date.month

instance instDecidableValid (date : CalendarDate) : Decidable date.Valid := by
  unfold Valid
  infer_instance

/-- The number of days of its year before a date. -/
def dayOfYear (date : CalendarDate) : Int :=
  daysBeforeMonth (gregorianLeap date.year) date.month + date.day - 1

/-- The number of days from the first day of 1970. -/
def dayNumber (date : CalendarDate) : Int :=
  daysBeforeYear date.year - daysBeforeYear 1970 + date.dayOfYear

/-- The day after a date. -/
def next (date : CalendarDate) : CalendarDate :=
  if date.day < monthLength (gregorianLeap date.year) date.month then
    { date with day := date.day + 1 }
  else if date.month < 12 then ⟨date.year, date.month + 1, 1⟩
  else ⟨date.year + 1, 1, 1⟩

variable {d d' : CalendarDate}

theorem Valid.next (valid : d.Valid) : d.next.Valid := by
  obtain ⟨⟨jan, dec⟩, _, _⟩ := valid
  unfold CalendarDate.next
  split_ifs with fit pre
  · exact ⟨⟨jan, dec⟩, by dsimp only; omega, by dsimp only; omega⟩
  · exact ⟨⟨by dsimp only; omega, by dsimp only; omega⟩, le_refl _, monthLength_pos _ _⟩
  · exact ⟨⟨le_refl _, Int.le_of_lt (by dsimp only; omega)⟩, le_refl _, monthLength_pos _ _⟩

theorem Valid.dayNumber_next (valid : d.Valid) : d.next.dayNumber = d.dayNumber + 1 := by
  obtain ⟨⟨jan, _⟩, _, _⟩ := valid
  unfold CalendarDate.next dayNumber dayOfYear
  split_ifs with fit pre
  · dsimp only
    omega
  · dsimp only
    rw [daysBeforeMonth_succ _ jan]
    omega
  · dsimp only
    have full := daysBeforeMonth_end (gregorianLeap d.year)
    rw [show (13 : Int) = d.month + 1 by omega, daysBeforeMonth_succ _ jan] at full
    rw [daysBeforeYear_succ, daysBeforeMonth_january]
    omega

theorem Valid.dayOfYear_bounds (valid : d.Valid) :
    0 ≤ d.dayOfYear ∧ d.dayOfYear < yearLength (gregorianLeap d.year) := by
  obtain ⟨⟨jan, _⟩, _, _⟩ := valid
  have start := daysBeforeMonth_mono (gregorianLeap d.year) (le_refl 1) jan
  have finish := @daysBeforeMonth_mono (gregorianLeap d.year) (d.month + 1) 13
    (by omega) (by omega)
  rw [daysBeforeMonth_january] at start
  rw [daysBeforeMonth_succ _ jan, daysBeforeMonth_end] at finish
  unfold dayOfYear
  omega

/-- The order in which the days come. -/
def Before (date date' : CalendarDate) : Prop :=
  date.year < date'.year ∨ date.year = date'.year ∧
    (date.month < date'.month ∨ date.month = date'.month ∧ date.day < date'.day)

theorem Valid.dayNumber_lt (valid : d.Valid) (valid' : d'.Valid)
    (pre : d.Before d') : d.dayNumber < d'.dayNumber := by
  have bounds := valid.dayOfYear_bounds
  have bounds' := valid'.dayOfYear_bounds
  rcases pre with he | ⟨same, pre⟩
  · have years := daysBeforeYear_mono (show d.year + 1 ≤ d'.year from he)
    rw [daysBeforeYear_succ] at years
    unfold dayNumber
    omega
  · have within : d.dayOfYear < d'.dayOfYear := by
      obtain ⟨⟨jan, -⟩, -, _⟩ := valid
      obtain ⟨-, _, -⟩ := valid'
      unfold dayOfYear
      rw [← same]
      rcases pre with he | ⟨here, _⟩
      · have months := @daysBeforeMonth_mono (gregorianLeap d.year) (d.month + 1) d'.month
          (by omega) he
        rw [daysBeforeMonth_succ _ jan] at months
        omega
      · rw [← here]
        omega
    unfold dayNumber
    rw [← same]
    omega

theorem before_trichotomy (d d' : CalendarDate) :
    d.Before d' ∨ d = d' ∨ d'.Before d := by
  rcases Int.lt_trichotomy d.year d'.year with he | y | hl
  · exact .inl (.inl he)
  · rcases Int.lt_trichotomy d.month d'.month with he | mo | hl
    · exact .inl (.inr ⟨y, .inl he⟩)
    · rcases Int.lt_trichotomy d.day d'.day with he | day | hl
      · exact .inl (.inr ⟨y, .inr ⟨mo, he⟩⟩)
      · exact .inr (.inl (CalendarDate.ext y mo day))
      · exact .inr (.inr (.inr ⟨y.symm, .inr ⟨mo.symm, hl⟩⟩))
    · exact .inr (.inr (.inr ⟨y.symm, .inl hl⟩))
  · exact .inr (.inr (.inl hl))

theorem Valid.eq_of_dayNumber (valid : d.Valid) (valid' : d'.Valid)
    (same : d.dayNumber = d'.dayNumber) : d = d' := by
  rcases before_trichotomy d d' with pre | heq | aft
  · exact absurd same (valid.dayNumber_lt valid' pre).ne
  · exact heq
  · exact absurd same (valid'.dayNumber_lt valid aft).ne'

theorem Valid.dayNumber_lt_iff (valid : d.Valid) (valid' : d'.Valid) :
    d.dayNumber < d'.dayNumber ↔ d.Before d' := by
  constructor
  · intro less
    rcases before_trichotomy d d' with pre | rfl | aft
    · exact pre
    · omega
    · exact absurd less (valid'.dayNumber_lt valid aft).not_gt
  · exact valid.dayNumber_lt valid'

end CalendarDate

end AccessPath.Library
