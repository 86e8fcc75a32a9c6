import AccessPath.Library.Gregorian

/-!
# Dates

A date is a number of days from the first day of 1970. The functions of `Date` go
from the number to year, month and day and back, both through tables for the 400 years
after which the calendar repeats.
-/

namespace AccessPath

open Library Option

variable {date : CalendarDate} {month n year : Int} {offset : Nat}

/-! ## Tables -/

namespace Date

def normalDays : List Int := [0, 31, 28, 31, 30, 31, 30, 31, 31, 30, 31, 30, 31]

def cumulativeDays : List Int := [0, 31, 59, 90, 120, 151, 181, 212, 243, 273, 304, 334, 365]

def leapDays : List Int := [0, 31, 29, 31, 30, 31, 30, 31, 31, 30, 31, 30, 31]

def cumulativeLeapDays : List Int := [0, 31, 60, 91, 121, 152, 182, 213, 244, 274, 305, 335, 366]

def monthPerDayOfYear : List Int :=
  List.replicate 31 1 ++ List.replicate 28 2 ++ List.replicate 31 3 ++
    List.replicate 30 4 ++ List.replicate 31 5 ++ List.replicate 30 6 ++
    List.replicate 31 7 ++ List.replicate 31 8 ++ List.replicate 30 9 ++
    List.replicate 31 10 ++ List.replicate 30 11 ++ List.replicate 31 12

def leapMonthPerDayOfYear : List Int :=
  List.replicate 31 1 ++ List.replicate 29 2 ++ List.replicate 31 3 ++
    List.replicate 30 4 ++ List.replicate 31 5 ++ List.replicate 30 6 ++
    List.replicate 31 7 ++ List.replicate 31 8 ++ List.replicate 30 9 ++
    List.replicate 31 10 ++ List.replicate 30 11 ++ List.replicate 31 12

def cumulativeYearDays : List Int :=
  [0, 365, 730, 1096, 1461, 1826, 2191, 2557, 2922, 3287, 3652, 4018, 4383, 4748, 5113, 5479,
   5844, 6209, 6574, 6940, 7305, 7670, 8035, 8401, 8766, 9131, 9496, 9862, 10227, 10592, 10957,
   11323, 11688, 12053, 12418, 12784, 13149, 13514, 13879, 14245, 14610, 14975, 15340, 15706,
   16071, 16436, 16801, 17167, 17532, 17897, 18262, 18628, 18993, 19358, 19723, 20089, 20454,
   20819, 21184, 21550, 21915, 22280, 22645, 23011, 23376, 23741, 24106, 24472, 24837, 25202,
   25567, 25933, 26298, 26663, 27028, 27394, 27759, 28124, 28489, 28855, 29220, 29585, 29950,
   30316, 30681, 31046, 31411, 31777, 32142, 32507, 32872, 33238, 33603, 33968, 34333, 34699,
   35064, 35429, 35794, 36160, 36525, 36890, 37255, 37621, 37986, 38351, 38716, 39082, 39447,
   39812, 40177, 40543, 40908, 41273, 41638, 42004, 42369, 42734, 43099, 43465, 43830, 44195,
   44560, 44926, 45291, 45656, 46021, 46387, 46752, 47117, 47482, 47847, 48212, 48577, 48942,
   49308, 49673, 50038, 50403, 50769, 51134, 51499, 51864, 52230, 52595, 52960, 53325, 53691,
   54056, 54421, 54786, 55152, 55517, 55882, 56247, 56613, 56978, 57343, 57708, 58074, 58439,
   58804, 59169, 59535, 59900, 60265, 60630, 60996, 61361, 61726, 62091, 62457, 62822, 63187,
   63552, 63918, 64283, 64648, 65013, 65379, 65744, 66109, 66474, 66840, 67205, 67570, 67935,
   68301, 68666, 69031, 69396, 69762, 70127, 70492, 70857, 71223, 71588, 71953, 72318, 72684,
   73049, 73414, 73779, 74145, 74510, 74875, 75240, 75606, 75971, 76336, 76701, 77067, 77432,
   77797, 78162, 78528, 78893, 79258, 79623, 79989, 80354, 80719, 81084, 81450, 81815, 82180,
   82545, 82911, 83276, 83641, 84006, 84371, 84736, 85101, 85466, 85832, 86197, 86562, 86927,
   87293, 87658, 88023, 88388, 88754, 89119, 89484, 89849, 90215, 90580, 90945, 91310, 91676,
   92041, 92406, 92771, 93137, 93502, 93867, 94232, 94598, 94963, 95328, 95693, 96059, 96424,
   96789, 97154, 97520, 97885, 98250, 98615, 98981, 99346, 99711, 100076, 100442, 100807, 101172,
   101537, 101903, 102268, 102633, 102998, 103364, 103729, 104094, 104459, 104825, 105190,
   105555, 105920, 106286, 106651, 107016, 107381, 107747, 108112, 108477, 108842, 109208,
   109573, 109938, 110303, 110669, 111034, 111399, 111764, 112130, 112495, 112860, 113225,
   113591, 113956, 114321, 114686, 115052, 115417, 115782, 116147, 116513, 116878, 117243,
   117608, 117974, 118339, 118704, 119069, 119435, 119800, 120165, 120530, 120895, 121260,
   121625, 121990, 122356, 122721, 123086, 123451, 123817, 124182, 124547, 124912, 125278,
   125643, 126008, 126373, 126739, 127104, 127469, 127834, 128200, 128565, 128930, 129295,
   129661, 130026, 130391, 130756, 131122, 131487, 131852, 132217, 132583, 132948, 133313,
   133678, 134044, 134409, 134774, 135139, 135505, 135870, 136235, 136600, 136966, 137331,
   137696, 138061, 138427, 138792, 139157, 139522, 139888, 140253, 140618, 140983, 141349,
   141714, 142079, 142444, 142810, 143175, 143540, 143905, 144271, 144636, 145001, 145366,
   145732, 146097]

/-- An entry of a table. -/
def entry (table : List Int) (index : Int) : Int := table.getD index.toNat 0

def epochYear : Int := 1970

def yearInterval : Int := 400

def daysPerYearInterval : Int := 146097

/-! ## From numbers to dates -/

/-- The first loop of `ExtractYearOffset`, in at most `fuel` rounds. -/
def raiseDays : Nat → Int → Int → Int × Int
  | 0, n, year => (n, year)
  | fuel + 1, n, year =>
    if n < 0 then raiseDays fuel (n + daysPerYearInterval) (year - yearInterval) else (n, year)

/-- The second loop of `ExtractYearOffset`, in at most `fuel` rounds. -/
def lowerDays : Nat → Int → Int → Int × Int
  | 0, n, year => (n, year)
  | fuel + 1, n, year =>
    if daysPerYearInterval ≤ n then
      lowerDays fuel (n - daysPerYearInterval) (year + yearInterval)
    else (n, year)

/-- The loop of `ExtractYearOffset` that goes back to the year. -/
def searchYear (n : Int) : Nat → Nat
  | 0 => 0
  | offset + 1 =>
    if n < entry cumulativeYearDays (offset + 1 : Nat) then searchYear n offset else offset + 1

/-- `ExtractYearOffset`: the day in its 400 years, the year and its number in these. -/
def extractYearOffset (n : Int) : Int × Int × Nat :=
  let (n, year) := raiseDays n.natAbs n epochYear
  let (n, year) := lowerDays n.natAbs n year
  let offset := searchYear n (n / 365).toNat
  (n, year + offset, offset)

def convert (n : Int) : CalendarDate :=
  let (n, year, offset) := extractYearOffset n
  let day := n - entry cumulativeYearDays offset
  if entry cumulativeYearDays (offset + 1) - entry cumulativeYearDays offset = 366 then
    let month := entry leapMonthPerDayOfYear day
    ⟨year, month, day - entry cumulativeLeapDays (month - 1) + 1⟩
  else
    let month := entry monthPerDayOfYear day
    ⟨year, month, day - entry cumulativeDays (month - 1) + 1⟩

/-! ## From dates to numbers -/

/-- `IsLeapYear`; a negative year has a remainder that is not positive. -/
def isLeapYear (year : Int) : Bool := year.tmod 4 == 0 && (year.tmod 100 != 0 || year.tmod 400 == 0)

/-- The first date, 5877642-06-25 (BC). -/
def minDate : CalendarDate := ⟨-5877641, 6, 25⟩

/-- The last date, 5881580-07-10. -/
def maxDate : CalendarDate := ⟨5881580, 7, 10⟩

def isValid (date : CalendarDate) : Bool := if date.month < 1 ∨ 12 < date.month then false
  else if date.day < 1 then false
  else if date.year < minDate.year then false
  else if date.year = minDate.year ∧
      (date.month < minDate.month ∨ date.month = minDate.month ∧ date.day < minDate.day) then false
  else if maxDate.year < date.year then false
  else if date.year = maxDate.year ∧
      (maxDate.month < date.month ∨ date.month = maxDate.month ∧ maxDate.day < date.day) then false
  else if isLeapYear date.year then date.day ≤ entry leapDays date.month
  else date.day ≤ entry normalDays date.month

/-- `TryFromDate`; the numbers stay within 32 bits. -/
def tryFromDate (date : CalendarDate) : Option Int := if isValid date then
    let inYear := entry (if isLeapYear date.year then cumulativeLeapDays else cumulativeDays)
      (date.month - 1) + (date.day - 1)
    if date.year < 1970 then
      let diffFromBase := 1970 - date.year
      some (inYear + entry cumulativeYearDays (400 - diffFromBase % 400) - daysPerYearInterval -
        diffFromBase / 400 * daysPerYearInterval)
    else if 2370 ≤ date.year then
      let diffFromBase := date.year - 2370
      some (inYear + entry cumulativeYearDays (diffFromBase % 400) + daysPerYearInterval +
        diffFromBase / 400 * daysPerYearInterval)
    else some (inYear + entry cumulativeYearDays (date.year - 1970))
  else none

/-- The numbers of the dates that are not infinite. -/
def finiteDays : Set Int := {n | -2147483646 ≤ n ∧ n ≤ 2147483646}

/-! ## What the tables hold -/

theorem isLeapYear_eq (y : Int) : isLeapYear y = gregorianLeap y := by
  have same (k : Int) : y.tmod k = 0 ↔ y % k = 0 := by
    rw [← Int.dvd_iff_tmod_eq_zero, ← Int.dvd_iff_emod_eq_zero]
  rw [Bool.eq_iff_iff]
  simp [isLeapYear, gregorianLeap, same]

theorem cumulativeYearDays_eq : cumulativeYearDays =
      (List.range 401).map fun i : Nat => daysBeforeYear (1970 + i) - daysBeforeYear 1970 := by
  decide +kernel

theorem entry_cumulativeYearDays {i : Int} (lo : 0 ≤ i) (le : i ≤ 400) :
    entry cumulativeYearDays i = daysBeforeYear (1970 + i) - daysBeforeYear 1970 := by
  have hb : i.toNat < 401 := by omega
  have eq : (i.toNat : Int) = i := by omega
  rw [entry, cumulativeYearDays_eq, List.getD_eq_getElem?_getD, List.getElem?_map,
    List.getElem?_range hb, map_some, getD_some, eq]

variable (leap : Bool)

theorem entry_monthLength (jan : 1 ≤ month) (dec : month ≤ 12) :
    entry (if leap then leapDays else normalDays) month = monthLength leap month := by
  interval_cases month <;> cases leap <;> decide

theorem entry_daysBeforeMonth {mo : Int} (jan : 1 ≤ mo) (finish : mo ≤ 13) :
    entry (if leap then cumulativeLeapDays else cumulativeDays) (mo - 1) =
      daysBeforeMonth leap mo := by
  interval_cases mo <;> cases leap <;> decide

/-- The days of each month in a table are those between two sums. -/
def FitsDays (months cumulative : List Int) : Prop :=
  ∀ found ∈ months.zipIdx, (1 ≤ found.1 ∧ found.1 ≤ 12) ∧
    entry cumulative (found.1 - 1) ≤ found.2 ∧ found.2 < entry cumulative found.1

instance instDecidableFitsDays (months cumulative : List Int) :
    Decidable (FitsDays months cumulative) :=
  inferInstanceAs (Decidable (∀ found ∈ months.zipIdx, _))

theorem fitsDays_monthPerDay : FitsDays (if leap then leapMonthPerDayOfYear else monthPerDayOfYear)
      (if leap then cumulativeLeapDays else cumulativeDays) := by
  cases leap <;> decide +kernel

theorem length_monthPerDay :
    ((if leap then leapMonthPerDayOfYear else monthPerDayOfYear).length : Int) =
      yearLength leap := by
  cases leap <;> decide +kernel

theorem entry_monthPerDay {day : Int} (lo : 0 ≤ day) (lt : day < yearLength leap) :
    let month := entry (if leap then leapMonthPerDayOfYear else monthPerDayOfYear) day
    (1 ≤ month ∧ month ≤ 12) ∧ daysBeforeMonth leap month ≤ day ∧
      day < daysBeforeMonth leap month + monthLength leap month := by
  have fits := fitsDays_monthPerDay leap
  have length := length_monthPerDay leap
  generalize (if leap then leapMonthPerDayOfYear else monthPerDayOfYear) = mo at *
  have hb : day.toNat < mo.length := by omega
  have here : mo[day.toNat]? = some (entry mo day) := by
    rw [entry, List.getD_eq_getElem?_getD, List.getElem?_eq_getElem hb, getD_some]
  obtain ⟨⟨jan, dec⟩, aft, pre⟩ :=
    fits (entry mo day, day.toNat) (List.mk_mem_zipIdx_iff_getElem?.mpr here)
  have following := @entry_daysBeforeMonth leap (entry mo day + 1) (Int.le_add_one jan)
    (Int.add_le_add_right dec 1)
  rw [Int.toNat_of_nonneg lo] at aft pre
  rw [Int.add_sub_cancel, daysBeforeMonth_succ leap jan] at following
  rw [entry_daysBeforeMonth leap jan (by omega)] at aft
  rw [following] at pre
  exact ⟨⟨jan, dec⟩, aft, pre⟩

/-! ## Converting -/

theorem raiseDays_spec {m : Nat} {n y : Int} (enough : -n ≤ m) :
    ∃ cycles, (raiseDays m n y).1 = n + 146097 * cycles ∧
      (raiseDays m n y).2 = y - 400 * cycles ∧ 0 ≤ (raiseDays m n y).1 ∧
      (raiseDays m n y).1 ≤ max n 146096 := by
  induction m generalizing n y with
  | zero =>
    rw [raiseDays]
    exact ⟨0, by omega⟩
  | succ m ih =>
    rw [raiseDays]
    split
    next negative =>
      have interval : daysPerYearInterval = 146097 := rfl
      have years : yearInterval = 400 := rfl
      obtain ⟨cycles, _, _, _⟩ :=
        @ih (n + daysPerYearInterval) (y - yearInterval) (by omega)
      exact ⟨cycles + 1, by omega⟩
    next => exact ⟨0, by omega⟩

theorem lowerDays_spec {m : Nat} {n y : Int} (lo : 0 ≤ n) (enough : n.natAbs ≤ m) :
    ∃ cycles, (lowerDays m n y).1 = n - 146097 * cycles ∧
      (lowerDays m n y).2 = y + 400 * cycles ∧ 0 ≤ (lowerDays m n y).1 ∧
      (lowerDays m n y).1 < 146097 := by
  have interval : daysPerYearInterval = 146097 := rfl
  have years : yearInterval = 400 := rfl
  induction m generalizing n y with
  | zero =>
    rw [lowerDays]
    exact ⟨0, by omega⟩
  | succ m ih =>
    rw [lowerDays]
    split
    next large =>
      obtain ⟨cycles, _, _, _⟩ :=
        @ih (n - daysPerYearInterval) (y + yearInterval) (by omega) (by omega)
      exact ⟨cycles + 1, by omega⟩
    next => exact ⟨0, by omega⟩

/-- Going back from an upper bound, the search stops at the year of the day. -/
theorem searchYear_spec (lo : 0 ≤ n) (le : offset ≤ 400)
    (aft : n < daysBeforeYear (1970 + offset + 1) - daysBeforeYear 1970) :
    searchYear n offset ≤ offset ∧
      daysBeforeYear (1970 + searchYear n offset) - daysBeforeYear 1970 ≤ n ∧
      n < daysBeforeYear (1970 + searchYear n offset + 1) - daysBeforeYear 1970 := by
  induction offset with
  | zero =>
    rw [searchYear]
    exact ⟨le_refl _, by simpa using lo, aft⟩
  | succ offset ih =>
    rw [searchYear, entry_cumulativeYearDays (by omega) (by omega)]
    split
    next hl =>
      rw [show (1970 : Int) + (offset + 1 : Nat) = 1970 + offset + 1 by omega] at hl
      obtain ⟨_, lower, upper⟩ := ih (by omega) hl
      exact ⟨by omega, lower, upper⟩
    next got => exact ⟨le_refl _, by omega, aft⟩

theorem extractYearOffset_spec (n : Int) : ∃ cycles : Int, ∃ offset : Nat, offset < 400 ∧
      extractYearOffset n = (n - 146097 * cycles, 1970 + 400 * cycles + offset, offset) ∧
      daysBeforeYear (1970 + offset) - daysBeforeYear 1970 ≤ n - 146097 * cycles ∧
      n - 146097 * cycles < daysBeforeYear (1970 + offset + 1) - daysBeforeYear 1970 := by
  unfold extractYearOffset
  obtain ⟨up, _, _, lo, -⟩ := @raiseDays_spec n.natAbs n epochYear (by omega)
  generalize raiseDays n.natAbs n epochYear = raised at *
  obtain ⟨n₁, year₁⟩ := raised
  dsimp only at *
  obtain ⟨down, _, _, lo', _⟩ := @lowerDays_spec n₁.natAbs n₁ year₁ lo (le_refl _)
  generalize lowerDays n₁.natAbs n₁ year₁ = lowered at *
  obtain ⟨n₂, _⟩ := lowered
  dsimp only at *
  have hb : (n₂ / 365).toNat ≤ 400 := by omega
  have aft : n₂ < daysBeforeYear (1970 + (n₂ / 365).toNat + 1) - daysBeforeYear 1970 := by
    unfold daysBeforeYear
    omega
  obtain ⟨-, lower, upper⟩ := searchYear_spec lo' hb aft
  have first : epochYear = 1970 := rfl
  have shifted : n₂ = n - 146097 * (down - up) := by omega
  refine ⟨down - up, searchYear n₂ (n₂ / 365).toNat, ?_, ?_, shifted ▸ lower, shifted ▸ upper⟩
  · have eq : daysBeforeYear (1970 + 400) = daysBeforeYear 1970 + 146097 :=
      daysBeforeYear_add_cycle 1970 1
    by_contra beyond
    have := daysBeforeYear_mono (show (1970 : Int) + 400 ≤ 1970 + searchYear n₂ (n₂ / 365).toNat
      by omega)
    omega
  · rw [← shifted]
    congr 2
    omega

theorem dayNumber_of_month {y mo day : Int} (jan : 1 ≤ mo) (dec : mo ≤ 12)
    (aft : daysBeforeMonth (gregorianLeap y) mo ≤ day)
    (pre : day < daysBeforeMonth (gregorianLeap y) mo + monthLength (gregorianLeap y) mo) :
    let date : CalendarDate := ⟨y, mo, day - daysBeforeMonth (gregorianLeap y) mo + 1⟩
    date.Valid ∧ date.dayNumber = daysBeforeYear y - daysBeforeYear 1970 + day := by
  refine ⟨⟨⟨jan, dec⟩, ?_, ?_⟩, ?_⟩
  · dsimp only
    omega
  · dsimp only
    omega
  · unfold CalendarDate.dayNumber CalendarDate.dayOfYear
    dsimp only
    omega

theorem convert_eq {n n' y : Int} {offset : Nat} (extracted : extractYearOffset n = (n', y, offset))
    (leap : Bool)
    (length : entry cumulativeYearDays (offset + 1) - entry cumulativeYearDays offset =
      yearLength leap) :
    let day := n' - entry cumulativeYearDays offset
    let month := entry (if leap then leapMonthPerDayOfYear else monthPerDayOfYear) day
    convert n = ⟨y, month,
      day - entry (if leap then cumulativeLeapDays else cumulativeDays) (month - 1) + 1⟩ := by
  unfold convert
  rw [extracted]
  dsimp only
  rw [length]
  cases leap with
  | false | true => rfl

theorem convert_spec (n : Int) : (convert n).Valid ∧ (convert n).dayNumber = n := by
  obtain ⟨cycles, offset, _, extracted, _, upper⟩ := extractYearOffset_spec n
  have shift : (1970 : Int) + 400 * cycles + offset = 1970 + offset + 400 * cycles := by ring
  have leap := gregorianLeap_add_cycle (1970 + offset) cycles
  have days := daysBeforeYear_add_cycle (1970 + offset) cycles
  rw [← shift] at leap days
  have first := @entry_cumulativeYearDays offset (by omega) (by omega)
  have second := @entry_cumulativeYearDays (offset + 1) (by omega) (by omega)
  rw [← Int.add_assoc, daysBeforeYear_succ, ← leap] at second
  rw [daysBeforeYear_succ, ← leap] at upper
  have converted := convert_eq extracted (gregorianLeap (1970 + 400 * cycles + offset)) (by omega)
  obtain ⟨⟨jan, dec⟩, aft, pre⟩ := @entry_monthPerDay (gregorianLeap (1970 + 400 * cycles + offset))
      (n - 146097 * cycles - entry cumulativeYearDays offset) (by omega) (by omega)
  obtain ⟨hv, num⟩ := dayNumber_of_month jan dec aft pre
  rw [← entry_daysBeforeMonth _ jan (by omega)] at hv num
  rw [converted]
  refine ⟨hv, num.trans ?_⟩
  omega

/-! ## Valid dates -/

theorem minDate_valid : minDate.Valid ∧ minDate.dayNumber = -2147483646 := by decide +kernel

theorem maxDate_valid : maxDate.Valid ∧ maxDate.dayNumber = 2147483646 := by decide +kernel

theorem isValid_iff_before (d : CalendarDate) :
    isValid d = true ↔ d.Valid ∧ ¬ d.Before minDate ∧ ¬ maxDate.Before d := by
  have lengths : (if isLeapYear d.year then decide (d.day ≤ entry leapDays d.month)
      else decide (d.day ≤ entry normalDays d.month)) =
        decide (d.day ≤ entry (if gregorianLeap d.year then leapDays else normalDays) d.month) := by
    rw [isLeapYear_eq]
    cases gregorianLeap d.year with
    | false | true => rfl
  unfold isValid CalendarDate.Valid CalendarDate.Before
  rw [lengths]
  by_cases months : 1 ≤ d.month ∧ d.month ≤ 12
  · rw [entry_monthLength _ months.1 months.2]
    split_ifs <;> simp only [decide_eq_true_eq, false_iff] <;> omega
  · rw [if_pos (by omega)]
    simp only [Bool.false_eq_true, false_iff]
    omega

theorem isValid_iff (d : CalendarDate) : isValid d = true ↔ d.Valid ∧ d.dayNumber ∈ finiteDays := by
  rw [isValid_iff_before, finiteDays, Set.mem_ofPred_eq, ← minDate_valid.2, ← maxDate_valid.2]
  apply and_congr_right
  intro hv
  rw [← hv.dayNumber_lt_iff minDate_valid.1, ← maxDate_valid.1.dayNumber_lt_iff hv, not_lt, not_lt]

theorem tryFromDate_eq (valid : isValid date = true) : tryFromDate date = some date.dayNumber := by
  obtain ⟨⟨⟨jan, _⟩, -⟩, -⟩ := (isValid_iff date).mp valid
  have inYear : entry (if isLeapYear date.year then cumulativeLeapDays else cumulativeDays)
      (date.month - 1) + (date.day - 1) = date.dayOfYear := by
    rw [isLeapYear_eq, entry_daysBeforeMonth _ jan (by omega), CalendarDate.dayOfYear,
      Int.add_sub_assoc]
  unfold tryFromDate
  rw [if_pos valid, inYear]
  dsimp only
  unfold CalendarDate.dayNumber daysPerYearInterval
  split_ifs with early late
  · rw [entry_cumulativeYearDays (by omega) (by omega)]
    have year := daysBeforeYear_add_cycle (1970 + (400 - (1970 - date.year) % 400))
      (-((1970 - date.year) / 400) - 1)
    rw [show 1970 + (400 - (1970 - date.year) % 400) + 400 * (-((1970 - date.year) / 400) - 1) =
      date.year by omega] at year
    congr 1
    omega
  · rw [entry_cumulativeYearDays (by omega) (by omega)]
    have year := daysBeforeYear_add_cycle (1970 + (date.year - 2370) % 400)
      ((date.year - 2370) / 400 + 1)
    rw [show 1970 + (date.year - 2370) % 400 + 400 * ((date.year - 2370) / 400 + 1) =
      date.year by omega] at year
    congr 1
    omega
  · rw [entry_cumulativeYearDays (by omega) (by omega),
      show 1970 + (date.year - 1970) = date.year by omega]
    congr 1
    omega

theorem convert_isValid (fin : n ∈ finiteDays) : isValid (convert n) = true := by
  obtain ⟨hv, num⟩ := convert_spec n
  exact (isValid_iff _).mpr ⟨hv, num.symm ▸ fin⟩

theorem tryFromDate_convert (fin : n ∈ finiteDays) : tryFromDate (convert n) = some n := by
  rw [tryFromDate_eq (convert_isValid fin), (convert_spec n).2]

theorem convert_dayNumber (valid : date.Valid) : convert date.dayNumber = date :=
  (convert_spec _).1.eq_of_dayNumber valid (convert_spec _).2

/-- Numbers and dates correspond, day by day. -/
theorem calendar_correct : (∀ n ∈ finiteDays, (convert n).Valid ∧ tryFromDate (convert n) = some n ∧
      (n + 1 ∈ finiteDays → convert (n + 1) = (convert n).next)) ∧
    ∀ date, (isValid date = true ↔ date.Valid ∧ date.dayNumber ∈ finiteDays) ∧
      (isValid date = true →
        tryFromDate date = some date.dayNumber ∧ convert date.dayNumber = date) := by
  constructor
  · intro n finite
    obtain ⟨valid, number⟩ := convert_spec n
    refine ⟨valid, tryFromDate_convert finite, fun _ => ?_⟩
    have following := valid.dayNumber_next
    rw [number] at following
    rw [← following, convert_dayNumber valid.next]
  · intro date
    refine ⟨isValid_iff date, fun valid => ⟨tryFromDate_eq valid, ?_⟩⟩
    exact convert_dayNumber ((isValid_iff date).mp valid).1

example : convert 0 = ⟨1970, 1, 1⟩ ∧ convert (-719529) = ⟨-1, 12, 31⟩ := by decide +kernel

end Date

end AccessPath
