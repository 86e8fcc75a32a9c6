import AccessPath.Temporal.TimestampText

/-!
# A day of timestamps

`TimeStampComparison` replaces `CAST(ts AS DATE) = CAST(text AS DATE)` by a range of timestamps.
-/

namespace AccessPath.Optimizer

open Option Timestamp

/-- `TryAddOperator` for a date and one day. -/
def tryAddDay (date : Int) : Option Int :=
  if date = Date.infinity ∨ date = Date.ninfinity then some date
  else
    ((IntegerType.mk true .four).checked (date + 1)).filter fun result =>
      result ≠ Date.infinity ∧ result ≠ Date.ninfinity

/-- The cast of a date to a timestamp, which throws if it is out of range. -/
def castDate (date : Int) : Option Int :=
  if date = Date.infinity then some Timestamp.infinity
  else if date = Date.ninfinity then some Timestamp.ninfinity
  else tryFromDatetime date 0

/-- `TimeStampComparison::Apply`: nothing if it throws, and otherwise the bounds of the new
predicate, or nothing if the old one stays. -/
def timeStampComparison (text : List Char) : Option (Option (Int × Int)) :=
  match Date.fromString false text with
  | none => some none
  | some originalVal => do
    let originalValTs ← tryFromDatetime originalVal 0
    match tryAddDay originalVal with
    | none => some none
    | some dateResult =>
      let plusOneTs ← castDate dateResult
      some (some (originalValTs, plusOneTs))

/-- The predicate that is left, on a timestamp or `NULL`. -/
def remaining (date : Int) (bounds : Option (Int × Int)) (ts : Option Int) : Option Bool :=
  match bounds with
  | none => ts.map fun ts => getDate ts == date
  | some (low, high) => ts.map fun ts => ts ≥ low && ts < high

theorem day_eq : (microsPerDay : Int) = 86400000000 := rfl

theorem tryFromDatetime_zero {d ts : Int} : tryFromDatetime d 0 = some ts ↔
    ts = d * 86400000000 ∧ -106751991 ≤ d ∧ d ≤ 106751991 := by
  constructor
  · intro run
    obtain ⟨_, fits, run⟩ := Option.bind_eq_some_iff.mp run
    obtain ⟨_, same, run⟩ := Option.bind_eq_some_iff.mp run
    obtain ⟨rfl, range⟩ := checked_eq_some.mp fits
    obtain ⟨rfl, -⟩ := checked_eq_some.mp same
    rw [ite_none_right_eq_some, Option.some.injEq] at run
    rw [day_eq] at run range
    omega
  · rintro ⟨rfl, _⟩
    have fin : isFinite (d * 86400000000) = true := by
      rw [isFinite, Bool.and_eq_true, bne_iff_ne, bne_iff_ne, Timestamp.infinity,
        Timestamp.ninfinity]
      omega
    refine tryFromDatetime_eq (by omega) fin ?_ ?_ <;> rw [day_eq] <;> omega

theorem getDate_beq {date t : Int} (range : -106751991 ≤ date ∧ date ≤ 106751990) :
    (decide (t ≥ date * 86400000000) && decide (t < (date + 1) * 86400000000)) =
      (getDate t == date) := by
  rw [Bool.eq_iff_iff, Bool.and_eq_true, decide_eq_true_iff, decide_eq_true_iff, beq_iff_eq]
  by_cases fin : isFinite t = true
  · rw [getDate_eq fin, day_eq]
    omega
  · rw [isFinite, Bool.and_eq_true, bne_iff_ne, bne_iff_ne] at fin
    rw [getDate, Date.infinity, Date.ninfinity]
    rw [Timestamp.infinity, Timestamp.ninfinity] at *
    split_ifs <;> omega

/-- Replacing the cast of a timestamp to a date by a range of timestamps keeps the rows exactly for
the dates of which the first and the next day are timestamps. -/
theorem timeStampComparison_iff {text : List Char} {date : Int}
    (casts : Date.fromString false text = some date) :
    (∀ ts, ∃ bounds, timeStampComparison text = some bounds ∧
        remaining date bounds ts = remaining date none ts) ↔
    -106751991 ≤ date ∧ date ≤ 106751990 := by
  simp only [timeStampComparison, casts]
  constructor
  · intro right
    obtain ⟨_, run, -⟩ := right none
    obtain ⟨ts, first, run⟩ := Option.bind_eq_some_iff.mp run
    obtain ⟨-, low, high⟩ := tryFromDatetime_zero.mp first
    refine ⟨low, Int.not_lt.mp fun last => ?_⟩
    obtain rfl : date = 106751991 := by omega
    cases run
  · intro range ts
    have first := tryFromDatetime_zero.mpr ⟨rfl, range.1, range.2.trans (by decide)⟩
    have next : tryAddDay date = some (date + 1) := by
      have low : (IntegerType.mk true .four).minimum = -2 ^ 31 := rfl
      have high : (IntegerType.mk true .four).maximum = 2 ^ 31 - 1 := rfl
      rw [tryAddDay, IntegerType.checked, low, high, Date.infinity, Date.ninfinity, if_neg, if_pos,
        Option.filter_some, if_pos] <;> first | omega | (rw [decide_eq_true_iff]; omega)
    have second : castDate (date + 1) = some ((date + 1) * 86400000000) := by
      rw [castDate, Date.infinity, Date.ninfinity, if_neg, if_neg, tryFromDatetime_zero] <;> omega
    rw [first, bind_eq_bind, bind_some, next]
    dsimp only
    rw [second, bind_some]
    refine ⟨_, rfl, ?_⟩
    cases ts with
    | none => rfl
    | some t => exact congrArg some (getDate_beq range)

/-- The date 1970-01-01 keeps the timestamp zero. -/
theorem timeStampComparison_epoch :
    ∃ bounds, timeStampComparison "1970-01-01".toList = some bounds ∧
      remaining 0 bounds (some 0) = some true := by
  have read : Date.fromString false "1970-01-01".toList = some 0 := by decide
  exact (timeStampComparison_iff read).mpr (by decide) (some 0)

/-- The rule throws for a date without a first timestamp. -/
theorem timeStampComparison_infinity : timeStampComparison "infinity".toList = none := by
  decide

end AccessPath.Optimizer
