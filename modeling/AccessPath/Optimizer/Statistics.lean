import AccessPath.Optimizer.Comparison

/-!
# Statistics of integer columns

What is known of the values of a column, what it says of a comparison of two columns, and what
a comparison that is true adds to it.
-/

namespace AccessPath.Optimizer

open Bool

variable {always hasNull never : Bool} {x : Cell}

/-- `BaseStatistics` of an integer column; a bound may be missing. -/
structure ColumnStatistics where
  min : Option Int
  max : Option Int
  canHaveNull : Bool
deriving DecidableEq, Repr

namespace ColumnStatistics

/-- The statistics are right about a value. -/
def Agrees (stats : ColumnStatistics) : Cell → Prop
  | none => stats.canHaveNull = true
  | some a => (∀ low ∈ stats.min, low ≤ a) ∧ ∀ high ∈ stats.max, a ≤ high

/-- `Set(StatsInfo::CANNOT_HAVE_NULL_VALUES)` -/
def notNull (stats : ColumnStatistics) : ColumnStatistics := { stats with canHaveNull := false }

end ColumnStatistics

inductive FilterPropagateResult
  | noPruningPossible
  | filterAlwaysTrue
  | filterAlwaysFalse
  | filterTrueOrNull
  | filterFalseOrNull
deriving DecidableEq, Repr

open FilterPropagateResult

/-- The result for a comparison that is true of all values, or false of all of them. -/
def decided (always never hasNull : Bool) : FilterPropagateResult :=
  if always then if hasNull then filterTrueOrNull else filterAlwaysTrue
  else if never then if hasNull then filterFalseOrNull else filterAlwaysFalse
  else noPruningPossible

/-- `PropagateComparison` for columns with both bounds. -/
def propagateRanges (lmin lmax rmin rmax : Int) (hasNull : Bool) :
    Comparison → FilterPropagateResult
  | .equal => decided false (lmin > rmax || rmin > lmax) hasNull
  | .greaterThan => decided (lmin > rmax) (rmin ≥ lmax) hasNull
  | .greaterThanOrEqualTo => decided (lmin ≥ rmax) (rmin > lmax) hasNull
  | .lessThan => decided (lmax < rmin) (lmin ≥ rmax) hasNull
  | .lessThanOrEqualTo => decided (lmax ≤ rmin) (lmin > rmax) hasNull
  | _ => noPruningPossible

def propagateComparison (lstats rstats : ColumnStatistics) (comparison : Comparison) :
    FilterPropagateResult :=
  match lstats.min, lstats.max, rstats.min, rstats.max with
  | some lmin, some lmax, some rmin, some rmax =>
    propagateRanges lmin lmax rmin rmax (lstats.canHaveNull || rstats.canHaveNull) comparison
  | _, _, _, _ => noPruningPossible

/-- The bounds that `UpdateFilterStatistics` leaves for the left and the right column. -/
def tightenRanges (lmin lmax rmin rmax : Int) : Comparison → (Int × Int) × (Int × Int)
  | .lessThan | .lessThanOrEqualTo =>
    ((lmin, if lmax > rmax then rmax else lmax), (if rmin < lmin then lmin else rmin, rmax))
  | .greaterThan | .greaterThanOrEqualTo =>
    ((if lmin < rmin then rmin else lmin, lmax), (rmin, if rmax > lmax then lmax else rmax))
  | .equal | .notDistinctFrom =>
    ((if lmin > rmin then lmin else rmin, if lmax < rmax then lmax else rmax),
      (if lmin > rmin then lmin else rmin, if lmax < rmax then lmax else rmax))
  | _ => ((lmin, lmax), (rmin, rmax))

/-- `UpdateFilterStatistics` for two columns: regular comparisons remove all NULL values. -/
def updateFilterStatistics (lstats rstats : ColumnStatistics) (comparison : Comparison) :
    ColumnStatistics × ColumnStatistics :=
  let lnull := comparison.isDistinct && lstats.canHaveNull
  let rnull := comparison.isDistinct && rstats.canHaveNull
  match lstats.min, lstats.max, rstats.min, rstats.max with
  | some lmin, some lmax, some rmin, some rmax =>
    let ranges := tightenRanges lmin lmax rmin rmax comparison
    (⟨some ranges.1.1, some ranges.1.2, lnull⟩, ⟨some ranges.2.1, some ranges.2.2, rnull⟩)
  | _, _, _, _ => ({ lstats with canHaveNull := lnull }, { rstats with canHaveNull := rnull })

/-! ## Soundness -/

namespace ColumnStatistics

variable {stats : ColumnStatistics}

theorem Agrees.notNull (agree : stats.Agrees x) (some' : x ≠ none) : stats.notNull.Agrees x := by
  cases x with
  | none => exact absurd rfl some'
  | some a => exact agree

theorem Agrees.exists_of_notNull (agree : stats.Agrees x) (noNull : stats.canHaveNull = false) :
    ∃ a, x = some a := by
  cases x with
  | none => exact absurd (agree.symm.trans noNull) Bool.noConfusion
  | some a => exact ⟨a, rfl⟩

end ColumnStatistics

/-- Results that say that a comparison is not true of any two values. -/
def FilterPropagateResult.isFalse : FilterPropagateResult → Bool
  | filterAlwaysFalse | filterFalseOrNull => true
  | _ => false

theorem decided_true (res : decided always never hasNull = filterAlwaysTrue) :
    always = true ∧ hasNull = false := by
  revert always never hasNull
  decide

theorem decided_false (res : (decided always never hasNull).isFalse = true) : never = true := by
  revert always never hasNull
  decide

section

variable {lmin lmax rmin rmax a b : Int} {hasNull : Bool} {c : Comparison}

theorem propagateRanges_notNull
    (res : propagateRanges lmin lmax rmin rmax hasNull c = filterAlwaysTrue) : hasNull = false := by
  cases c with
  | equal | greaterThan => exact (decided_true res).2
  | greaterThanOrEqualTo | lessThan | lessThanOrEqualTo => exact (decided_true res).2
  | notEqual | distinctFrom | notDistinctFrom => cases res

theorem propagateRanges_regular
    (res : (propagateRanges lmin lmax rmin rmax hasNull c).isFalse = true) :
    c.isDistinct = false := by
  cases c with
  | distinctFrom | notDistinctFrom => cases res
  | _ => rfl

variable (hl : lmin ≤ a ∧ a ≤ lmax) (hr : rmin ≤ b ∧ b ≤ rmax)

include hl hr

theorem propagateRanges_true
    (res : propagateRanges lmin lmax rmin rmax hasNull c = filterAlwaysTrue) :
    c.holds a b = true := by
  cases c with
  | equal => exact absurd (decided_true res).1 Bool.false_ne_true
  | greaterThan | greaterThanOrEqualTo | lessThan | lessThanOrEqualTo =>
    have always := of_decide_eq_true (decided_true res).1
    exact decide_eq_true (by omega)
  | notEqual | distinctFrom | notDistinctFrom => cases res

theorem propagateRanges_false
    (res : (propagateRanges lmin lmax rmin rmax hasNull c).isFalse = true) :
    c.holds a b = false := by
  cases c with
  | equal =>
    have never := decided_false res
    rw [or_eq_true, decide_eq_true_eq, decide_eq_true_eq] at never
    exact beq_eq_false_iff_ne.mpr (by omega)
  | greaterThan | greaterThanOrEqualTo | lessThan | lessThanOrEqualTo =>
    have never := of_decide_eq_true (decided_false res)
    exact decide_eq_false (by omega)
  | notEqual | distinctFrom | notDistinctFrom => cases res

/-- A comparison that is true leaves the values in the tightened ranges. -/
theorem tightenRanges_sound (true' : c.holds a b = true) {l r : Int × Int}
    (tightened : tightenRanges lmin lmax rmin rmax c = (l, r)) :
    (l.1 ≤ a ∧ a ≤ l.2) ∧ r.1 ≤ b ∧ b ≤ r.2 := by
  cases c with
  | lessThan | lessThanOrEqualTo | greaterThan | greaterThanOrEqualTo =>
    have less := of_decide_eq_true true'
    cases tightened
    split_ifs <;> omega
  | equal | notDistinctFrom =>
    have same : a = b := beq_iff_eq.mp true'
    cases tightened
    split_ifs <;> omega
  | notEqual | distinctFrom =>
    cases tightened
    exact ⟨hl, hr⟩

end

section

variable {l r : ColumnStatistics} {c : Comparison} {x y : Cell}

/-- Either both columns have both bounds, or nothing is said of the comparison. -/
theorem propagateComparison_cases (l r : ColumnStatistics) (c : Comparison) :
    propagateComparison l r c = noPruningPossible ∨
      ∃ lmin lmax rmin rmax, l.min = some lmin ∧ l.max = some lmax ∧
        r.min = some rmin ∧ r.max = some rmax ∧ propagateComparison l r c =
          propagateRanges lmin lmax rmin rmax (l.canHaveNull || r.canHaveNull) c := by
  rw [propagateComparison]
  split
  case h_1 lmin lmax rmin rmax low high low' high' =>
    exact .inr ⟨lmin, lmax, rmin, rmax, low, high, low', high', rfl⟩
  case h_2 => exact .inl rfl

variable (hl : l.Agrees x) (hr : r.Agrees y)

include hl hr

theorem propagateComparison_true (res : propagateComparison l r c = filterAlwaysTrue) :
    c.isTrue x y = true := by
  obtain hno | ⟨_, _, _, _, low, high, low', high', ranges⟩ :=
    propagateComparison_cases l r c
  · rw [hno] at res
    cases res
  · rw [ranges] at res
    obtain ⟨noNull, noNull'⟩ := or_eq_false_iff.mp (propagateRanges_notNull res)
    obtain ⟨_, rfl⟩ := hl.exists_of_notNull noNull
    obtain ⟨_, rfl⟩ := hr.exists_of_notNull noNull'
    rw [Comparison.isTrue_some]
    exact propagateRanges_true ⟨hl.1 _ low, hl.2 _ high⟩ ⟨hr.1 _ low', hr.2 _ high'⟩ res

/-- A comparison that is found to be false or NULL is not true. -/
theorem propagateComparison_false (res : (propagateComparison l r c).isFalse = true) :
    c.isTrue x y = false := by
  obtain hno | ⟨_, _, _, _, low, high, low', high', ranges⟩ :=
    propagateComparison_cases l r c
  · rw [hno] at res
    cases res
  · rw [ranges] at res
    rw [← not_eq_true]
    intro true'
    obtain ⟨_, _, rfl, rfl, hh⟩ := Comparison.exists_of_isTrue (propagateRanges_regular res) true'
    rw [propagateRanges_false ⟨hl.1 _ low, hl.2 _ high⟩ ⟨hr.1 _ low', hr.2 _ high'⟩ res] at hh
    cases hh

/-- After a regular comparison that is true, the statistics are right about its columns. -/
theorem updateFilterStatistics_agrees (regular : c.isDistinct = false)
    (true' : c.isTrue x y = true) : (updateFilterStatistics l r c).1.Agrees x ∧
      (updateFilterStatistics l r c).2.Agrees y := by
  obtain ⟨_, _, rfl, rfl, hh⟩ := Comparison.exists_of_isTrue regular true'
  rw [updateFilterStatistics]
  split
  case h_1 lmin lmax rmin rmax low high low' high' =>
    obtain ⟨⟨lower, upper⟩, lower', upper'⟩ := tightenRanges_sound
      ⟨hl.1 _ low, hl.2 _ high⟩ ⟨hr.1 _ low', hr.2 _ high'⟩ hh rfl
    refine ⟨⟨?_, ?_⟩, ?_, ?_⟩
    · intro hb mem
      cases mem
      exact lower
    · intro hb mem
      cases mem
      exact upper
    · intro hb mem
      cases mem
      exact lower'
    · intro hb mem
      cases mem
      exact upper'
  case h_2 => exact ⟨hl, hr⟩

end

end AccessPath.Optimizer
