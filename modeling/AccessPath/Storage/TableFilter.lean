import Mathlib.Data.List.Nodup
import Mathlib.Order.Lattice
import Mathlib.Order.Nat

/-!
# Table filters

Filters that are pushed into the scan of a column, evaluated on the selected rows of a vector
(`column_segment.cpp`). The constants are not NULL.
-/

namespace AccessPath

open List

/-- The comparisons of a constant filter. -/
inductive ConstantComparison
  | equal
  | notEqual
  | lessThan
  | greaterThan
  | lessThanOrEqualTo
  | greaterThanOrEqualTo

inductive TableFilter (T : Type)
  | constantComparison (comparisonType : ConstantComparison) (constant : T)
  | isNull
  | isNotNull
  | conjunctionOr (childFilters : List (TableFilter T))
  | conjunctionAnd (childFilters : List (TableFilter T))
  | structExtract (childIdx : Nat) (childFilter : TableFilter T)

/-- A vector with its `UnifiedVectorFormat`: where its rows are, which of them are valid if it has a
mask, and their values; and the entries of a struct. -/
inductive ColumnVector (T : Type)
  | mk (sel : Nat → Nat) (validity : Option (Nat → Bool)) (data : Nat → T)
    (entries : List (ColumnVector T))

namespace ColumnVector

variable {T : Type}

def allValid : ColumnVector T → Bool
  | mk _ validity _ _ => validity.isNone

def rowIsValid : ColumnVector T → Nat → Bool
  | mk sel validity _ _, idx => validity.all (· (sel idx))

def get : ColumnVector T → Nat → T
  | mk sel _ data _, idx => data (sel idx)

/-- A struct has the entry that a filter reads. -/
def entry : ColumnVector T → Nat → ColumnVector T
  | mk sel validity data entries, childIdx =>
    entries.getD childIdx (mk sel validity data entries)

end ColumnVector

/-- What a filter leaves in `sel` and `approved_tuple_count`, and the number that it returns. -/
structure FilteredSelection where
  sel : List Nat
  approvedTupleCount : Nat
  returned : Nat

namespace FilteredSelection

def ofList (sel : List Nat) : FilteredSelection := ⟨sel, sel.length, sel.length⟩

/-- The rows that are left in the selection. -/
def rows (result : FilteredSelection) : List Nat := result.sel.take result.returned

/-- The result has the rows of a list that satisfy a predicate, in any order. -/
structure Selects (result : FilteredSelection) (rows : List Nat) (keep : Nat → Bool) : Prop where
  approved : result.approvedTupleCount = result.returned
  fits : result.returned ≤ result.sel.length
  perm : result.rows.Perm (rows.filter keep)

theorem selects_ofList {sel rows : List Nat} {keep : Nat → Bool}
    (perm : sel.Perm (rows.filter keep)) : (ofList sel).Selects rows keep := by
  refine ⟨rfl, Nat.le_refl _, ?_⟩
  rwa [FilteredSelection.rows, ofList, take_length]

end FilteredSelection

open FilteredSelection

section

variable {T : Type} (isNull : Bool) (vector : ColumnVector T) {sel : List Nat} {approved : Nat}

def templatedNullSelection (sel : List Nat) (approved : Nat) : FilteredSelection :=
  if vector.allValid then if isNull then ⟨sel, 0, 0⟩ else ⟨sel, approved, approved⟩
  else ofList ((sel.take approved).filter fun idx => vector.rowIsValid idx != isNull)

theorem templatedNullSelection_selects (fits : approved ≤ sel.length) :
    (templatedNullSelection isNull vector sel approved).Selects (sel.take approved)
      fun idx => vector.rowIsValid idx != isNull := by
  rw [templatedNullSelection]
  split
  · next noMask =>
      have hv (idx : Nat) : vector.rowIsValid idx = true := by
        obtain ⟨_, _, _, _⟩ := vector
        rw [ColumnVector.rowIsValid, Option.isNone_iff_eq_none.mp noMask]
        rfl
      simp only [hv]
      cases isNull with
      | true => exact ⟨rfl, Nat.zero_le _, by simp [FilteredSelection.rows]⟩
      | false => exact ⟨rfl, fits, by simp [FilteredSelection.rows]⟩
  · exact selects_ofList (.refl _)

end

/-- A row that a child passes is moved into the result, unless it is there. -/
def moveNew (resultSel : List Nat) (newIdx : Nat) : List Nat :=
  if newIdx ∈ resultSel then resultSel else resultSel ++ [newIdx]

theorem foldl_moveNew (mv : List Nat) {resultSel : List Nat} (nd : resultSel.Nodup) :
    (mv.foldl moveNew resultSel).Nodup ∧
      ∀ idx, idx ∈ mv.foldl moveNew resultSel ↔ idx ∈ resultSel ∨ idx ∈ mv := by
  induction mv generalizing resultSel with
  | nil => exact ⟨nd, by simp⟩
  | cons newIdx mv ih =>
    have step : (moveNew resultSel newIdx).Nodup ∧
        ∀ idx, idx ∈ moveNew resultSel newIdx ↔ idx ∈ resultSel ∨ idx = newIdx := by
      rw [moveNew]
      split
      · next old => exact ⟨nd, fun idx => ⟨.inl, fun either => either.elim id (· ▸ old)⟩⟩
      · next new => exact ⟨nodup_append_comm.mp (nodup_cons.mpr ⟨new, nd⟩), fun idx => by simp⟩
    obtain ⟨distinct, mem⟩ := ih step.1
    refine ⟨distinct, fun idx => ?_⟩
    rw [foldl_cons, mem, step.2, mem_cons, or_assoc]

variable {T : Type} [LinearOrder T]

def ConstantComparison.operation : ConstantComparison → T → T → Bool
  | equal, value, constant => value = constant
  | notEqual, value, constant => value ≠ constant
  | lessThan, value, constant => value < constant
  | greaterThan, value, constant => value > constant
  | lessThanOrEqualTo, value, constant => value ≤ constant
  | greaterThanOrEqualTo, value, constant => value ≥ constant

namespace TableFilter

mutual

def filterSelection : TableFilter T → ColumnVector T → List Nat → Nat → FilteredSelection
  | constantComparison comparisonType constant, vector, sel, approved =>
    ofList ((sel.take approved).filter fun idx =>
      vector.rowIsValid idx && comparisonType.operation (vector.get idx) constant)
  | isNull, vector, sel, approved => templatedNullSelection true vector sel approved
  | isNotNull, vector, sel, approved => templatedNullSelection false vector sel approved
  | conjunctionOr children, vector, sel, approved =>
    ofList (filterOr children vector sel approved [])
  | conjunctionAnd children, vector, sel, approved => filterAnd children vector sel approved
  | structExtract childIdx child, vector, sel, approved =>
    filterSelection child (vector.entry childIdx) sel approved

/-- The children are evaluated on copies of the selection. -/
def filterOr : List (TableFilter T) → ColumnVector T → List Nat → Nat → List Nat → List Nat
  | [], _, _, _, resultSel => resultSel
  | child :: children, vector, sel, approved, resultSel =>
    filterOr children vector sel approved
      ((filterSelection child vector sel approved).rows.foldl moveNew resultSel)

/-- Each child is evaluated on the selection that the one before leaves. -/
def filterAnd : List (TableFilter T) → ColumnVector T → List Nat → Nat → FilteredSelection
  | [], _, sel, approved => ⟨sel, approved, approved⟩
  | child :: children, vector, sel, approved =>
    let result := filterSelection child vector sel approved
    filterAnd children vector result.sel result.approvedTupleCount

end

mutual

/-- A row satisfies a filter; a comparison is false on NULL. -/
def satisfies : TableFilter T → ColumnVector T → Nat → Bool
  | constantComparison comparisonType constant, vector, idx =>
    vector.rowIsValid idx && comparisonType.operation (vector.get idx) constant
  | isNull, vector, idx => vector.rowIsValid idx != true
  | isNotNull, vector, idx => vector.rowIsValid idx != false
  | conjunctionOr children, vector, idx => satisfiesAny children vector idx
  | conjunctionAnd children, vector, idx => satisfiesAll children vector idx
  | structExtract childIdx child, vector, idx => satisfies child (vector.entry childIdx) idx

def satisfiesAny : List (TableFilter T) → ColumnVector T → Nat → Bool
  | [], _, _ => false
  | child :: children, vector, idx => satisfies child vector idx || satisfiesAny children vector idx

def satisfiesAll : List (TableFilter T) → ColumnVector T → Nat → Bool
  | [], _, _ => true
  | child :: children, vector, idx => satisfies child vector idx && satisfiesAll children vector idx

end

mutual

theorem filterSelection_selects : ∀ (f : TableFilter T) (vec : ColumnVector T)
    {sel : List Nat} {approved : Nat}, approved ≤ sel.length → (sel.take approved).Nodup →
    (filterSelection f vec sel approved).Selects (sel.take approved)
      (satisfies f vec)
  | constantComparison _ _, _, _, _, _, _ => selects_ofList (.refl _)
  | isNull, vec, _, _, fits, _ => templatedNullSelection_selects true vec fits
  | isNotNull, vec, _, _, fits, _ => templatedNullSelection_selects false vec fits
  | conjunctionOr cs, vec, _, _, fits, nd => by
    obtain ⟨distinct, mem⟩ := filterOr_spec cs vec fits nd nodup_nil
    refine selects_ofList ((perm_ext_iff_of_nodup distinct (nd.filter _)).mpr fun idx => ?_)
    rw [mem, mem_filter, satisfies]
    simp
  | conjunctionAnd cs, vec, _, _, fits, nd =>
    filterAnd_selects cs vec fits nd
  | structExtract childIdx c, vec, _, _, fits, nd =>
    filterSelection_selects c (vec.entry childIdx) fits nd

theorem filterOr_spec : ∀ (cs : List (TableFilter T)) (vec : ColumnVector T)
    {sel resultSel : List Nat} {approved : Nat}, approved ≤ sel.length → (sel.take approved).Nodup →
    resultSel.Nodup → (filterOr cs vec sel approved resultSel).Nodup ∧
      ∀ idx, idx ∈ filterOr cs vec sel approved resultSel ↔
        idx ∈ resultSel ∨ idx ∈ sel.take approved ∧ satisfiesAny cs vec idx = true
  | [], _, _, _, _, _, _, distinct => ⟨distinct, fun idx => by simp [filterOr, satisfiesAny]⟩
  | c :: cs, vec, sel, _, approved, fits, nd, distinct => by
    have selected := filterSelection_selects c vec fits nd
    have moved := foldl_moveNew (filterSelection c vec sel approved).rows distinct
    obtain ⟨nd', mem⟩ := filterOr_spec cs vec fits nd moved.1
    refine ⟨nd', fun idx => ?_⟩
    rw [filterOr, mem, moved.2, selected.perm.mem_iff, mem_filter, satisfiesAny, Bool.or_eq_true]
    tauto

theorem filterAnd_selects : ∀ (cs : List (TableFilter T)) (vec : ColumnVector T)
    {sel : List Nat} {approved : Nat}, approved ≤ sel.length → (sel.take approved).Nodup →
    (filterAnd cs vec sel approved).Selects (sel.take approved)
      (satisfiesAll cs vec)
  | [], _, _, _, fits, _ => ⟨rfl, fits, by simp [FilteredSelection.rows, filterAnd, satisfiesAll]⟩
  | c :: cs, vec, _, _, fits, nd => by
    obtain ⟨counts, fits', perm⟩ := filterSelection_selects c vec fits nd
    rw [FilteredSelection.rows, ← counts] at perm
    obtain ⟨counts', fits'', perm'⟩ := filterAnd_selects cs vec (counts ▸ fits')
      (perm.nodup_iff.mpr (nd.filter _))
    refine ⟨counts', fits'', perm'.trans ((perm.filter _).trans (.of_eq ?_))⟩
    rw [filter_filter]
    exact filter_congr fun idx _ => Bool.and_comm _ _

end

/-- What `FilterSelection` leaves in the selection, for every tree of filters. -/
theorem filterSelection_spec (filter : TableFilter T) (vector : ColumnVector T) {sel : List Nat}
    {approved : Nat} (fits : approved ≤ sel.length) (nodup : (sel.take approved).Nodup) :
    let result := filter.filterSelection vector sel approved
    result.rows.Nodup ∧ (∀ idx, idx ∈ result.rows ↔
      idx ∈ sel.take approved ∧ filter.satisfies vector idx = true) ∧
      result.approvedTupleCount = result.returned ∧ result.returned = result.rows.length := by
  obtain ⟨counts, fits', perm⟩ := filterSelection_selects filter vector fits nodup
  refine ⟨perm.nodup_iff.mpr (nodup.filter _), fun idx => ?_, counts, ?_⟩
  · rw [perm.mem_iff, mem_filter]
  · exact (length_take_of_le fits').symm

/-- NULL or above 1: the first and the last of the rows NULL, 1 and 2. -/
theorem filterSelection_nullOrAbove :
    let filter : TableFilter Nat := conjunctionOr [isNull,
      conjunctionAnd [isNotNull, constantComparison .greaterThan 1]]
    let vector : ColumnVector Nat := .mk id (some (· != 0)) id []
    (filter.filterSelection vector [0, 1, 2] 3).rows = [0, 2] ∧
      (filter.filterSelection vector [0, 1, 2] 3).rows.Nodup :=
  ⟨rfl, (filterSelection_spec _ _ (by decide) (by decide)).1⟩

end TableFilter

end AccessPath
