import Mathlib.Data.List.Nodup
import Mathlib.Data.List.TakeWhile
import AccessPath.Constants

/-!
# Removal of rows from the indexes of a table

`RowGroupCollection::RemoveFromIndexes` fetches rows in batches, one for each run of row identifiers
in one vector of the table, and hands each batch to the indexes (`row_group_collection.cpp`).
-/

namespace AccessPath

open List Option

variable {base r row size : Nat} {vector : Nat × Nat}

/-- The first row of a collection, the numbers of rows of its row groups, and the values of the
indexed columns of each row. -/
structure IndexedRows (Key : Type) where
  rowStart : Nat
  counts : List Nat
  key : Nat → Key

namespace IndexedRows

variable {Key : Type}

/-- `SegmentTree::GetSegment`: the start and the number of rows of the row group of a row. -/
def getSegment (row : Nat) : (start : Nat) → List Nat → Option (Nat × Nat)
  | _, [] => none
  | start, count :: counts =>
    if row < start then none
    else if row < start + count then some (start, count)
    else getSegment row (start + count) counts

variable (rows : IndexedRows Key)

/-- The first row of the vector that a row is in, and the number of rows of the vector. -/
def vectorOf (row : Nat) : Option (Nat × Nat) :=
  (getSegment row rows.rowStart rows.counts).map fun (start, count) =>
    ((row - start) / standardVectorSize * standardVectorSize + start,
      min standardVectorSize (count - (row - start) / standardVectorSize * standardVectorSize))

/-- The loop over the row identifiers, for a number of batches: what is passed to `Delete` of each
index. -/
def removeLoop (rowIdentifiers : List Nat) : Nat → List Nat → Except String (List (Nat × Key))
  | _, [] => .ok []
  | 0, _ :: _ => .error "more batches than rows"
  | batches + 1, row :: rest =>
    match rows.vectorOf row with
    | none => .error "Could not find node in column segment tree!"
    | some (base, size) =>
      let inVector (currentRow : Nat) : Bool := base ≤ currentRow && currentRow < base + size
      (removeLoop rowIdentifiers batches ((row :: rest).dropWhile inVector)).map
        (rowIdentifiers.zip (((row :: rest).takeWhile inVector).map rows.key) ++ ·)

def removeFromIndexes (rowIdentifiers : List Nat) : Except String (List (Nat × Key)) :=
  rows.removeLoop rowIdentifiers rowIdentifiers.length rowIdentifiers

/-- Each row identifier is passed once, with the values of its row. -/
def RemovesEach (rowIdentifiers : List Nat) : Prop :=
  ∃ passed, rows.removeFromIndexes rowIdentifiers = .ok passed ∧
    ∀ row ∈ rowIdentifiers, passed.filter (·.1 = row) = [(row, rows.key row)]

/-! ## Batches -/

variable {rows}

theorem getSegment_spec {lo : Nat} {counts : List Nat} {seg : Nat × Nat}
    (got : getSegment row lo counts = some seg) : lo ≤ seg.1 ∧ seg.1 ≤ row ∧ row < seg.1 + seg.2 ∧
      ∀ o, seg.1 ≤ o → o < seg.1 + seg.2 → getSegment o lo counts = some seg := by
  induction counts generalizing lo with
  | nil => cases got
  | cons n counts ih =>
    rw [getSegment] at got
    split_ifs at got with old fit
    · cases got
      refine ⟨Nat.le_refl _, Nat.not_lt.mp old, fit, fun o low high => ?_⟩
      rw [getSegment, if_neg (Nat.not_lt.mpr low), if_pos high]
    · obtain ⟨_, le, less, same⟩ := ih got
      refine ⟨by omega, le, less, fun o low high => ?_⟩
      rw [getSegment, if_neg (by omega), if_neg (by omega), same o low high]

theorem vectorOf_bounds (got : rows.vectorOf row = some (base, size)) :
    base ≤ row ∧ row < base + size := by
  obtain ⟨⟨lo, _⟩, seg, isVector⟩ := map_eq_some_iff.mp got
  obtain ⟨-, le, less, -⟩ := getSegment_spec seg
  have position := Nat.div_add_mod' (row - lo) standardVectorSize
  have xs := Nat.mod_lt (row - lo) standardVectorSize_pos
  simp only [Prod.mk.injEq] at isVector le less
  omega

theorem vectorOf_eq_of_bounds {o : Nat} (got : rows.vectorOf row = some (base, size))
    (low : base ≤ o) (high : o < base + size) : rows.vectorOf o = some (base, size) := by
  obtain ⟨⟨lo, _⟩, seg, isVector⟩ := map_eq_some_iff.mp got
  obtain ⟨-, _, _, same⟩ := getSegment_spec seg
  obtain ⟨rfl, rfl⟩ := isVector
  have vector : (o - lo) / standardVectorSize = (row - lo) / standardVectorSize :=
    Nat.div_eq_of_lt_le (by omega) (by rw [Nat.succ_mul]; omega)
  simp only [vectorOf, same o (by dsimp only; omega) (by dsimp only; omega), map_some, vector]

/-- A row is fetched with the vector of another one when it is in that vector. -/
theorem within_iff (got : rows.vectorOf row = some (base, size)) (o : Nat) :
    (decide (base ≤ o) && decide (o < base + size)) = true ↔
      rows.vectorOf o = some (base, size) := by
  rw [Bool.and_eq_true, decide_eq_true_iff, decide_eq_true_iff]
  exact ⟨fun ⟨low, high⟩ => vectorOf_eq_of_bounds got low high, vectorOf_bounds⟩

/-- A batch is the rows from the next one on that are in its vector. -/
theorem removeLoop_succ (got : rows.vectorOf r = some vector) (ids xs : List Nat) (batches : Nat) :
    rows.removeLoop ids (batches + 1) (r :: xs) = (rows.removeLoop ids batches
        (xs.dropWhile fun o => rows.vectorOf o = some vector)).map
        (ids.zip (rows.key r :: (xs.takeWhile fun o =>
          rows.vectorOf o = some vector).map rows.key) ++ ·) := by
  obtain ⟨base, size⟩ := vector
  have fit : (fun o => decide (base ≤ o) && decide (o < base + size)) =
      fun o => decide (rows.vectorOf o = some (base, size)) := funext fun o =>
    Bool.eq_iff_iff.mpr ((within_iff got o).trans decide_eq_true_iff.symm)
  simp [removeLoop, got, fit, decide_true, map_cons]

/-- Each batch begins with the first of all row identifiers, whichever rows are left. -/
theorem removeLoop_head {fst : Nat} {same xs : List Nat} {batches : Nat} {passed : List (Nat × Key)}
    (res : rows.removeLoop (fst :: same) batches (r :: xs) = .ok passed) :
    ∃ vector, rows.vectorOf r = some vector ∧ ∃ batches' batch hl,
      rows.removeLoop (fst :: same) batches'
        (xs.dropWhile fun o => rows.vectorOf o = some vector) = .ok hl ∧
      passed = (fst, rows.key r) :: batch ++ hl := by
  cases batches with
  | zero => cases res
  | succ batches =>
    cases got : rows.vectorOf r with
    | none =>
      rw [removeLoop, got] at res
      cases res
    | some vector =>
      rw [removeLoop_succ got, zip_cons_cons] at res
      cases left : rows.removeLoop (fst :: same) batches
          (xs.dropWhile fun o => rows.vectorOf o = some vector) with
      | error =>
        rw [left] at res
        cases res
      | ok hl =>
        rw [left] at res
        cases res
        exact ⟨vector, rfl, batches, _, hl, left, rfl⟩

/-- Rows of one vector are one batch, and each is passed with its own values. -/
theorem removeFromIndexes_inVector {ids : List Nat}
    (all : ∀ row ∈ ids, rows.vectorOf row = some vector) :
    rows.removeFromIndexes ids = .ok (ids.map fun row => (row, rows.key row)) := by
  cases ids with
  | nil => rfl
  | cons row xs =>
    have within : ∀ o ∈ xs, decide (rows.vectorOf o = some vector) = true :=
      fun o mem => decide_eq_true (all o (mem_cons_of_mem _ mem))
    rw [removeFromIndexes, length_cons, removeLoop_succ (all row mem_cons_self),
      dropWhile_eq_nil_iff.mpr within, takeWhile_eq_self_iff.mpr within, ← map_cons,
      ← map_prod_left_eq_zip, removeLoop]
    exact congrArg Except.ok (append_nil _)

theorem filter_passed (rows : IndexedRows Key) (ids : List Nat) (r : Nat) :
    (ids.map fun r => (r, rows.key r)).filter (·.1 = r) =
      replicate (ids.count r) (r, rows.key r) := by
  have same : ids.filter (· = r) = replicate (ids.count r) r := filter_eq r
  rw [List.filter_map, Function.comp_def]
  exact (congrArg _ same).trans map_replicate

/-- `RemoveFromIndexes` removes each row under its own values when the row identifiers are in one
vector of the table and no row is given twice. -/
theorem removesEach_iff (rows : IndexedRows Key) (rowIdentifiers : List Nat) :
    rows.RemovesEach rowIdentifiers ↔
      rowIdentifiers.Nodup ∧ ∃ vector, ∀ row ∈ rowIdentifiers, rows.vectorOf row = some vector := by
  constructor
  · rintro ⟨_, result, each⟩
    have single : ∃ vector, ∀ row ∈ rowIdentifiers, rows.vectorOf row = some vector := by
      cases rowIdentifiers with
      | nil => exact ⟨(0, 0), fun _ mem => nomatch mem⟩
      | cons first others =>
        obtain ⟨vector, found, _, batch, _, left, rfl⟩ := removeLoop_head result
        cases rest : others.dropWhile fun other => rows.vectorOf other = some vector with
        | nil =>
          refine ⟨vector, forall_mem_cons.mpr ⟨found, fun row mem => ?_⟩⟩
          exact of_decide_eq_true (dropWhile_eq_nil_iff.mp rest row mem)
        | cons second others' =>
          -- a second batch passes the first row identifier again
          rw [rest] at left
          obtain ⟨-, -, -, _, _, -, rfl⟩ := removeLoop_head left
          have once := congrArg List.length (each first mem_cons_self)
          simp [filter_append] at once
    obtain ⟨vector, all⟩ := single
    cases (removeFromIndexes_inVector all).symm.trans result
    refine ⟨nodup_iff_count_eq_one.mpr fun row mem => ?_, vector, all⟩
    rw [← length_replicate (n := rowIdentifiers.count row) (a := (row, rows.key row)),
      ← filter_passed, each row mem, length_singleton]
  · rintro ⟨nodup, _, all⟩
    refine ⟨_, removeFromIndexes_inVector all, fun row mem => ?_⟩
    rw [filter_passed, count_eq_one_of_mem nodup mem, replicate_one]

/-- Rows 0 and 2048 are both removed as row 0, and row 2048 stays in the index. -/
theorem removeFromIndexes_twoVectors :
    (⟨0, [4096], id⟩ : IndexedRows Nat).removeFromIndexes [0, 2048] = .ok [(0, 0), (0, 2048)] ∧
      ¬(⟨0, [4096], id⟩ : IndexedRows Nat).RemovesEach [0, 2048] := by
  have result : (⟨0, [4096], id⟩ : IndexedRows Nat).removeFromIndexes [0, 2048] =
      .ok [(0, 0), (0, 2048)] := by decide +kernel
  refine ⟨result, ?_⟩
  rintro ⟨_, passes, each⟩
  cases result.symm.trans passes
  exact absurd (each 0 mem_cons_self) (by decide)

end IndexedRows

end AccessPath
