import AccessPath.Version.ChunkInfo

/-!
# Deletes and their undo records

`PushDelete` records the rows that `ChunkVectorInfo::Delete` has marked, and `CommitDelete` and
`WriteDelete` go by the record. A delete that meets a conflict has marked the rows before it, but
nothing records them.
-/

namespace AccessPath

open List

namespace ChunkVectorInfo

variable (info : ChunkVectorInfo) (transactionId : Nat)

/-! ## The array of rows -/

/-- `ChunkVectorInfo::Delete` from row `i` of the array on, with the array itself: it is given back
with the number of rows that were moved to its front. -/
def deleteInPlace : (remaining i deletedTuples : Nat) → ChunkVectorInfo → List Nat →
    ChunkVectorInfo × Except String (List Nat × Nat)
  | 0, _, deletedTuples, info, rows => (info, .ok (rows, deletedTuples))
  | remaining + 1, i, deletedTuples, info, rows =>
    let row := rows.getD i 0
    if info.deleted row = transactionId then
      deleteInPlace remaining (i + 1) deletedTuples info rows
    else if info.deleted row ≠ notDeletedId then
      (info, .error "Conflict on tuple deletion!")
    else
      deleteInPlace remaining (i + 1) (deletedTuples + 1)
        { info with deleted := Function.update info.deleted row transactionId }
        (rows.set deletedTuples row)

/-- The rows at the front are never read again, so that the loop is the one over a list. -/
theorem deleteInPlace_eq {rem i deletedTuples : Nat} {rows : List Nat}
    (front : deletedTuples ≤ i) (all : i + rem = rows.length) :
    (deleteInPlace transactionId rem i deletedTuples info rows).1 =
        (deleteLoop transactionId info (rows.take deletedTuples) (rows.drop i)).1 ∧
      (deleteInPlace transactionId rem i deletedTuples info rows).2.map
          (fun r => r.1.take r.2) =
        (deleteLoop transactionId info (rows.take deletedTuples) (rows.drop i)).2 := by
  induction rem generalizing i deletedTuples info rows with
  | zero =>
    rw [drop_of_length_le (by omega)]
    exact ⟨rfl, rfl⟩
  | succ rem ih =>
    have lt : i < rows.length := by omega
    have eq : (rows.set deletedTuples rows[i]).take (deletedTuples + 1) =
        rows.take deletedTuples ++ [rows[i]] := by
      rw [take_succ_eq_append_getElem (by rw [length_set]; omega),
        getElem_set_self, take_set_of_le (Nat.le_refl _)]
    rw [drop_eq_getElem_cons lt, deleteInPlace, deleteLoop, getD_eq_getElem?_getD,
      getElem?_eq_getElem lt, Option.getD_some]
    split
    · exact ih info (by omega) (by omega)
    · split
      · exact ⟨rfl, rfl⟩
      · rw [← eq, ← @drop_set_of_lt _ rows[i] deletedTuples (i + 1) rows (by omega)]
        exact ih _ (by omega) (by rw [length_set]; omega)

theorem deleted_commitDelete (id : Nat) (rc : DeleteInfo) (row : Nat) :
    (info.commitDelete id rc).deleted row =
      if row ∈ rc.targets then id else info.deleted row :=
  stampRows_apply _ _ _ _

/-! ## A delete that succeeds -/

/-- `CommitState::WriteDelete`: the row identifiers that are logged. -/
def loggedRows (record : DeleteInfo) (baseRow : Nat) : List Nat :=
  if record.isConsecutive then (range record.count).map (baseRow + ·)
  else (record.rows.take record.count).map (baseRow + ·)

/-- The record of a delete is committed, rolled back and logged as the rows whose entry the delete
has changed. -/
theorem deleteInPlace_record (transaction : TransactionData) (vectorIdx baseRow commitId : Nat)
    {rows array : List Nat} {deletedTuples : Nat} {after : ChunkVectorInfo}
    (done : deleteInPlace transaction.transactionId rows.length 0 0
      { info with anyDeleted := true } rows = (after, .ok (array, deletedTuples))) :
    let record := DeleteInfo.push vectorIdx (array.take deletedTuples)
    (∀ row, (after.commitDelete commitId record).deleted row =
      if after.deleted row ≠ info.deleted row then commitId else info.deleted row) ∧
    (after.commitDelete notDeletedId record).deleted = info.deleted ∧
    (loggedRows record baseRow).Nodup ∧
    ∀ id, id ∈ loggedRows record baseRow ↔
      ∃ row, after.deleted row ≠ info.deleted row ∧ id = baseRow + row := by
  intro record
  obtain ⟨same, returned⟩ := deleteInPlace_eq { info with anyDeleted := true }
    transaction.transactionId (Nat.le_refl 0) (Nat.zero_add rows.length)
  rw [done] at same returned
  obtain ⟨marked, out, fresh, nodup, result⟩ := deleteLoop_ok returned.symm
  have targets : record.targets = marked := (DeleteInfo.targets_push _ _).trans out
  rw [← same] at result
  have changed (row : Nat) : after.deleted row ≠ info.deleted row ↔ row ∈ marked := by
    rw [result]
    split_ifs with mem
    · rw [(fresh row mem).2]
      exact iff_of_true (Nat.ne_of_lt transaction.id_lt) mem
    · exact iff_of_false (fun differ => differ rfl) mem
  have stamped (id row : Nat) : (after.commitDelete id record).deleted row =
      if row ∈ marked then id else info.deleted row := by
    rw [deleted_commitDelete, targets, result]
    split <;> rfl
  have logged : loggedRows record baseRow = marked.map (baseRow + ·) := by
    rw [← targets, loggedRows, DeleteInfo.targets]
    split <;> rfl
  simp only [changed, logged]
  refine ⟨stamped commitId, ?_, nodup.map fun _ _ => Nat.add_left_cancel, fun id => ?_⟩
  · funext row
    rw [stamped]
    split_ifs with mem
    · exact (fresh row mem).2.symm
    · rfl
  · rw [List.mem_map]
    exact exists_congr fun row => and_congr_right fun _ => eq_comm

/-- A row that is given twice is marked once, and all marks are taken back. -/
theorem deleteInPlace_record_twice :
    ((deleteInPlace (nthTransaction 0).transactionId 3 0 0
        { new 0 with anyDeleted := true } [3, 1, 3]).1.commitDelete notDeletedId
      (DeleteInfo.push 0 ([3, 1, 3].take 2))).deleted = (new 0).deleted :=
  (@deleteInPlace_record (new 0) (nthTransaction 0) 0 0 0 [3, 1, 3] _ _ _ rfl).2.1

/-! ## A delete that fails -/

/-- `RollbackState::RollbackEntry` for the entries of an undo buffer. -/
def rollback (records : List DeleteInfo) (info : ChunkVectorInfo) : ChunkVectorInfo :=
  records.foldl (fun info record => info.commitDelete notDeletedId record) info

theorem deleted_rollback (records : List DeleteInfo) (row : Nat) :
    (rollback records info).deleted row =
      if ∃ rc ∈ records, row ∈ rc.targets then notDeletedId else info.deleted row := by
  rw [rollback]
  induction records generalizing info with
  | nil => simp
  | cons rc records ih =>
    rw [foldl_cons, ih, deleted_commitDelete]
    by_cases hl : ∃ rc ∈ records, row ∈ rc.targets
    · simp [hl]
    · simp [hl]

/-- A delete that fails leaves no trace after the rollback if and only if the rows before the
conflict that it has marked are in records of earlier deletes, that is if it has marked none. -/
theorem rollback_failed_iff (transaction : TransactionData) (records : List DeleteInfo)
    {rows : List Nat} {message : String}
    (_failed : (info.delete transaction.transactionId rows).2 = .error message) :
    (rollback records (info.delete transaction.transactionId rows).1).deleted =
        (rollback records info).deleted ↔
      ∀ row ∈ info.uncontested transaction.transactionId rows, info.deleted row = notDeletedId →
        ∃ record ∈ records, row ∈ record.targets := by
  have marked := deleted_deleteLoop transaction.transactionId { info with anyDeleted := true } []
    rows
  rw [funext_iff]
  refine forall_congr' fun row => ?_
  rw [deleted_rollback, deleted_rollback, delete, marked]
  by_cases recorded : ∃ record ∈ records, row ∈ record.targets
  · simp [recorded, implies_true]
  · simp only [recorded, if_false, imp_false, ← not_and]
    split_ifs with free
    · refine iff_of_false (fun same => ?_) fun none => none free
      exact Nat.ne_of_lt transaction.id_lt (same.trans free.2)
    · exact iff_of_true rfl free

/-- A transaction has deleted row 1. -/
def contested : ChunkVectorInfo :=
  ((new 0).delete (nthTransaction 0).transactionId [1]).1

/-- The row is held by another transaction. -/
theorem rollback_failed_contested :
    (rollback [] (contested.delete (nthTransaction 1).transactionId [1]).1).deleted =
      (rollback [] contested).deleted :=
  (rollback_failed_iff contested (nthTransaction 1) [] rfl).mpr (by decide)

/-- Another transaction fails to delete rows 0 and 1: row 0 stays deleted after its rollback. -/
theorem rollback_contested :
    (contested.delete (nthTransaction 1).transactionId [0, 1]).2 =
        .error "Conflict on tuple deletion!" ∧
      (rollback [] (contested.delete (nthTransaction 1).transactionId
        [0, 1]).1).deleted ≠ (rollback [] contested).deleted :=
  ⟨rfl, fun same => absurd (congrFun same 0) (by decide)⟩

end ChunkVectorInfo

end AccessPath
