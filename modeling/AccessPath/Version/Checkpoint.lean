import AccessPath.Version.Shortcuts

/-!
# What a checkpoint keeps of the deletes

A checkpoint stores, for each vector with deletes, the rows that a transaction
that starts last of all would still see. The image may be older than the
checkpoint: `Checkpoint` reuses the stored one when `has_changes` is not set
(`VersionState.ImageCurrent`).
-/

namespace AccessPath

open Library RowVersionManager List

variable {loaded manager : RowVersionManager} {s' : VersionState} {s : VersionState}

/-! ## Committed deletes -/

/-- The row was deleted by a committed transaction. -/
def RowVersionManager.committedDeletedAt (manager : RowVersionManager) (row : Nat) : Bool :=
  manager.deletedAt row < transactionIdStart

/-! ## The stored form of one vector -/

/-- A row of a stored vector comes back deleted unless it was kept. -/
theorem deletedOf_reread_vector (inf : ChunkVectorInfo) {i : Nat}
    (lt : i < standardVectorSize) :
    deletedOf (ChunkInfo.vector inf).reread i =
      if i ∈ inf.keptRows.rows standardVectorSize then notDeletedId else 0 := by
  unfold ChunkInfo.reread SelResult.rows
  by_cases all : inf.keptRows.count = standardVectorSize
  · simp [all, lt, deletedOf]
  · by_cases none : inf.keptRows.count = 0
    · have hne : ¬ (0 = standardVectorSize) := by decide
      simp [none, hne, deletedOf]
    · by_cases kept : i ∈ inf.keptRows.sel.take inf.keptRows.count <;>
        simp [all, none, deletedOf, ChunkVectorInfo.ofMask, lt, kept]

theorem insertedOf_reread (inf : ChunkInfo) (i : Nat) : insertedOf inf.reread i = 0 := by
  cases inf with
  | constant inf => rfl
  | vector inf =>
    unfold ChunkInfo.reread
    simp only
    split
    · rfl
    · split <;> rfl

/-- The transaction that `Write` looks through sees identifiers below its start
time only. -/
theorem useInsertedVersion_write {id : Nat} (le : id ≤ notDeletedId) :
    useInsertedVersion (transactionIdStart - 1) invalidIndex id = true ↔
      id < transactionIdStart - 1 := by
  have hb : id ≠ invalidIndex := by
    simp only [notDeletedId, invalidIndex] at *
    omega
  simp [useInsertedVersion, hb]

section

variable {inf : ChunkVectorInfo} {rows clock i : Nat} (notExhausted : clock < transactionIdStart)
  (same : inf.SameInserted rows) (inRows : i < rows) (inVector : i < standardVectorSize)
  (inserted : inf.inserted i < clock) (deleted : Drawn clock (inf.deleted i))
  (deleted_le : inf.deleted i ≤ notDeletedId)
include notExhausted same inRows inVector inserted deleted deleted_le

/-- A vector with deletes keeps a committed row unless its delete is committed. -/
theorem ChunkVectorInfo.mem_keptRows (any : inf.anyDeleted = true) :
    i ∈ inf.keptRows.rows standardVectorSize ↔ ¬ inf.deleted i < transactionIdStart := by
  have lo : clock ≤ transactionIdStart - 1 := by omega
  have seesInsert : useInsertedVersion (transactionIdStart - 1) invalidIndex
      (inf.inserted i) = true :=
    (useInsertedVersion_write (by simp only [transactionIdStart, notDeletedId] at *; omega)).mpr
      (Nat.lt_of_lt_of_le inserted lo)
  have keeps : useDeletedVersion (transactionIdStart - 1) invalidIndex (inf.deleted i) = true ↔
      ¬ inf.deleted i < transactionIdStart := by
    rw [useDeletedVersion, Bool.not_eq_true', Bool.eq_false_iff, ne_eq,
      useInsertedVersion_write deleted_le]
    rcases deleted with drawn | late <;> omega
  have inRange : i ∈ range standardVectorSize := mem_range.mpr inVector
  unfold ChunkVectorInfo.keptRows ChunkVectorInfo.templatedGetSelVector
  simp only [any, Bool.not_true, Bool.and_false, Bool.false_eq_true, if_false,
    transactionVersionOperator]
  cases flag : inf.sameInsertedId with
  | true =>
    rw [same flag i inRows] at seesInsert
    simp only [seesInsert, Bool.not_true, Bool.false_eq_true, if_false, if_true, selLoop_rows,
      mem_filter, inRange, true_and, keeps]
  | false =>
    simp only [Bool.false_eq_true, if_false, selLoop_rows, mem_filter, inRange, true_and,
      seesInsert, Bool.true_and, keeps]

end

/-! ## The stored form of a row group -/

/-- What an image is to give each of the first `count` rows. -/
def RowVersionManager.StoredAs (manager loaded : RowVersionManager) (count : Nat) : Prop :=
  ∀ row < count, loaded.insertedAt row = 0 ∧
    loaded.deletedAt row = if manager.committedDeletedAt row then 0 else notDeletedId

/-- An image written when all inserts are committed gives each row what it is to
give. -/
theorem VersionState.DeletesSummarised.stored (summarised : s.DeletesSummarised)
    (committed : s.AllInsertsCommitted)
    (notExhausted : s.clock < transactionIdStart)
    (infos : loaded.vectorInfo = s.group.versionInfo.stored) :
    s.group.versionInfo.StoredAs loaded s.group.count := by
  intro r inGroup
  have sound := summarised.sound
  have inVector := row_mod_lt r
  have vectorInGroup : r / standardVectorSize < rowGroupVectorCount := by
    have := sound.count_le
    have := rowGroupVectorCount_mul
    simp only [standardVectorSize] at *
    omega
  have inRows : r % standardVectorSize < rowsInVector s.group.count (r / standardVectorSize) :=
    lt_rowsInVector.mpr ⟨inVector, by rw [row_eq]; exact inGroup⟩
  have inserted : s.group.versionInfo.insertedAt r < s.clock := by
    rcases sound.identifiers.inserted r with drawn | late
    · exact drawn
    · exact absurd (committed r inGroup) (Nat.not_lt.mpr late)
  have deleted := sound.identifiers.deleted r
  have deletedLe := sound.identifiers.deleted_le r
  have inf : loaded.vectorInfo (r / standardVectorSize) =
      storedInfo (s.group.versionInfo.vectorInfo (r / standardVectorSize)) := by
    rw [infos, RowVersionManager.stored, if_pos vectorInGroup]
  have recent := transactionIdStart_lt_notDeletedId.not_gt
  rcases cur : s.group.versionInfo.vectorInfo (r / standardVectorSize) with _ | old | old
  · simp only [cur, storedInfo] at inf
    simp [insertedAt, deletedAt, committedDeletedAt, inf, cur, insertedOf, deletedOf, recent]
  · simp only [insertedAt, cur, insertedOf] at inserted
    simp only [cur, storedInfo, ChunkInfo.hasDeletes, ChunkConstantInfo.hasDeletes] at inf
    have settled : ¬ transactionIdStart ≤ old.insertId := by omega
    by_cases gone : old.deleteId < transactionIdStart
    · simp [insertedAt, deletedAt, committedDeletedAt, inf, cur, gone, ChunkInfo.reread,
        insertedOf, deletedOf]
    · simp [insertedAt, deletedAt, committedDeletedAt, inf, cur, gone, settled, insertedOf,
        deletedOf]
  · simp only [insertedAt, cur, insertedOf] at inserted
    simp only [deletedAt, cur, deletedOf] at deleted deletedLe
    simp only [cur, storedInfo, ChunkInfo.hasDeletes, ChunkVectorInfo.hasDeletes] at inf
    cases any : old.anyDeleted with
    | false =>
      -- only here the summary matters: a vector that is not written has no deletes
      have kept := summarised.anyDeleted _ old cur any
      simp [insertedAt, deletedAt, committedDeletedAt, inf, cur, any, insertedOf, deletedOf, kept,
        recent]
    | true =>
      have kept := ChunkVectorInfo.mem_keptRows notExhausted
        (sound.sameInserted _ old cur) inRows inVector inserted deleted deletedLe any
      have marked : deletedOf (some (.vector old)) (r % standardVectorSize) = old.deleted _ := rfl
      simp only [insertedAt, deletedAt, committedDeletedAt, inf, cur, any, if_true,
        insertedOf_reread, deletedOf_reread_vector old inVector, marked, true_and]
      by_cases gone : old.deleted (r % standardVectorSize) < transactionIdStart
      · rw [if_neg (fun mem => kept.mp mem gone), if_pos (decide_eq_true gone)]
      · rw [if_pos (kept.mpr gone), if_neg (by simpa using gone)]

theorem RowVersionManager.storedAs_self
    (infosLoaded : ∀ v inf, manager.vectorInfo v = some inf → inf.Loaded) (n : Nat) :
    manager.StoredAs manager n := by
  intro r _
  refine ⟨insertedAt_of_loaded infosLoaded r, ?_⟩
  unfold committedDeletedAt deletedAt
  rcases cur : manager.vectorInfo (r / standardVectorSize) with _ | inf | inf
  · rfl
  · have origin := (infosLoaded _ _ cur).2
    simp only [deletedOf, origin]
    rfl
  · obtain ⟨lo, mask, rfl⟩ := infosLoaded _ _ cur
    simp only [deletedOf, ChunkVectorInfo.ofMask]
    split
    · rfl
    · rfl

/-! ## Images that are reused -/

/-- As long as `has_changes` is not set, the last image can be read and still
gives each row what it is to give. -/
def VersionState.ImageCurrent (s : VersionState) : Prop :=
  s.group.versionInfo.hasChanges = false → s.group.versionInfo.storagePointers ≠ [] →
    ∃ loaded, deserialize s.group.versionInfo.storagePointers
        s.group.versionInfo.start = .ok (some loaded) ∧
      (s.clock < transactionIdStart → s.group.versionInfo.StoredAs loaded s.group.count)

/-- An image outlives every change that leaves its rows' committed deletes alone. -/
theorem VersionState.ImageCurrent.of_same_deletes {s s' : VersionState} (cur : s.ImageCurrent)
    (changes : s'.group.versionInfo.hasChanges = s.group.versionInfo.hasChanges)
    (ptrs : s'.group.versionInfo.storagePointers = s.group.versionInfo.storagePointers)
    (lo : s'.group.versionInfo.start = s.group.versionInfo.start)
    (clock : s.clock ≤ s'.clock) (n : s'.group.count ≤ s.group.count)
    (deletes : ∀ r < s'.group.count, s'.group.versionInfo.committedDeletedAt r =
      s.group.versionInfo.committedDeletedAt r) : s'.ImageCurrent := by
  intro unchanged ne
  rw [changes] at unchanged
  rw [ptrs] at ne
  obtain ⟨loaded, read, sto⟩ := cur unchanged ne
  refine ⟨loaded, by rw [ptrs, lo]; exact read, fun notExhausted r inGroup => ?_⟩
  rw [deletes r inGroup]
  exact sto (Nat.lt_of_le_of_lt clock notExhausted) r (Nat.lt_of_lt_of_le inGroup n)

theorem VersionState.ImageCurrent.commitAppend (cur : s.ImageCurrent) (cid : Nat) :
    VersionState.ImageCurrent { s with
        group := (s.group.commitAppend cid s.appendStart (s.group.count - s.appendStart)).1
        appendCommitted := true } := by
  obtain ⟨lo, changes, ptrs⟩ := s.group.versionInfo.fields_commitAppend cid
    s.appendStart (s.group.count - s.appendStart)
  refine cur.of_same_deletes changes ptrs lo (Nat.le_refl _) (Nat.le_refl _) fun r _ => ?_
  unfold committedDeletedAt RowGroup.commitAppend
  rw [(identifiers_commitAppend r).1]

theorem VersionState.DeletesSummarised.imageCurrent_checkpoint
    (summarised : s.DeletesSummarised) (cur : s.ImageCurrent)
    (committed : s.AllInsertsCommitted) : VersionState.ImageCurrent
      { s with group := { s.group with versionInfo := s.group.versionInfo.checkpoint.1 } } := by
  unfold checkpoint
  split
  · exact cur
  · simp only
    split
    · exact cur
    · intro _ _
      obtain ⟨loaded, read, infos, _⟩ :=
        s.group.versionInfo.deserialize_image s.group.versionInfo.start
      exact ⟨loaded, read, fun notExhausted => summarised.stored committed notExhausted infos⟩

theorem VersionState.ImageCurrent.step {op : VersionOp} (summarised : s.DeletesSummarised)
    (cur : s.ImageCurrent) (stepped : s.Step op s') : s'.ImageCurrent := by
  cases stepped with
  | tick =>
    exact cur.of_same_deletes rfl rfl rfl (Nat.le_succ _) (Nat.le_refl _) fun _ _ => rfl
  | @append tx _ positive _ _ =>
    obtain ⟨last, _, _, is, _⟩ :=
      s.group.appendVersionInfo_eq tx.transactionId positive summarised.sound.count_le
    intro unchanged
    simp only [is, hasChanges_appendVersionInfo] at unchanged
    cases unchanged
  | commitAppend _ _ => exact cur.commitAppend _
  | revertAppend =>
    refine cur.of_same_deletes rfl rfl rfl (Nat.le_refl _) (Nat.min_le_right _ _)
      fun r inGroup => ?_
    have stays : r < s.appendStart := Nat.lt_of_lt_of_le inGroup (Nat.min_le_left _ _)
    unfold committedDeletedAt deletedAt RowGroup.revertAppend
    rw [vectorInfo_revertAppend _ stays]
  | settleAppend =>
    exact cur.of_same_deletes rfl rfl rfl (Nat.le_refl _) (Nat.le_refl _) fun _ _ => rfl
  | deleteRows _ | commitDelete _ _ _ =>
    intro unchanged
    cases unchanged
  | checkpoint committed => exact summarised.imageCurrent_checkpoint cur committed
  | @reload loaded _ read =>
    intro _ ne
    cases loaded with
    | none => exact absurd rfl ne
    | some manager =>
      obtain ⟨ptrs, lo, loaded⟩ := deserialize_spec read
      refine ⟨manager, ?_, fun _ => storedAs_self loaded _⟩
      simp only [Option.getD_some, ptrs, lo]
      exact read

theorem RowVersionManager.StoredAs.fetch {n r : Nat} (stored : manager.StoredAs loaded n)
    (inGroup : r < n) {tx : TransactionData} (started : 0 < tx.startTime) :
    loaded.fetch tx r = !manager.committedDeletedAt r := by
  have seesStored : useVersion tx 0 = true := useVersion_iff.mpr (.inl started)
  obtain ⟨inserted, deleted⟩ := stored r inGroup
  rw [fetch_eq _ _ _ seesStored, inserted, deleted, seesStored]
  cases manager.committedDeletedAt r with
  | true => simp [seesStored]
  | false => simp [useVersion_notDeletedId]

end AccessPath
