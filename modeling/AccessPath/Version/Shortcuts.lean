import AccessPath.Version.RowGroup

/-!
# The summary fields of a vector agree with its arrays

`GetSelVector` decides whole vectors by `same_inserted_id`, `insert_id` and
`any_deleted` where it can, `Fetch` looks at the arrays. The two agree in every
run in which no delete names a row of an append that is still in progress.
-/

namespace AccessPath

open Library ChunkVectorInfo RowVersionManager List Bool

variable {record : DeleteInfo} {cid max vectorIdx : Nat} {m : RowVersionManager} {s : VersionState}

/-! ## One vector -/

/-- While `any_deleted` is not set, no row is deleted. -/
def ChunkVectorInfo.AnyDeleted (info : ChunkVectorInfo) : Prop :=
  info.anyDeleted = false → ∀ i, info.deleted i = notDeletedId

theorem ChunkConstantInfo.rows_templatedGetSelVector (inf : ChunkConstantInfo)
    (tx : TransactionData) (max : Nat) :
    (inf.templatedGetSelVector transactionVersionOperator tx.startTime
        tx.transactionId max).rows max = (range max).filter (inf.fetch tx) := by
  have judged : (transactionVersionOperator.useInsertedVersion tx.startTime
        tx.transactionId inf.insertId &&
      transactionVersionOperator.useDeletedVersion tx.startTime
        tx.transactionId inf.deleteId) = inf.fetch tx 0 := rfl
  unfold ChunkConstantInfo.templatedGetSelVector
  rw [judged]
  cases seen : inf.fetch tx 0 with
  | true =>
    have all : ∀ i ∈ range max, inf.fetch tx i = true := fun _ _ => seen
    rw [if_pos rfl, selResult_rows_full, filter_eq_self.mpr all]
  | false =>
    have none : ∀ i ∈ range max, ¬ inf.fetch tx i = true := by
      intro i _ seenAt
      exact Bool.false_ne_true (seen.symm.trans seenAt)
    rw [if_neg Bool.false_ne_true, selResult_rows_zero, filter_eq_nil_iff.mpr none]

/-- A vector info whose summaries are right selects the rows it would fetch. -/
theorem ChunkVectorInfo.rows_templatedGetSelVector {inf : ChunkVectorInfo} {rows : Nat}
    (same : inf.SameInserted rows) (any : inf.AnyDeleted) (tx : TransactionData)
    (le : max ≤ rows) : (inf.templatedGetSelVector transactionVersionOperator tx.startTime
        tx.transactionId max).rows max = (range max).filter (inf.fetch tx) := by
  have inserted (flag : inf.sameInsertedId = true) (i : Nat) (mem : i ∈ range max) :
      inf.inserted i = inf.insertId :=
    same flag i (Nat.lt_of_lt_of_le (mem_range.mp mem) le)
  have undeleted (flag : inf.anyDeleted = false) (i : Nat) :
      useVersion tx (inf.deleted i) = false := by
    rw [any flag i]
    exact useVersion_notDeletedId tx
  have judge (id : Nat) : transactionVersionOperator.useInsertedVersion tx.startTime
      tx.transactionId id = useVersion tx id := rfl
  have judgeDeleted (id : Nat) : transactionVersionOperator.useDeletedVersion tx.startTime
        tx.transactionId id = !useVersion tx id := rfl
  unfold templatedGetSelVector
  simp only [judge, judgeDeleted]
  cases flagSame : inf.sameInsertedId <;> cases flagAny : inf.anyDeleted
  · simp only [Bool.false_and, false_eq_true, if_false, Bool.not_false, if_true, selLoop_rows]
    refine filter_congr fun i _ => ?_
    simp [fetch, undeleted flagAny]
  · simp only [Bool.false_and, false_eq_true, if_false, Bool.not_true, selLoop_rows]
    rfl
  · simp only [Bool.not_false, Bool.and_self, if_true]
    cases seen : useVersion tx inf.insertId with
    | true =>
      rw [if_pos rfl, selResult_rows_full, filter_eq_self.mpr]
      intro i mem
      simp [fetch, inserted flagSame i mem, undeleted flagAny, seen]
    | false =>
      rw [if_neg Bool.false_ne_true, selResult_rows_zero, filter_eq_nil_iff.mpr]
      intro i mem
      simp [fetch, inserted flagSame i mem, seen]
  · simp only [Bool.not_true, Bool.and_false, false_eq_true, if_false, if_true]
    cases seen : useVersion tx inf.insertId with
    | true =>
      simp only [Bool.not_true, false_eq_true, if_false, selLoop_rows]
      refine filter_congr fun i mem => ?_
      simp [fetch, inserted flagSame i mem, seen]
    | false =>
      simp only [Bool.not_false, if_true, selResult_rows_zero]
      rw [eq_comm, filter_eq_nil_iff]
      intro i mem
      simp [fetch, inserted flagSame i mem, seen]

theorem ChunkVectorInfo.append_deletes (inf : ChunkVectorInfo) (fst last cid : Nat) :
    (inf.append fst last cid).deleted = inf.deleted ∧
      (inf.append fst last cid).anyDeleted = inf.anyDeleted := by
  unfold append
  split
  · exact ⟨rfl, rfl⟩
  · split <;> exact ⟨rfl, rfl⟩

/-! ## Runs in which deletes name settled rows -/

/-- A delete names no row of the append in progress. -/
def VersionOp.Orderly (s : VersionState) : VersionOp → Prop
  | .deleteRows vectorIdx _ rows =>
    ∀ row ∈ rows, vectorIdx * standardVectorSize + row < s.appendStart
  | _ => True

instance (s : VersionState) (op : VersionOp) : Decidable (op.Orderly s) := by
  cases op <;> unfold VersionOp.Orderly <;> infer_instance

/-- The vector of a delete record: an info that already has `any_deleted` set,
among the vectors that hold a settled row. -/
def VersionState.Recorded (s : VersionState) (record : DeleteInfo) : Prop :=
  record.vectorIdx * standardVectorSize < s.appendStart ∧
    ∃ info, s.group.versionInfo.vectorInfo record.vectorIdx = some (.vector info) ∧
      info.anyDeleted = true

structure VersionState.DeletesSummarised (s : VersionState) : Prop where
  sound : s.Sound
  anyDeleted : ∀ v info, s.group.versionInfo.vectorInfo v = some (.vector info) → info.AnyDeleted
  recorded : ∀ record ∈ s.records, s.Recorded record

/-- The infos of vectors that an append leaves alone, or appends to, keep their
deletes. A vector that is overwritten whole holds no row from before. -/
theorem RowVersionManager.appendVersionInfo_deletes {fst last : Nat} (tid : Nat)
    (ne : fst < last) (v : Nat) :
    (∀ inf, (m.appendVersionInfo tid fst last).1.vectorInfo v = some (.vector inf) →
      (∀ old, m.vectorInfo v = some (.vector old) → old.AnyDeleted) → inf.AnyDeleted) ∧
    (v * standardVectorSize < fst → ∀ old, m.vectorInfo v = some (.vector old) →
      ∃ inf, (m.appendVersionInfo tid fst last).1.vectorInfo v =
        some (.vector inf) ∧ inf.anyDeleted = old.anyDeleted) := by
  unfold appendVersionInfo
  rcases changeVectors_vectorInfo (appendVectorInfo m.start tid fst last)
    { m with hasChanges := true } (nodup_vectorIndexes fst last) v
    with ⟨kept, -⟩ | ⟨ht, new, done, set⟩
  · rw [kept]
    exact ⟨fun inf got pre => pre inf got, fun _ old got => ⟨old, got, rfl⟩⟩
  · rw [set]
    have started := (vectorStart_eq_rowsInVector ht ne).1
    unfold appendVectorInfo at done
    simp only at done
    split_ifs at done with full
    · cases done
      refine ⟨fun inf got => (by cases got), fun pre => ?_⟩
      simp only [started, rowsInVector, standardVectorSize] at full pre
      omega
    · rcases cur : m.vectorInfo v with _ | old | old
      · simp only [cur] at done
        cases done
        refine ⟨fun inf got _ => ?_, fun _ old got => (by cases got)⟩
        cases got
        intro flag i
        rw [(append_deletes _ _ _ _).1]
        rfl
      · simp only [cur] at done
        cases done
      · simp only [cur] at done
        cases done
        refine ⟨fun inf got pre => ?_, fun _ o got => ?_⟩
        · cases got
          intro flag i
          rw [(append_deletes _ _ _ _).2] at flag
          rw [(append_deletes _ _ _ _).1]
          exact pre old rfl flag i
        · cases got
          exact ⟨_, rfl, (append_deletes _ _ _ _).2⟩

theorem VersionState.DeletesSummarised.append {s : VersionState}
    (summ : s.DeletesSummarised) {tx : TransactionData} {n : Nat}
    (pos : 0 < n) (pend : s.appendCommitted = false) (free : ∀ row < s.appendStart,
      s.group.versionInfo.insertedAt row ≠ tx.transactionId) :
    VersionState.DeletesSummarised
      { s with group := (s.group.appendVersionInfo tx.transactionId n).1 } := by
  have ok := summ.sound.append pos pend free
  obtain ⟨last, _, range, is, _⟩ :=
    s.group.appendVersionInfo_eq tx.transactionId pos summ.sound.count_le
  rcases range with ne | ⟨full, ending⟩
  · refine ⟨ok, fun v inf got => ?_, fun record mem => ?_⟩
    · simp only [is] at got
      exact (appendVersionInfo_deletes _ ne v).1 inf got (summ.anyDeleted v)
    · obtain ⟨hse, old, got, flag⟩ := summ.recorded record mem
      have pre : record.vectorIdx * standardVectorSize < s.group.count :=
        Nat.lt_of_lt_of_le hse summ.sound.appendStart_le
      obtain ⟨inf, stays, same⟩ := (appendVersionInfo_deletes
          tx.transactionId ne record.vectorIdx).2
          pre old got
      refine ⟨hse, inf, ?_, same.trans flag⟩
      simp only [is]
      exact stays
  · have hut : (s.group.appendVersionInfo tx.transactionId
        n).1.versionInfo.vectorInfo = s.group.versionInfo.vectorInfo := by
      rw [is, full, ending]
      rfl
    refine ⟨ok, fun v inf got => ?_, fun record mem => ?_⟩
    · simp only [hut] at got
      exact summ.anyDeleted v inf got
    · obtain ⟨hse, old, got, flag⟩ := summ.recorded record mem
      exact ⟨hse, old, by simp only [hut]; exact got, flag⟩

theorem VersionState.DeletesSummarised.commitAppend (summ : s.DeletesSummarised)
    (lt : cid < s.clock) (pend : s.appendCommitted = false) :
    VersionState.DeletesSummarised { s with
        group := (s.group.commitAppend cid s.appendStart (s.group.count - s.appendStart)).1
        appendCommitted := true } := by
  have vectors (v : Nat) := s.group.versionInfo.vectorInfo_commitAppend cid s.appendStart
    (s.group.count - s.appendStart) v
  refine ⟨summ.sound.commitAppend lt pend, fun v inf got => ?_, fun record mem => ?_⟩
  · rcases vectors v with kept | ⟨old, cur, fst, last, set⟩
    · exact summ.anyDeleted v inf (kept.symm.trans got)
    · have new : old.commitAppend cid fst last = .vector inf := Option.some.inj (set.symm.trans got)
      cases old with
      | constant old => cases new
      | vector old =>
        cases new
        exact summ.anyDeleted v old cur
  · obtain ⟨still, inf, got, flag⟩ := summ.recorded record mem
    refine ⟨still, ?_⟩
    rcases vectors record.vectorIdx with kept | ⟨old, cur, fst, last, set⟩
    · exact ⟨inf, kept.trans got, flag⟩
    · rw [got] at cur
      cases cur
      exact ⟨_, set, flag⟩

theorem VersionState.DeletesSummarised.revertAppend (summ : s.DeletesSummarised) :
    VersionState.DeletesSummarised { s with
        group := s.group.revertAppend s.appendStart
        appendCommitted := false } := by
  refine ⟨summ.sound.revertAppend, fun v inf got => ?_, fun record mem => ?_⟩
  · rcases s.group.versionInfo.vectorInfo_revertAppend_cases s.appendStart v with hdr | kept
    · rw [show (s.group.revertAppend s.appendStart).versionInfo.vectorInfo v = none from hdr]
        at got
      cases got
    · exact summ.anyDeleted v inf (kept.symm.trans got)
  · obtain ⟨still, inf, got, flag⟩ := summ.recorded record mem
    have stays := s.group.versionInfo.vectorInfo_revertAppend still
    rw [Nat.mul_div_cancel _ standardVectorSize_pos] at stays
    exact ⟨still, inf, stays.trans got, flag⟩

theorem ChunkVectorInfo.delete_anyDeleted (inf : ChunkVectorInfo) (tid : Nat)
    (rows : List Nat) : (inf.delete tid rows).1.anyDeleted = true := by
  rw [delete_inserted]

theorem VersionState.Recorded.deleteRows (recorded : s.Recorded record)
    (vi tid : Nat) (rows : List Nat) (records : List DeleteInfo) :
    VersionState.Recorded { s with
        group := { s.group with
          versionInfo := (s.group.versionInfo.deleteRows vi tid rows).1 }
        records := records } record := by
  obtain ⟨still, inf, got, flag⟩ := recorded
  refine ⟨still, ?_⟩
  simp only [vectorInfo_deleteRows]
  split
  · exact ⟨_, rfl, delete_anyDeleted _ _ _⟩
  · exact ⟨inf, got, flag⟩

theorem VersionState.DeletesSummarised.deleteRows (summ : s.DeletesSummarised)
    {tx : TransactionData} {rows : List Nat}
    (orderly : ∀ row ∈ rows, vectorIdx * standardVectorSize + row < s.appendStart) :
    VersionState.DeletesSummarised { s with
        group := { s.group with
          versionInfo := (s.group.versionInfo.deleteRows vectorIdx tx.transactionId rows).1 }
        records := pushDelete s.records vectorIdx
          (s.group.versionInfo.deleteRows vectorIdx tx.transactionId rows).2 } := by
  refine ⟨summ.sound.deleteRows _ _ _ _, fun v inf got => ?_, fun record mem => ?_⟩
  · simp only [vectorInfo_deleteRows] at got
    split at got
    · cases got
      intro flag
      rw [delete_anyDeleted] at flag
      cases flag
    · exact summ.anyDeleted v inf got
  · cases r : (s.group.versionInfo.deleteRows vectorIdx tx.transactionId rows).2 with
    | error message =>
      simp only [r, pushDelete] at mem
      exact (summ.recorded record mem).deleteRows _ _ _ _
    | ok kept =>
      cases kept with
      | nil =>
        simp only [r, pushDelete] at mem
        exact (summ.recorded record mem).deleteRows _ _ _ _
      | cons fst rest =>
        simp only [r, pushDelete] at mem
        rcases mem_cons.mp mem with rfl | old
        · obtain ⟨listed, eq, hfr, -⟩ := deleteLoop_ok r
          have inRows := (hfr fst (by rw [nil_append] at eq; simp [← eq])).1
          have still := orderly fst inRows
          refine ⟨?_, ?_⟩
          · rw [DeleteInfo.vectorIdx_push]
            exact Nat.lt_of_le_of_lt (Nat.le_add_right _ _) still
          · rw [DeleteInfo.vectorIdx_push]
            simp only [vectorInfo_deleteRows, if_true]
            exact ⟨_, rfl, delete_anyDeleted _ _ _⟩
        · exact (summ.recorded record old).deleteRows _ _ _ _

theorem VersionState.DeletesSummarised.commitDelete (summ : s.DeletesSummarised)
    (mem : record ∈ s.records) (le : cid ≤ notDeletedId) (drew : Drawn s.clock cid) :
    VersionState.DeletesSummarised { s with
        group := { s.group with
          versionInfo := s.group.versionInfo.commitDelete record.vectorIdx cid record }
        records := if cid = notDeletedId then s.records.erase record else s.records } := by
  obtain ⟨_, inf, got, flag⟩ := summ.recorded record mem
  have target : s.group.versionInfo.getVectorInfo record.vectorIdx = inf := by
    simp only [getVectorInfo, got]
  refine ⟨summ.sound.commitDelete le drew _, fun v other otherFound => ?_, fun other otherMem => ?_⟩
  · simp only [vectorInfo_commitDelete, target] at otherFound
    split at otherFound
    · cases otherFound
      intro unset
      rw [show (inf.commitDelete cid record).anyDeleted = true from flag] at unset
      cases unset
    · exact summ.anyDeleted v other otherFound
  · have old : other ∈ s.records := by
      split at otherMem
      · exact mem_of_mem_erase otherMem
      · exact otherMem
    obtain ⟨still, otherInfo, otherFound, otherFlag⟩ := summ.recorded other old
    refine ⟨still, ?_⟩
    simp only [vectorInfo_commitDelete, target]
    split
    · exact ⟨_, rfl, flag⟩
    · exact ⟨otherInfo, otherFound, otherFlag⟩

/-- Every orderly call keeps the summaries of deletes right. -/
theorem VersionState.DeletesSummarised.step {s' : VersionState} {op : VersionOp}
    (summ : s.DeletesSummarised) (orderly : op.Orderly s) (run : s.Step op s') :
    s'.DeletesSummarised := by
  have ok := summ.sound.step run
  cases run with
  | tick => exact ⟨ok, summ.anyDeleted, summ.recorded⟩
  | append pos pend hu => exact summ.append pos pend hu
  | commitAppend drew pend => exact summ.commitAppend drew pend
  | revertAppend => exact summ.revertAppend
  | settleAppend =>
    refine ⟨ok, summ.anyDeleted, fun record mem => ?_⟩
    obtain ⟨hse, rest⟩ := summ.recorded record mem
    exact ⟨Nat.lt_of_lt_of_le hse summ.sound.appendStart_le, rest⟩
  | deleteRows _ => exact summ.deleteRows orderly
  | commitDelete mem le drew => exact summ.commitDelete mem le drew
  | checkpoint _ =>
    have infos := s.group.versionInfo.vectorInfo_checkpoint
    refine ⟨ok, fun v inf got => ?_, fun record mem => ?_⟩
    · simp only [infos] at got
      exact summ.anyDeleted v inf got
    · obtain ⟨hse, inf, got, flag⟩ := summ.recorded record mem
      exact ⟨hse, inf, by simp only [infos]; exact got, flag⟩
  | reload _ read =>
    refine ⟨ok, fun v inf got => ?_, fun record mem => by cases mem⟩
    obtain ⟨start, mask, rfl⟩ := loaded_getD read v _ got
    intro flag
    cases flag

theorem VersionState.deletesSummarised_of_reachable
    (reached : (versionMachine.guarded fun s op => op.Orderly s).Reachable s) :
    s.DeletesSummarised := by
  refine reached.invariant ?_ ?_
  · rintro s ⟨start, n, clock, le, two, rfl⟩
    refine ⟨.of_loaded (loaded_new start) (by omega) le, ?_, ?_⟩
    · intro v inf got
      cases got
    · intro record mem
      cases mem
  · rintro s s' _ summ ⟨op, orderly, run⟩
    exact summ.step orderly (.of_step run)

/-! ## Selecting and fetching agree -/

/-- Where the summaries are right, `GetSelVector` selects the rows that `Fetch`
finds. -/
theorem RowVersionManager.rows_eq_filter_fetch {n : Nat} (same : m.SameInserted n)
    (any : ∀ v inf, m.vectorInfo v = some (.vector inf) → inf.AnyDeleted)
    (tx : TransactionData) (appended : max ≤ rowsInVector n vectorIdx) :
    (m.getSelVector tx vectorIdx max).rows max = (range max).filter fun i =>
        m.fetch tx (vectorIdx * standardVectorSize + i) := by
  have fetched (i : Nat) (mem : i ∈ range max) : m.fetch tx (vectorIdx * standardVectorSize + i) =
        (m.vectorInfo vectorIdx).elim true fun inf => inf.fetch tx i := by
    have hiv : i < standardVectorSize :=
      (lt_rowsInVector.mp (Nat.lt_of_lt_of_le (mem_range.mp mem) appended)).1
    cases cur : m.vectorInfo vectorIdx <;>
      simp [fetch, vector_row_div hiv, cur, Option.elim_none, Option.elim_some]
  rw [filter_congr fetched]
  unfold getSelVector
  cases cur : m.vectorInfo vectorIdx with
  | none =>
    simp only [selResult_rows_full]
    exact (filter_eq_self.mpr fun _ _ => rfl).symm
  | some inf =>
    cases inf with
    | constant inf => exact inf.rows_templatedGetSelVector tx max
    | vector inf =>
      exact rows_templatedGetSelVector (same vectorIdx inf cur) (any vectorIdx inf cur) tx appended

/-- In every orderly run, `GetSelVector` selects, in ascending order, the rows
that `Fetch` finds visible, for every transaction and every prefix of the rows
a vector has. -/
theorem VersionState.rows_getSelVector {s : VersionState}
    (reached : (versionMachine.guarded fun s op => op.Orderly s).Reachable s)
    (transaction : TransactionData) {vectorIdx maxCount : Nat}
    (appended : maxCount ≤ rowsInVector s.group.count vectorIdx) :
    (s.group.versionInfo.getSelVector transaction vectorIdx maxCount).rows maxCount =
      (range maxCount).filter fun i =>
        s.group.versionInfo.fetch transaction (vectorIdx * standardVectorSize + i) := by
  have summarised := deletesSummarised_of_reachable reached
  exact rows_eq_filter_fetch summarised.sound.sameInserted
    summarised.anyDeleted transaction appended

theorem RowVersionManager.deletedAt_vector {v i : Nat} (hiv : i < standardVectorSize) :
    m.deletedAt (v * standardVectorSize + i) = deletedOf (m.vectorInfo v) i := by
  rw [deletedAt, vector_row_div hiv, vector_row_mod hiv]

/-- The loop over the vectors counts the rows with a committed delete. -/
theorem RowVersionManager.getCommittedDeletedCount_eq {count : Nat} (le : count ≤ rowGroupSize)
    (any : ∀ v info, m.vectorInfo v = some (.vector info) → info.AnyDeleted) :
    m.getCommittedDeletedCount count =
      (range count).countP fun row => m.deletedAt row < transactionIdStart := by
  have kept := transactionIdStart_lt_notDeletedId.not_gt
  rw [getCommittedDeletedCount]
  conv_rhs => rw [← Nat.min_eq_left le, ← rowGroupVectorCount_mul]
  induction rowGroupVectorCount with
  | zero => simp
  | succ v ih =>
    have grows : min count ((v + 1) * standardVectorSize) = min count (v * standardVectorSize) +
        min standardVectorSize (count - v * standardVectorSize) := by
      rw [Nat.succ_mul]
      omega
    rw [range_succ, map_append, sum_append, ih, grows, range_add, countP_append, map_singleton,
      sum_singleton, countP_map]
    congr 1
    have inside (i) (mem : i ∈ range (min standardVectorSize (count - v * standardVectorSize))) :
        m.deletedAt (min count (v * standardVectorSize) + i) = deletedOf (m.vectorInfo v) i := by
      have := mem_range.mp mem
      rw [Nat.min_eq_right (by omega), deletedAt_vector (by omega)]
    rw [countP_congr fun i mem => by rw [Function.comp, inside i mem]]
    rcases cur : m.vectorInfo v with _ | inf | inf
    · simp [deletedOf, kept]
    · by_cases gone : inf.deleteId < transactionIdStart <;>
        simp [deletedOf, ChunkInfo.getCommittedDeletedCount,
          ChunkConstantInfo.getCommittedDeletedCount, gone]
    · change inf.getCommittedDeletedCount _ = countP (fun i => inf.deleted i < transactionIdStart) _
      rw [countP_eq_length_filter, ChunkVectorInfo.getCommittedDeletedCount]
      cases flag : inf.anyDeleted
      · simp [any v inf cur flag, kept]
      · rfl

/-- In every orderly run, a scan of committed rows selects those that are not deleted or whose
delete is committed from `minStart` on. A row with a pending delete is left out. -/
theorem VersionState.rows_getCommittedSelVector
    (reached : (versionMachine.guarded fun s op => op.Orderly s).Reachable s) (minStart minId : Nat)
    (inVector : max ≤ standardVectorSize) :
    (s.group.versionInfo.getCommittedSelVector minStart minId vectorIdx max).rows max =
      (range max).filter fun i =>
        let id := s.group.versionInfo.deletedAt (vectorIdx * standardVectorSize + i)
        (minStart ≤ id && id < transactionIdStart) || id == notDeletedId := by
  change _ = (range max).filter fun i => committedVersionOperator.useDeletedVersion minStart minId _
  have any := (deletesSummarised_of_reachable reached).anyDeleted vectorIdx
  have kept : committedVersionOperator.useDeletedVersion minStart minId notDeletedId = true := by
    simp [committedVersionOperator]
  rw [filter_congr fun i mem => by rw [deletedAt_vector ((mem_range.mp mem).trans_le inVector)],
    getCommittedSelVector]
  rcases cur : s.group.versionInfo.vectorInfo vectorIdx with _ | inf | inf
  · simp [selResult_rows_full, deletedOf, kept]
  · change (ChunkConstantInfo.templatedGetSelVector _ inf _ _ _).rows max = _
    unfold ChunkConstantInfo.templatedGetSelVector
    split_ifs with keep
    · rw [selResult_rows_full]
      exact (filter_eq_self.mpr fun _ _ => keep).symm
    · rw [selResult_rows_zero]
      exact (filter_eq_nil_iff.mpr fun _ _ => keep).symm
  · change (templatedGetSelVector _ inf _ _ _).rows max = _
    have always : committedVersionOperator.useInsertedVersion minStart minId = fun _ => true := rfl
    unfold templatedGetSelVector
    rw [always]
    cases flag : inf.anyDeleted
    · have all (i) : committedVersionOperator.useDeletedVersion minStart minId
          (inf.deleted i) = true := any inf cur flag i ▸ kept
      cases inf.sameInsertedId <;> simp [selLoop_rows, selResult_rows_full, deletedOf, all]
    · cases inf.sameInsertedId <;> simp [selLoop_rows, deletedOf]

/-- `TransactionData(0, 0)`, under which bulk data is appended. -/
def bulkData : TransactionData := ⟨0, 0, by decide, .inl rfl, by decide⟩

/-- A row group without rows, after a few transactions have started. -/
def emptyVersionState : VersionState := ⟨⟨0, .new 0⟩, 0, false, [], 10⟩

theorem emptyVersionState_reachable {c : VersionState → VersionOp → Prop} :
    (versionMachine.guarded c).Reachable emptyVersionState :=
  .init ⟨0, 0, 10, by decide, by decide, rfl⟩

/-- Bulk-loaded rows are merged into the table and seen by a transaction that
deletes one of them; the load is reverted, the delete committed, and new rows
are appended in the same place. -/
def revertedUnderDelete : List VersionOp := [.append bulkData 10,
    .deleteRows 0 (nthTransaction 1) [0],
    .revertAppend,
    .commitDelete (DeleteInfo.push 0 [0]) 4,
    .append (nthTransaction 3) 10]

/-- Without the condition the two disagree: all ten rows are selected, the first
of them is not fetched. -/
theorem VersionState.rows_getSelVector_reverted : ∃ s, versionMachine.system.Reachable s ∧
      10 ≤ rowsInVector s.group.count 0 ∧
      (s.group.versionInfo.getSelVector (nthTransaction 3) 0 10).rows 10 ≠
        (range 10).filter fun i => s.group.versionInfo.fetch (nthTransaction 3)
            (0 * standardVectorSize + i) := by
  exact Machine.exists_reachable_of_run _ _ revertedUnderDelete emptyVersionState_reachable
    (by decide)

/-- Two rows are appended and committed, one of them is deleted. -/
theorem VersionState.rows_getSelVector_orderly :
    ∃ s, (versionMachine.guarded fun s op => op.Orderly s).Reachable s ∧
      2 ≤ rowsInVector s.group.count 0 ∧
      (s.group.versionInfo.getSelVector (nthTransaction 3) 0 2).rows 2 =
        (range 2).filter fun i => s.group.versionInfo.fetch (nthTransaction 3)
            (0 * standardVectorSize + i) := by
  obtain ⟨s, reached, appended⟩ :=
    versionMachine.exists_reachable_of_run (P := fun s => 2 ≤ rowsInVector s.group.count 0)
      (fun s op => op.Orderly s)
      [.append (nthTransaction 0) 2, .commitAppend 3, .settleAppend,
        .deleteRows 0 (nthTransaction 1) [1]]
      emptyVersionState_reachable (by decide)
  exact ⟨s, reached, appended, VersionState.rows_getSelVector reached _ appended⟩

/-- Of two committed rows the second has a pending delete. -/
theorem VersionState.rows_getCommittedSelVector_pending : ∃ s : VersionState,
    s.group.count = 2 ∧ (s.group.versionInfo.getCommittedSelVector 3 0 0 2).rows 2 = [0] := by
  obtain ⟨s, reached, count, kept, pending⟩ := versionMachine.exists_reachable_of_run
    (P := fun s => s.group.count = 2 ∧ s.group.versionInfo.deletedAt 0 = notDeletedId ∧
      s.group.versionInfo.deletedAt 1 = transactionIdStart + 1) (fun s op => op.Orderly s)
    [.append (nthTransaction 0) 2, .commitAppend 3, .settleAppend,
      .deleteRows 0 (nthTransaction 1) [1]]
    emptyVersionState_reachable (by decide)
  refine ⟨s, count, (VersionState.rows_getCommittedSelVector reached 3 0 (by decide)).trans ?_⟩
  simp [range_succ, kept, pending, transactionIdStart, notDeletedId]

end AccessPath
