import AccessPath.Library.System
import AccessPath.Version.Serialization

/-!
# The life of a row group's version information

The version part of `row_group.cpp`, and the machine whose runs are the
sequences of calls a row version manager receives. A transaction appends rows
at the end of the row group, and then its append is committed or reverted as a
whole. Between these calls the database may write a checkpoint, and it may be
closed and opened again from the last one.
-/

namespace AccessPath

open Library RowVersionManager

variable {info : ChunkVectorInfo} {m : RowVersionManager}
  {clock clock' commitId count fewer fst last rows start v : Nat}

/-! ## Row groups -/

structure RowGroup where
  count : Nat
  versionInfo : RowVersionManager

/-- `RowGroup::AppendVersionInfo`. An exception leaves `count` as it was. -/
def RowGroup.appendVersionInfo (group : RowGroup) (transactionId count : Nat) :
    RowGroup × Except String Unit :=
  let rowGroupStart := group.count
  let rowGroupEnd :=
    if rowGroupSize < rowGroupStart + count then rowGroupSize else rowGroupStart + count
  let result := group.versionInfo.appendVersionInfo transactionId rowGroupStart rowGroupEnd
  match result.2 with
  | .ok () => (⟨rowGroupEnd, result.1⟩, .ok ())
  | .error message => ({ group with versionInfo := result.1 }, .error message)

def RowGroup.commitAppend (group : RowGroup) (commitId rowGroupStart count : Nat) :
    RowGroup × Except String Unit :=
  let result := group.versionInfo.commitAppend commitId rowGroupStart count
  ({ group with versionInfo := result.1 }, result.2)

def RowGroup.revertAppend (group : RowGroup) (rowGroupStart : Nat) : RowGroup :=
  ⟨min rowGroupStart group.count, group.versionInfo.revertAppend rowGroupStart⟩

def RowGroup.getCommittedRowCount (group : RowGroup) : Nat :=
  group.count - group.versionInfo.getCommittedDeletedCount group.count

/-! ## Runs -/

/-- A row group with what its callers hold about it: the append in progress, the delete records in
undo buffers, and the counter that start times and commit identifiers are drawn from. -/
structure VersionState where
  group : RowGroup
  appendStart : Nat
  appendCommitted : Bool
  records : List DeleteInfo
  clock : Nat

/-- The calls. `append` is `AppendVersionInfo` under a transaction, `settleAppend`
ends the append in progress, `tick` draws a number from the counter. -/
inductive VersionOp where
  | tick
  | append (transaction : TransactionData) (count : Nat)
  | commitAppend (commitId : Nat)
  | revertAppend
  | settleAppend
  | deleteRows (vectorIdx : Nat) (transaction : TransactionData) (rows : List Nat)
  | commitDelete (record : DeleteInfo) (commitId : Nat)
  | checkpoint
  | reload

variable {op : VersionOp} {s s' : VersionState}

/-- Every row was inserted by a committed transaction. -/
def VersionState.AllInsertsCommitted (s : VersionState) : Prop :=
  ∀ row < s.group.count, s.group.versionInfo.insertedAt row < transactionIdStart

instance (s : VersionState) : Decidable s.AllInsertsCommitted :=
  inferInstanceAs (Decidable (∀ row < s.group.count, _))

/-- What a delete that went through leaves in the undo buffer; an empty delete
leaves nothing. -/
def pushDelete (records : List DeleteInfo) (vectorIdx : Nat) :
    Except String (List Nat) → List DeleteInfo
  | .ok [] => records
  | .ok (row :: rows) => DeleteInfo.push vectorIdx (row :: rows) :: records
  | .error _ => records

/-- One call. The guards are what callers see to: an append is made under an
identifier that no row before it carries; deletes name rows that are there;
only recorded deletes are committed or rolled back; a checkpoint is taken, and
the database closed, with no insert uncommitted. -/
def VersionState.step (s : VersionState) : VersionOp → Option VersionState
  | .tick => some { s with clock := s.clock + 1 }
  | .append transaction count =>
    if 0 < count ∧ s.appendCommitted = false ∧ ∀ row < s.appendStart,
          s.group.versionInfo.insertedAt row ≠ transaction.transactionId then
      some { s with group := (s.group.appendVersionInfo transaction.transactionId count).1 }
    else none
  | .commitAppend commitId =>
    if commitId < s.clock ∧ s.appendCommitted = false then
      some { s with
        group := (s.group.commitAppend commitId s.appendStart (s.group.count - s.appendStart)).1
        appendCommitted := true }
    else none
  | .revertAppend =>
    some { s with
      group := s.group.revertAppend s.appendStart
      appendCommitted := false }
  | .settleAppend =>
    some { s with
      appendStart := s.group.count
      appendCommitted := false }
  | .deleteRows vectorIdx transaction rows =>
    if ∀ row ∈ rows, row < rowsInVector s.group.count vectorIdx then
      let result := s.group.versionInfo.deleteRows vectorIdx transaction.transactionId rows
      some { s with
        group := { s.group with versionInfo := result.1 }
        records := pushDelete s.records vectorIdx result.2 }
    else none
  | .commitDelete record commitId =>
    if record ∈ s.records ∧ commitId ≤ notDeletedId ∧
        (commitId < s.clock ∨ transactionIdStart ≤ commitId) then
      some { s with
        group := { s.group with
          versionInfo := s.group.versionInfo.commitDelete record.vectorIdx commitId record }
        records := if commitId = notDeletedId then s.records.erase record else s.records }
    else none
  | .checkpoint =>
    if s.AllInsertsCommitted then
      some { s with group := { s.group with versionInfo := s.group.versionInfo.checkpoint.1 } }
    else none
  | .reload =>
    if s.AllInsertsCommitted then
      match deserialize s.group.versionInfo.checkpoint.2
          s.group.versionInfo.start with
      | .error _ => none
      | .ok loaded =>
        some { s with
          group := { s.group with
            versionInfo := loaded.getD (.new s.group.versionInfo.start) }
          appendStart := s.group.count
          appendCommitted := false
          records := [] }
    else none

/-- A row group starts out with any number of stored rows that all transactions
see; the manager's counter starts at two. -/
def versionMachine : Machine VersionState VersionOp where
  init := fun s => ∃ start count clock, count ≤ rowGroupSize ∧ 2 ≤ clock ∧
    s = ⟨⟨count, .new start⟩, count, false, [], clock⟩
  step := VersionState.step

/-- The calls as a relation, one rule for each, with the guard that let it
through. -/
inductive VersionState.Step (s : VersionState) : VersionOp → VersionState → Prop
  | tick : Step s .tick { s with clock := s.clock + 1 }
  | append {transaction : TransactionData} {count : Nat} :
    0 < count → s.appendCommitted = false →
    (∀ row < s.appendStart, s.group.versionInfo.insertedAt row ≠ transaction.transactionId) →
    Step s (.append transaction count)
      { s with group := (s.group.appendVersionInfo transaction.transactionId count).1 }
  | commitAppend {commitId : Nat} :
    commitId < s.clock → s.appendCommitted = false →
    Step s (.commitAppend commitId) { s with
        group := (s.group.commitAppend commitId s.appendStart (s.group.count - s.appendStart)).1
        appendCommitted := true }
  | revertAppend :
    Step s .revertAppend { s with
        group := s.group.revertAppend s.appendStart
        appendCommitted := false }
  | settleAppend :
    Step s .settleAppend { s with
        appendStart := s.group.count
        appendCommitted := false }
  | deleteRows {vectorIdx : Nat} {transaction : TransactionData} {rows : List Nat} :
    (∀ row ∈ rows, row < rowsInVector s.group.count vectorIdx) →
    Step s (.deleteRows vectorIdx transaction rows) { s with
        group := { s.group with
          versionInfo :=
            (s.group.versionInfo.deleteRows vectorIdx transaction.transactionId rows).1 }
        records := pushDelete s.records vectorIdx
          (s.group.versionInfo.deleteRows vectorIdx transaction.transactionId rows).2 }
  | commitDelete {record : DeleteInfo} {commitId : Nat} :
    record ∈ s.records → commitId ≤ notDeletedId →
    (commitId < s.clock ∨ transactionIdStart ≤ commitId) →
    Step s (.commitDelete record commitId) { s with
        group := { s.group with
          versionInfo := s.group.versionInfo.commitDelete record.vectorIdx commitId record }
        records := if commitId = notDeletedId then s.records.erase record else s.records }
  | checkpoint :
    s.AllInsertsCommitted →
    Step s .checkpoint
      { s with group := { s.group with versionInfo := s.group.versionInfo.checkpoint.1 } }
  | reload {loaded : Option RowVersionManager} :
    s.AllInsertsCommitted →
    deserialize s.group.versionInfo.checkpoint.2 s.group.versionInfo.start = .ok loaded →
    Step s .reload { s with
        group := { s.group with
          versionInfo := loaded.getD (.new s.group.versionInfo.start) }
        appendStart := s.group.count
        appendCommitted := false
        records := [] }

theorem VersionState.Step.of_step (run : s.step op = some s') : s.Step op s' := by
  cases op with
  | tick =>
    cases run
    exact .tick
  | append tx count =>
    simp only [VersionState.step] at run
    split at run
    · rename_i guard
      cases run
      exact .append guard.1 guard.2.1 guard.2.2
    · cases run
  | commitAppend commitId =>
    simp only [VersionState.step] at run
    split at run
    · rename_i guard
      cases run
      exact .commitAppend guard.1 guard.2
    · cases run
  | revertAppend =>
    cases run
    exact .revertAppend
  | settleAppend =>
    cases run
    exact .settleAppend
  | deleteRows v tx rows =>
    simp only [VersionState.step] at run
    split at run
    · rename_i guard
      cases run
      exact .deleteRows guard
    · cases run
  | commitDelete rc commitId =>
    simp only [VersionState.step] at run
    split at run
    · rename_i guard
      cases run
      exact .commitDelete guard.1 guard.2.1 guard.2.2
    · cases run
  | checkpoint =>
    simp only [VersionState.step] at run
    split at run
    · rename_i guard
      cases run
      exact .checkpoint guard
    · cases run
  | reload =>
    simp only [VersionState.step] at run
    split at run
    · rename_i guard
      split at run
      · cases run
      · rename_i loaded read
        cases run
        exact .reload guard read
    · cases run

/-! ## The summary of inserts -/

/-- As long as `same_inserted_id` is set, `insert_id` is the insert identifier of
each of the first `rows` rows. -/
def ChunkVectorInfo.SameInserted (info : ChunkVectorInfo) (rows : Nat) : Prop :=
  info.sameInsertedId = true → ∀ i < rows, info.inserted i = info.insertId

theorem ChunkVectorInfo.SameInserted.mono (eq : info.SameInserted rows) (le : fewer ≤ rows) :
    info.SameInserted fewer :=
  fun flag i lt => eq flag i (Nat.lt_of_lt_of_le lt le)

theorem ChunkVectorInfo.SameInserted.append (eq : info.SameInserted fst) (last cid : Nat) :
    (info.append fst last cid).SameInserted last := by
  unfold ChunkVectorInfo.SameInserted ChunkVectorInfo.append stampRange at *
  intro flag i lt
  by_cases zero : fst = 0
  · simp [zero, lt]
  · by_cases other : info.insertId = cid
    · simp only [if_neg zero, other, ne_eq, not_true_eq_false, if_false] at flag ⊢
      by_cases appended : fst ≤ i
      · simp [appended, lt]
      · rw [if_neg (by omega), eq flag i (by omega), other]
    · simp [zero, other] at flag

/-- Committing an append keeps the summary if the append covers every row, or if
some row it does not cover carries another identifier. -/
theorem ChunkVectorInfo.SameInserted.commitAppend (eq : info.SameInserted rows)
    (apart : ∀ i < rows, ¬ (fst ≤ i ∧ i < last) → ∃ j < rows, info.inserted i ≠ info.inserted j) :
    (info.commitAppend commitId fst last).SameInserted rows := by
  intro flag i lt
  have hcv : fst ≤ i ∧ i < last := by
    by_contra out
    obtain ⟨j, ltj, hne⟩ := apart i lt out
    exact hne ((eq flag i lt).trans (eq flag j ltj).symm)
  have shared : info.sameInsertedId = true := flag
  simp [ChunkVectorInfo.commitAppend, stampRange, hcv, shared]

/-- Every vector info of the manager summarises its inserts rightly, for a row
group of `count` rows. -/
def RowVersionManager.SameInserted (manager : RowVersionManager) (count : Nat) : Prop :=
  ∀ v info, manager.vectorInfo v = some (.vector info) → info.SameInserted (rowsInVector count v)

/-- The loop bounds of a range that begins at the row count are the old and the
new number of rows of the vector. -/
theorem vectorStart_eq_rowsInVector (mem : v ∈ vectorIndexes fst last) (ne : fst < last) :
    vectorStart fst v = rowsInVector fst v ∧ vectorEnd last v = rowsInVector last v := by
  rw [mem_vectorIndexes ne] at mem
  simp only [vectorStart, vectorEnd, rowsInVector]
  refine ⟨?_, ?_⟩
  · split <;> simp only [standardVectorSize] at * <;> omega
  · split <;> simp only [standardVectorSize] at * <;> omega

theorem rowsInVector_untouched {last : Nat} (ne : fst < last)
    (out : v ∉ vectorIndexes fst last) : rowsInVector last v = rowsInVector fst v := by
  rw [mem_vectorIndexes ne] at out
  simp only [rowsInVector, standardVectorSize] at *
  omega

theorem rowsInVector_mono (le : fewer ≤ count) (v : Nat) :
    rowsInVector fewer v ≤ rowsInVector count v := by
  simp only [rowsInVector]
  omega

section

variable {m : RowVersionManager} {tid fst last : Nat}

theorem appendVectorInfo_sameInserted {start v : Nat} {info : ChunkVectorInfo}
    (pre : ∀ old, m.vectorInfo v = some (.vector old) → old.SameInserted (rowsInVector fst v))
    (mem : v ∈ vectorIndexes fst last) (ne : fst < last)
    (ok : appendVectorInfo start tid fst last v (m.vectorInfo v) =
      .ok (.vector info)) : info.SameInserted (rowsInVector last v) := by
  obtain ⟨atStart, atEnd⟩ := vectorStart_eq_rowsInVector mem ne
  unfold appendVectorInfo at ok
  simp only [atStart, atEnd] at ok
  split at ok
  · cases ok
  · cases cur : m.vectorInfo v with
    | none =>
      rw [cur] at ok
      cases ok
      refine ChunkVectorInfo.SameInserted.append ?_ _ _
      exact fun _ _ _ => rfl
    | some old =>
      rw [cur] at ok
      cases old with
      | constant old => cases ok
      | vector old =>
        cases ok
        exact (pre old cur).append _ _

/-- An append keeps the summaries, for the old number of rows in any case and for
the new one if it goes through. -/
theorem RowVersionManager.SameInserted.appendVersionInfo
    (eq : m.SameInserted fst) (tid : Nat) (ne : fst < last) :
    (m.appendVersionInfo tid fst last).1.SameInserted fst ∧
      ((m.appendVersionInfo tid fst last).2 = .ok () →
        (m.appendVersionInfo tid fst last).1.SameInserted last) := by
  have nd := nodup_vectorIndexes fst last
  have le : fst ≤ last := Nat.le_of_lt ne
  refine ⟨fun v info got => ?_, fun ok v info got => ?_⟩
  · rcases changeVectors_vectorInfo (appendVectorInfo m.start tid fst last)
      { m with hasChanges := true } nd v with ⟨kept, -⟩ | ⟨ht, new, done, set⟩
    · exact eq v info (kept.symm.trans got)
    · have new_eq : new = .vector info := Option.some.inj (set.symm.trans got)
      subst new_eq
      exact (appendVectorInfo_sameInserted (eq v) ht ne done).mono (rowsInVector_mono le v)
  · by_cases ht : v ∈ vectorIndexes fst last
    · have ran : changeVectors (appendVectorInfo m.start tid fst last)
          { m with hasChanges := true } (vectorIndexes fst last) =
            ((m.appendVersionInfo tid fst last).1, .ok ()) := Prod.ext rfl ok
      obtain ⟨new, done, set⟩ := changeVectors_ok nd ran ht
      have new_eq : new = .vector info := Option.some.inj (set.symm.trans got)
      subst new_eq
      exact appendVectorInfo_sameInserted (eq v) ht ne done
    · rw [rowsInVector_untouched ne ht]
      rcases changeVectors_vectorInfo (appendVectorInfo m.start tid fst last)
        { m with hasChanges := true } nd v with ⟨kept, -⟩ | ⟨absurd, _⟩
      · exact eq v info (kept.symm.trans got)
      · exact (ht absurd).elim

end

namespace RowVersionManager.SameInserted

/-- Committing an append keeps the summaries when no row before it carries the
identifier of one of its rows. -/
theorem commitAppend {m : RowVersionManager}
    {fst n cid : Nat} (eq : m.SameInserted n) (le : fst ≤ n)
    (fresh : ∀ r, fst ≤ r → r < n → ∀ r' < fst, m.insertedAt r' ≠ m.insertedAt r) :
    (m.commitAppend cid fst (n - fst)).1.SameInserted n := by
  unfold RowVersionManager.commitAppend
  split_ifs with pos
  · exact eq
  · have ne : fst < n := by omega
    have range : fst + (n - fst) = n := by omega
    rw [range]
    intro v info got
    rcases changeVectors_vectorInfo (commitVectorInfo cid fst n) m
      (nodup_vectorIndexes fst n) v with ⟨kept, -⟩ | ⟨ht, new, done, set⟩
    · exact eq v info (kept.symm.trans got)
    · have new_eq : new = .vector info := Option.some.inj (set.symm.trans got)
      subst new_eq
      cases cur : m.vectorInfo v with
      | none =>
        rw [cur] at done
        cases done
      | some old =>
        rw [cur] at done
        cases old with
        | constant old => cases done
        | vector old =>
          cases done
          refine (eq v old cur).commitAppend fun i lt out => ?_
          -- a row of the vector before the append, set against one of the append
          obtain ⟨hiv, inGroup⟩ := lt_rowsInVector.mp lt
          rw [vectorStart_le_iff hiv ht ne] at out
          have touches := (mem_vectorIndexes ne).mp ht
          obtain ⟨j, ltj, lower, upper⟩ : ∃ j, j < standardVectorSize ∧
              fst ≤ v * standardVectorSize + j ∧ v * standardVectorSize + j < n := by
            refine ⟨fst - v * standardVectorSize, ?_, ?_, ?_⟩ <;>
              simp only [standardVectorSize] at * <;> omega
          refine ⟨j, lt_rowsInVector.mpr ⟨ltj, upper⟩, ?_⟩
          have hne := fresh _ lower upper (v * standardVectorSize + i) (by omega)
          simp only [insertedAt, vector_row_div hiv,
            vector_row_mod hiv, vector_row_div ltj, vector_row_mod ltj, cur] at hne
          exact hne

/-- Deletes do not concern the summary of inserts. -/
theorem getVectorInfo (eq : m.SameInserted count) (v : Nat) :
    (m.getVectorInfo v).SameInserted (rowsInVector count v) := by
  unfold RowVersionManager.getVectorInfo
  cases cur : m.vectorInfo v with
  | none => exact fun _ _ _ => rfl
  | some info =>
    cases info with
    | constant info => exact fun _ _ _ => rfl
    | vector info => exact eq v info cur

theorem deleteRows (eq : m.SameInserted count) (vi tid : Nat)
    (rows : List Nat) : (m.deleteRows vi tid rows).1.SameInserted count := by
  intro v info got
  rw [vectorInfo_deleteRows] at got
  split_ifs at got with here
  · cases got
    rw [here, ChunkVectorInfo.delete_inserted]
    exact eq.getVectorInfo vi
  · exact eq v info got

theorem commitDelete (eq : m.SameInserted count) (vi cid : Nat) (rc : DeleteInfo) :
    (m.commitDelete vi cid rc).SameInserted count := by
  intro v info got
  rw [vectorInfo_commitDelete] at got
  split_ifs at got with here
  · cases got
    rw [here]
    exact eq.getVectorInfo vi
  · exact eq v info got

theorem revertAppend (eq : m.SameInserted count) (le : fewer ≤ count) (lo : Nat) :
    (m.revertAppend lo).SameInserted fewer := by
  intro v info got
  rcases m.vectorInfo_revertAppend_cases lo v with hdr | kept
  · rw [hdr] at got
    cases got
  · exact (eq v info (kept.symm.trans got)).mono (rowsInVector_mono le v)

end RowVersionManager.SameInserted

/-! ## The identifiers in use -/

/-- An identifier that has been handed out: drawn from the counter of start times
and commits, or a transaction identifier. -/
def Drawn (clock id : Nat) : Prop := id < clock ∨ transactionIdStart ≤ id

theorem Drawn.mono {id : Nat} (drew : Drawn clock id) (le : clock ≤ clock') : Drawn clock' id :=
  drew.imp_left fun lt => Nat.lt_of_lt_of_le lt le

theorem drawn_notDeletedId (clock : Nat) : Drawn clock notDeletedId := .inr (by decide)

theorem TransactionData.drawn (tx : TransactionData) (pos : 0 < clock) :
    Drawn clock tx.transactionId := by
  rcases tx.id_range with zero | range
  · exact .inl (zero ▸ pos)
  · exact .inr range

namespace RowVersionManager

structure Identifiers (manager : RowVersionManager) (clock : Nat) : Prop where
  inserted : ∀ row, Drawn clock (manager.insertedAt row)
  deleted : ∀ row, Drawn clock (manager.deletedAt row)
  deleted_le : ∀ row, manager.deletedAt row ≤ notDeletedId

theorem Identifiers.mono (ids : m.Identifiers clock) (le : clock ≤ clock') : m.Identifiers clock' :=
  ⟨fun r => (ids.inserted r).mono le, fun r => (ids.deleted r).mono le, ids.deleted_le⟩

/-- The one rule for all operations: each row keeps its identifiers, or gets the
one that the operation writes, or loses its delete identifier. -/
theorem Identifiers.of_changed {m m' : RowVersionManager}
    {clock deleteId : Nat} (ids : m.Identifiers clock) (insertId : Nat)
    (insertDrawn : Drawn clock insertId) (deleteDrawn : Drawn clock deleteId)
    (deleteLe : deleteId ≤ notDeletedId)
    (inserted : ∀ r, m'.insertedAt r = m.insertedAt r ∨ m'.insertedAt r = insertId)
    (deleted : ∀ r, m'.deletedAt r = m.deletedAt r ∨
      m'.deletedAt r = notDeletedId ∨ m'.deletedAt r = deleteId) :
    m'.Identifiers clock := by
  refine ⟨fun r => ?_, fun r => ?_, fun r => ?_⟩
  · rcases inserted r with eq | new
    · rw [eq]
      exact ids.inserted r
    · rw [new]
      exact insertDrawn
  · rcases deleted r with eq | cleared | new
    · rw [eq]
      exact ids.deleted r
    · rw [cleared]
      exact drawn_notDeletedId clock
    · rw [new]
      exact deleteDrawn
  · rcases deleted r with eq | cleared | new
    · rw [eq]
      exact ids.deleted_le r
    · exact cleared.le
    · rw [new]
      exact deleteLe

section

variable {m : RowVersionManager} (loaded : ∀ v info, m.vectorInfo v = some info → info.Loaded)
include loaded

theorem insertedAt_of_loaded (r : Nat) : m.insertedAt r = 0 := by
  unfold insertedAt
  cases cur : m.vectorInfo (r / standardVectorSize) with
  | none => rfl
  | some info =>
    have origin := loaded _ _ cur
    cases info with
    | constant info => exact origin.1
    | vector info =>
      obtain ⟨start, mask, rfl⟩ := origin
      rfl

theorem deletedAt_of_loaded (r : Nat) : m.deletedAt r = notDeletedId ∨ m.deletedAt r = 0 := by
  unfold deletedAt
  cases cur : m.vectorInfo (r / standardVectorSize) with
  | none => exact .inl rfl
  | some info =>
    have origin := loaded _ _ cur
    cases info with
    | constant info => exact .inr origin.2
    | vector info =>
      obtain ⟨start, mask, rfl⟩ := origin
      simp only [deletedOf, ChunkVectorInfo.ofMask]
      split
      · exact .inr rfl
      · exact .inl rfl

theorem sameInserted_of_loaded (n : Nat) : m.SameInserted n := by
  intro v info got
  obtain ⟨start, mask, rfl⟩ := loaded _ _ got
  exact fun _ _ _ => rfl

theorem identifiers_of_loaded (pos : 0 < clock) : m.Identifiers clock := by
  refine ⟨fun r => ?_, fun r => ?_, fun r => ?_⟩
  · rw [insertedAt_of_loaded loaded]
    exact .inl pos
  · rcases deletedAt_of_loaded loaded r with kept | gone
    · rw [kept]
      exact drawn_notDeletedId clock
    · rw [gone]
      exact .inl pos
  · rcases deletedAt_of_loaded loaded r with kept | gone
    · exact kept.le
    · rw [gone]
      omega

end

theorem loaded_new (start : Nat) :
    ∀ v info, (new start).vectorInfo v = some info → info.Loaded := by
  intro v info got
  cases got

end RowVersionManager

/-! ## What holds in all runs -/

structure VersionState.Sound (s : VersionState) : Prop where
  clock_pos : 0 < s.clock
  count_le : s.group.count ≤ rowGroupSize
  appendStart_le : s.appendStart ≤ s.group.count
  sameInserted : s.group.versionInfo.SameInserted s.group.count
  /-- Until it is committed, the append in progress shares no identifier with the
  rows before it. -/
  fresh : s.appendCommitted = false → ∀ row, s.appendStart ≤ row → row < s.group.count →
    ∀ earlier < s.appendStart,
      s.group.versionInfo.insertedAt earlier ≠ s.group.versionInfo.insertedAt row
  identifiers : s.group.versionInfo.Identifiers s.clock

theorem VersionState.Sound.of_loaded
    (load : ∀ v info, m.vectorInfo v = some info → info.Loaded) (pos : 0 < clock)
    (le : count ≤ rowGroupSize) :
    VersionState.Sound ⟨⟨count, m⟩, count, false, [], clock⟩ where
  clock_pos := pos
  count_le := le
  appendStart_le := Nat.le_refl count
  sameInserted := sameInserted_of_loaded load count
  fresh := by
    intro _ r lower upper
    exact absurd upper (Nat.not_lt.mpr lower)
  identifiers := identifiers_of_loaded load pos

/-- What an append does to the row group: the manager's operation on a range that
begins at the row count, and the new count if that goes through. Only a full
row group gives an empty range. -/
theorem RowGroup.appendVersionInfo_eq (grp : RowGroup) (tid : Nat)
    (pos : 0 < count) (le : grp.count ≤ rowGroupSize) : ∃ last, last ≤ rowGroupSize ∧
      (grp.count < last ∨ (grp.count = rowGroupSize ∧ last = rowGroupSize)) ∧
      (grp.appendVersionInfo tid count).1.versionInfo =
        (grp.versionInfo.appendVersionInfo tid grp.count last).1 ∧
      (((grp.versionInfo.appendVersionInfo tid grp.count last).2 = .ok () ∧
          (grp.appendVersionInfo tid count).1.count = last) ∨
        (grp.appendVersionInfo tid count).1.count = grp.count) := by
  unfold RowGroup.appendVersionInfo
  simp only
  generalize ending : (if rowGroupSize < grp.count + count then rowGroupSize
    else grp.count + count) = last
  have bounds : last ≤ rowGroupSize ∧
      (grp.count < last ∨ (grp.count = rowGroupSize ∧ last = rowGroupSize)) := by
    split at ending <;> omega
  refine ⟨last, bounds.1, bounds.2, ?_⟩
  cases r : (grp.versionInfo.appendVersionInfo tid grp.count last).2 with
  | ok => exact ⟨rfl, .inl ⟨rfl, rfl⟩⟩
  | error message => exact ⟨rfl, .inr rfl⟩

/-- The rows after an append: those from before keep their insert identifier, new
ones carry the transaction's, and no row comes to be deleted. -/
theorem RowGroup.appendVersionInfo_rows (grp : RowGroup) (tid : Nat)
    (pos : 0 < count) (le : grp.count ≤ rowGroupSize) :
    let grp' := (grp.appendVersionInfo tid count).1
    grp.count ≤ grp'.count ∧ (∀ r < grp.count,
        grp'.versionInfo.insertedAt r = grp.versionInfo.insertedAt r) ∧
      (∀ r, grp.count ≤ r → r < grp'.count → grp'.versionInfo.insertedAt r = tid) ∧
      ∀ r, grp'.versionInfo.deletedAt r = grp.versionInfo.deletedAt r ∨
        grp.count ≤ r ∧ grp'.versionInfo.deletedAt r = notDeletedId := by
  obtain ⟨last, upper, range, is, counts⟩ := grp.appendVersionInfo_eq tid pos le
  simp only [is]
  rcases range with ne | ⟨full, ending⟩
  · refine ⟨?_, fun r pre => ?_, fun r lower upper => ?_, fun r => ?_⟩
    · rcases counts with ⟨-, new⟩ | old
      · omega
      · exact old.ge
    · rcases grp.versionInfo.insertedAt_appendVersionInfo tid r ne with eq | ⟨lower, -⟩
      · exact eq
      · omega
    · rcases counts with ⟨ok, new⟩ | old
      · exact insertedAt_appendVersionInfo_ok (Prod.ext rfl ok) lower (new ▸ upper)
      · omega
    · rcases grp.versionInfo.deletedAt_appendVersionInfo tid r ne with eq | ⟨lower, -, cleared⟩
      · exact .inl eq
      · exact .inr ⟨lower, cleared⟩
  · -- a full row group has no vectors left to visit
    rw [ending, ← full] at counts
    have eq := counts.elim (fun new => new.2) id
    rw [full, ending, ← full, eq]
    refine ⟨le_rfl, fun _ _ => ?_, fun r lower upper => absurd upper (Nat.not_lt.mpr lower),
      fun _ => .inl ?_⟩ <;> rw [full] <;> rfl

namespace VersionState.Sound

section

variable {s : VersionState} (sound : s.Sound)
include sound

theorem append {tx : TransactionData} {n : Nat}
    (pos : 0 < n) (pend : s.appendCommitted = false) (free : ∀ r < s.appendStart,
      s.group.versionInfo.insertedAt r ≠ tx.transactionId) : VersionState.Sound
      { s with group := (s.group.appendVersionInfo tx.transactionId n).1 } := by
  obtain ⟨last, upper, range, is, counts⟩ :=
    s.group.appendVersionInfo_eq tx.transactionId pos sound.count_le
  rcases range with ne | ⟨full, ending⟩
  · have started := sound.appendStart_le
    obtain ⟨sameOld, sameNew⟩ := sound.sameInserted.appendVersionInfo tx.transactionId ne
    have hch (r : Nat) := s.group.versionInfo.insertedAt_appendVersionInfo tx.transactionId r ne
    have deleted (r : Nat) := s.group.versionInfo.deletedAt_appendVersionInfo tx.transactionId r ne
    refine ⟨sound.clock_pos, ?_, ?_, ?_, ?_, ?_⟩
    · rcases counts with ⟨_, new⟩ | old
      · exact new.le.trans upper
      · exact old.le.trans sound.count_le
    · rcases counts with ⟨_, new⟩ | old
      · exact new ▸ started.trans ne.le
      · exact old ▸ started
    · simp only [is]
      rcases counts with ⟨ok, new⟩ | old
      · exact new ▸ sameNew ok
      · exact old ▸ sameOld
    · intro _ r lower fit he pre
      simp only [is] at lower fit pre ⊢
      have kept : (s.group.versionInfo.appendVersionInfo tx.transactionId
          s.group.count last).1.insertedAt he = s.group.versionInfo.insertedAt he := by
        rcases hch he with eq | ⟨absurd, _⟩
        · exact eq
        · omega
      rw [kept]
      rcases hch r with eq | ⟨_, _, new⟩
      · by_cases old : r < s.group.count
        · rw [eq]
          exact sound.fresh pend r lower old he pre
        · -- a row past the old count has been written by an append that went through
          rcases counts with ⟨ok, new⟩ | stays
          · have written := insertedAt_appendVersionInfo_ok
              (Prod.ext rfl ok) (show s.group.count ≤ r by omega) (by omega)
            rw [written]
            exact free he pre
          · omega
      · rw [new]
        exact free he pre
    · simp only [is]
      exact sound.identifiers.of_changed _ (tx.drawn sound.clock_pos)
        (drawn_notDeletedId s.clock) (Nat.le_refl _)
        (fun r => (hch r).imp_right fun new => new.2.2)
        (fun r => (deleted r).imp_right fun new => .inl new.2.2)
  · have hut : (s.group.appendVersionInfo tx.transactionId n).1 =
        ⟨s.group.count, { s.group.versionInfo with hasChanges := true }⟩ := by
      rw [full, ending] at is
      rw [ending, ← full] at counts
      have sameCount := counts.elim (fun new => new.2) id
      calc (s.group.appendVersionInfo tx.transactionId n).1
          = ⟨(s.group.appendVersionInfo tx.transactionId n).1.count,
              (s.group.appendVersionInfo tx.transactionId n).1.versionInfo⟩ := rfl
        _ = ⟨s.group.count, { s.group.versionInfo with hasChanges := true }⟩ := by
            rw [sameCount, is]
            rfl
    rw [hut]
    exact ⟨sound.clock_pos, sound.count_le, sound.appendStart_le, sound.sameInserted,
      sound.fresh, ⟨sound.identifiers.inserted, sound.identifiers.deleted,
        sound.identifiers.deleted_le⟩⟩

theorem commitAppend (lt : commitId < s.clock) (pend : s.appendCommitted = false) :
    VersionState.Sound { s with
        group := (s.group.commitAppend commitId s.appendStart (s.group.count - s.appendStart)).1
        appendCommitted := true } where
  clock_pos := sound.clock_pos
  count_le := sound.count_le
  appendStart_le := sound.appendStart_le
  sameInserted := sound.sameInserted.commitAppend sound.appendStart_le (sound.fresh pend)
  fresh := by
    intro flag
    cases flag
  identifiers :=
    sound.identifiers.of_changed _ (.inl lt) (drawn_notDeletedId s.clock) (Nat.le_refl _)
      (fun r => (identifiers_commitAppend r).2)
      (fun r => .inl (identifiers_commitAppend r).1)

theorem revertAppend : VersionState.Sound { s with
        group := s.group.revertAppend s.appendStart
        appendCommitted := false } := by
  have le := sound.appendStart_le
  have count : (s.group.revertAppend s.appendStart).count = s.appendStart := Nat.min_eq_left le
  refine ⟨sound.clock_pos, ?_, ?_, ?_, ?_, ?_⟩
  · exact count.le.trans (le.trans sound.count_le)
  · exact count.ge
  · exact sound.sameInserted.revertAppend (Nat.min_le_right _ _) s.appendStart
  · intro _ r lower upper
    exact absurd (upper.trans_eq count) (Nat.not_lt.mpr lower)
  · refine sound.identifiers.of_changed 0 (.inl sound.clock_pos)
      (drawn_notDeletedId s.clock) (Nat.le_refl _) (fun r => ?_) (fun r => ?_)
    · unfold insertedAt
      rcases s.group.versionInfo.vectorInfo_revertAppend_cases s.appendStart
        (r / standardVectorSize) with hdr | kept
      · exact .inr (by simp only [RowGroup.revertAppend, hdr, insertedOf])
      · exact .inl (by simp only [RowGroup.revertAppend, kept])
    · unfold deletedAt
      rcases s.group.versionInfo.vectorInfo_revertAppend_cases s.appendStart
        (r / standardVectorSize) with hdr | kept
      · exact .inr (.inl (by simp only [RowGroup.revertAppend, hdr, deletedOf]))
      · exact .inl (by simp only [RowGroup.revertAppend, kept])

theorem settleAppend : VersionState.Sound { s with
        appendStart := s.group.count
        appendCommitted := false } where
  clock_pos := sound.clock_pos
  count_le := sound.count_le
  appendStart_le := Nat.le_refl _
  sameInserted := sound.sameInserted
  fresh := by
    intro _ r lower upper
    exact absurd upper (Nat.not_lt.mpr lower)
  identifiers := sound.identifiers

theorem deleteRows (v : Nat) (tx : TransactionData)
    (rows : List Nat) (records : List DeleteInfo) : VersionState.Sound { s with
        group := { s.group with
          versionInfo := (s.group.versionInfo.deleteRows v tx.transactionId rows).1 }
        records := records } where
  clock_pos := sound.clock_pos
  count_le := sound.count_le
  appendStart_le := sound.appendStart_le
  sameInserted := sound.sameInserted.deleteRows _ _ _
  fresh := by
    simp only [insertedAt_deleteRows]
    exact sound.fresh
  identifiers := sound.identifiers.of_changed notDeletedId (drawn_notDeletedId s.clock)
      (tx.drawn sound.clock_pos) tx.id_lt.le
      (fun r => .inl (insertedAt_deleteRows _ _ _ _ r))
      (fun r => deletedAt_deleteRows _ _ _ _ r)

theorem commitDelete {rc : DeleteInfo} (le : commitId ≤ notDeletedId)
    (hd : Drawn s.clock commitId) (records : List DeleteInfo) :
    VersionState.Sound { s with
        group := { s.group with
          versionInfo := s.group.versionInfo.commitDelete rc.vectorIdx commitId rc }
        records := records } where
  clock_pos := sound.clock_pos
  count_le := sound.count_le
  appendStart_le := sound.appendStart_le
  sameInserted := sound.sameInserted.commitDelete _ _ _
  fresh := by
    simp only [insertedAt_commitDelete]
    exact sound.fresh
  identifiers := sound.identifiers.of_changed notDeletedId (drawn_notDeletedId s.clock) hd le
      (fun r => .inl (insertedAt_commitDelete _ _ _ _ r))
      (fun r => deletedAt_commitDelete _ _ _ _ r)

end

end VersionState.Sound

theorem RowVersionManager.vectorInfo_checkpoint (m : RowVersionManager) :
    m.checkpoint.1.vectorInfo = m.vectorInfo := by
  unfold checkpoint
  split
  · rfl
  · simp only
    split <;> rfl

theorem RowVersionManager.loaded_getD {pointer : Bytes} {load : Option RowVersionManager}
    (read : deserialize pointer start = .ok load) :
    ∀ v info, (load.getD (.new start)).vectorInfo v = some info → info.Loaded := by
  cases load with
  | none => exact loaded_new start
  | some m => exact (deserialize_spec read).2.2

/-- Every call keeps the invariant. -/
theorem VersionState.Sound.step (ok : s.Sound) (run : s.Step op s') : s'.Sound := by
  cases run with
  | tick =>
    exact ⟨Nat.succ_pos _, ok.count_le, ok.appendStart_le, ok.sameInserted,
      ok.fresh, ok.identifiers.mono (Nat.le_succ _)⟩
  | append pos pend hu => exact ok.append pos pend hu
  | commitAppend drew pend => exact ok.commitAppend drew pend
  | revertAppend => exact ok.revertAppend
  | settleAppend => exact ok.settleAppend
  | deleteRows _ => exact ok.deleteRows _ _ _ _
  | commitDelete _ le drew => exact ok.commitDelete le drew _
  | checkpoint _ =>
    have infos := s.group.versionInfo.vectorInfo_checkpoint
    refine ⟨ok.clock_pos, ok.count_le, ok.appendStart_le, ?_, ?_, ?_⟩
    · intro v info got
      exact ok.sameInserted v info (by rw [← got, infos])
    · simp only [insertedAt, infos]
      exact ok.fresh
    · exact ok.identifiers.of_changed _ (drawn_notDeletedId s.clock)
        (drawn_notDeletedId s.clock) (Nat.le_refl _)
        (fun r => .inl (by simp only [insertedAt, infos]))
        (fun r => .inl (by simp only [deletedAt, infos]))
  | reload _ read =>
    exact VersionState.Sound.of_loaded (loaded_getD read) ok.clock_pos ok.count_le

end AccessPath
