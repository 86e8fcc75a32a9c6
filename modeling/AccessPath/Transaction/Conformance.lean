import AccessPath.Transaction.Database

/-!
# Steps of a database as steps of its ledger

As long as appended rows carry the identifier of their own transaction, each
step of a database is a step of its ledger. `Database.Conforms` says how the
undo buffers and the appends in progress account for the identifiers in the row
groups.
-/

namespace AccessPath

open Library RowVersionManager DuckTransactionManager List Option Function

variable {rc : DeleteInfo} {t : DuckTransaction} {rows : List Nat}
  {cid n id row vi x : Nat} {data tx : TransactionData}
  {grp : VersionState}

namespace VersionState

/-! ## One row group -/

/-- A row group between two steps: its summaries are right, its constant infos are
those of whole appends or of vectors stored as deleted, and rows past the
settled ones are not deleted. -/
structure Regular (group : VersionState) : Prop where
  summarised : group.DeletesSummarised
  constants : ∀ v info, group.group.versionInfo.vectorInfo v = some (.constant info) →
    info.deleteId = notDeletedId ∨ info.deleteId = 0
  unsettled : ∀ row, group.appendStart ≤ row → group.group.versionInfo.deletedAt row = notDeletedId

theorem Opened.regular (opened : grp.Opened) : grp.Regular := by
  obtain ⟨⟨n, m⟩, appendStart, appendCommitted, records, clock⟩ := grp
  simp only [Opened] at opened
  obtain ⟨hld, few, undeleted, rfl, rfl, rfl, rfl⟩ := opened
  refine ⟨⟨.of_loaded hld (by decide) few, ?_, ?_⟩, ?_, undeleted⟩
  · intro v info got
    obtain ⟨lo, mask, rfl⟩ := hld v _ got
    intro flag
    cases flag
  · intro rc got
    cases got
  · intro v info got
    exact .inr (hld v _ got).2

namespace Regular

section

variable {grp grp' : VersionState} (reg : grp.Regular)
include reg

theorem tick : Regular { grp with clock := grp.clock + 1 } := by
  refine ⟨?_, reg.constants, reg.unsettled⟩
  exact reg.summarised.step (by trivial) .tick

theorem settle : Regular { grp with appendStart := grp.group.count, appendCommitted := false } := by
  refine ⟨?_, reg.constants, fun row past => ?_⟩
  · exact reg.summarised.step (by trivial) .settleAppend
  · exact reg.unsettled row (reg.summarised.sound.appendStart_le.trans past)

theorem append (run : grp.Step (.append data n) grp') : grp'.Regular := by
  have summ := reg.summarised.step (by trivial) run
  cases run with
  | append pos pend hu =>
    have few := reg.summarised.sound.count_le
    refine ⟨summ, fun v info got => ?_, fun row past => ?_⟩
    · obtain ⟨last, -, -, is, -⟩ := grp.group.appendVersionInfo_eq data.transactionId pos few
      simp only [is] at got
      unfold appendVersionInfo at got
      rcases changeVectors_vectorInfo
        (appendVectorInfo grp.group.versionInfo.start data.transactionId grp.group.count last)
        { grp.group.versionInfo with hasChanges := true }
        (nodup_vectorIndexes grp.group.count last) v with ⟨kept, -⟩ | ⟨-, new, done, set⟩
      · exact reg.constants v info (kept.symm.trans got)
      · cases set.symm.trans got
        unfold appendVectorInfo at done
        simp only at done
        split at done
        · cases done
          exact .inl rfl
        · split at done <;> cases done
    · obtain ⟨-, -, -, deleted⟩ := grp.group.appendVersionInfo_rows data.transactionId pos few
      rcases deleted row with eq | ⟨-, cleared⟩
      · exact eq.trans (reg.unsettled row past)
      · exact cleared

theorem commitAppend (run : grp.Step (.commitAppend cid) grp') : grp'.Regular := by
  have summ := reg.summarised.step (by trivial) run
  cases run with
  | commitAppend drew pend =>
    refine ⟨summ, fun v info got => ?_, fun row past => ?_⟩
    · rcases grp.group.versionInfo.vectorInfo_commitAppend cid grp.appendStart
        (grp.group.count - grp.appendStart) v with kept | ⟨old, pre, _, _, set⟩
      · exact reg.constants v info (kept.symm.trans got)
      · have new := set.symm.trans got
        cases old with
        | vector old => cases new
        | constant old =>
          cases new
          exact reg.constants v old pre
    · exact (identifiers_commitAppend row).1.trans (reg.unsettled row past)

theorem deletedAt_revertAppend (r : Nat) :
    (grp.group.revertAppend grp.appendStart).versionInfo.deletedAt r =
      grp.group.versionInfo.deletedAt r := by
  by_cases still : r < grp.appendStart
  · simp only [deletedAt, RowGroup.revertAppend, vectorInfo_revertAppend _ still]
  · rw [reg.unsettled r (Nat.le_of_not_lt still)]
    rcases grp.group.versionInfo.vectorInfo_revertAppend_cases grp.appendStart
      (r / standardVectorSize) with hdr | kept
    · simp only [deletedAt, RowGroup.revertAppend, hdr, deletedOf]
    · have pre := reg.unsettled r (Nat.le_of_not_lt still)
      simpa only [deletedAt, RowGroup.revertAppend, kept] using pre

theorem revertAppend (run : grp.Step .revertAppend grp') : grp'.Regular := by
  have summ := reg.summarised.step (by trivial) run
  cases run with
  | revertAppend =>
    refine ⟨summ, fun v info got => ?_, fun row past => ?_⟩
    · rcases grp.group.versionInfo.vectorInfo_revertAppend_cases grp.appendStart v
        with hdr | kept
      · cases hdr.symm.trans got
      · exact reg.constants v info (kept.symm.trans got)
    · exact (reg.deletedAt_revertAppend row).trans (reg.unsettled row past)

/-- A vector in which a transaction has come across a row has no deletes to lose. -/
theorem spreadable_of_met {tx : TransactionData} {v i : Nat} (lt : i < standardVectorSize)
    (pos : 0 < tx.startTime) (proper : tx.transactionId ≠ 0)
    (met : grp.group.versionInfo.fetch tx (v * standardVectorSize + i) = true ∨
      grp.group.versionInfo.deletedAt (v * standardVectorSize + i) =
        tx.transactionId) : grp.group.versionInfo.Spreadable v := by
  intro info got
  refine (reg.constants v info got).resolve_right fun zero => ?_
  have eq : grp.group.versionInfo.deletedAt (v * standardVectorSize + i) = 0 := by
    rw [deletedAt, vector_row_div lt, got]
    exact zero
  have seesZero : useVersion tx 0 = true := useVersion_iff.mpr (.inl pos)
  rcases met with fetched | own
  · rw [fetch_eq _ _ _ seesZero, eq, seesZero] at fetched
    simp at fetched
  · exact proper (own.symm.trans eq)

theorem deleteRows (spreadable : grp.group.versionInfo.Spreadable vi)
    (orderly : ∀ row ∈ rows, vi * standardVectorSize + row < grp.appendStart)
    (run : grp.Step (.deleteRows vi tx rows) grp') : grp'.Regular := by
  have ord : VersionOp.Orderly grp (.deleteRows vi tx rows) := orderly
  have summ := reg.summarised.step ord run
  cases run with
  | deleteRows hp =>
    refine ⟨summ, fun v info got => ?_, fun row past => ?_⟩
    · simp only [vectorInfo_deleteRows] at got
      split at got
      · cases got
      · exact reg.constants v info got
    · rcases spreadable.deletedAt_deleteRows tx.transactionId rows row with eq | ⟨rfl, listed, -⟩
      · exact eq.trans (reg.unsettled row past)
      · have still := orderly _ listed
        rw [row_eq] at still
        exact absurd past (Nat.not_le.mpr still)

theorem spreadable_of_recorded (recorded : rc ∈ grp.records) :
    grp.group.versionInfo.Spreadable rc.vectorIdx := by
  obtain ⟨-, info, got, -⟩ := reg.summarised.recorded rc recorded
  intro o foundOther
  cases got.symm.trans foundOther

theorem commitDelete
    (ok : ∀ row, row / standardVectorSize = rc.vectorIdx ∧ row % standardVectorSize ∈ rc.targets →
      row < grp.appendStart)
    (run : grp.Step (.commitDelete rc cid) grp') : grp'.Regular := by
  have summ := reg.summarised.step (by trivial) run
  cases run with
  | commitDelete recorded le drew =>
    refine ⟨summ, fun v info got => ?_, fun row past => ?_⟩
    · simp only [vectorInfo_commitDelete] at got
      split at got
      · cases got
      · exact reg.constants v info got
    · simp only [(reg.spreadable_of_recorded recorded).deletedAt_commitDelete]
      rw [if_neg fun tgt => absurd past (Nat.not_le.mpr (ok row tgt))]
      exact reg.unsettled row past

end

end Regular

/-! ### What a step does to the rows -/

section

variable {grp grp' : VersionState}

theorem Step.append_fields (run : grp.Step (.append data n) grp') :
    grp'.appendStart = grp.appendStart ∧ grp'.clock = grp.clock ∧
      grp.appendCommitted = false ∧ grp'.appendCommitted = false := by
  cases run with
  | append pos pend hu => exact ⟨rfl, rfl, pend, pend⟩

theorem Step.append_rows (run : grp.Step (.append data n) grp')
    (le : grp.group.count ≤ rowGroupSize) :
    grp.group.count ≤ grp'.group.count ∧ (∀ row < grp.group.count,
        grp'.group.versionInfo.insertedAt row = grp.group.versionInfo.insertedAt row) ∧
      (∀ row, grp.group.count ≤ row → row < grp'.group.count →
        grp'.group.versionInfo.insertedAt row = data.transactionId) ∧
      ∀ row, grp'.group.versionInfo.deletedAt row = grp.group.versionInfo.deletedAt row ∨
        grp.group.count ≤ row ∧ grp'.group.versionInfo.deletedAt row = notDeletedId := by
  cases run with
  | append pos pend hu =>
    exact grp.group.appendVersionInfo_rows data.transactionId pos le

theorem Step.commitAppend_fields (run : grp.Step (.commitAppend cid) grp') :
    grp'.appendStart = grp.appendStart ∧ grp'.clock = grp.clock ∧
      grp'.group.count = grp.group.count ∧
      grp.appendCommitted = false ∧ grp'.appendCommitted = true := by
  cases run with
  | commitAppend drew pend => exact ⟨rfl, rfl, rfl, pend, rfl⟩

theorem Step.commitAppend_rows (run : grp.Step (.commitAppend cid) grp')
    (appended : ∀ r, grp.appendStart ≤ r → r < grp.group.count →
      grp.group.versionInfo.insertedAt r = id)
    (proper : id ≠ 0)
    (ne : ∀ r < grp.appendStart, grp.group.versionInfo.insertedAt r ≠ id) (r : Nat) :
    (r < grp.group.count → grp'.group.versionInfo.insertedAt r =
        if grp.appendStart ≤ r then cid else grp.group.versionInfo.insertedAt r) ∧
      grp'.group.versionInfo.deletedAt r = grp.group.versionInfo.deletedAt r := by
  cases run with
  | commitAppend drew pend =>
    exact ⟨insertedAt_commitAppend appended proper ne, (identifiers_commitAppend r).1⟩

theorem Step.revertAppend_fields (run : grp.Step .revertAppend grp') :
    grp'.appendStart = grp.appendStart ∧ grp'.clock = grp.clock ∧
      grp'.group.count = min grp.appendStart grp.group.count := by
  cases run with
  | revertAppend => exact ⟨rfl, rfl, rfl⟩

theorem Step.revertAppend_rows (run : grp.Step .revertAppend grp')
    (reg : grp.Regular) (r : Nat) : (r < grp.appendStart →
        grp'.group.versionInfo.insertedAt r = grp.group.versionInfo.insertedAt r) ∧
      grp'.group.versionInfo.deletedAt r = grp.group.versionInfo.deletedAt r := by
  cases run with
  | revertAppend =>
    refine ⟨fun still => ?_, reg.deletedAt_revertAppend r⟩
    simp only [insertedAt, RowGroup.revertAppend, vectorInfo_revertAppend _ still]

theorem Step.deleteRows_fields (run : grp.Step (.deleteRows vi tx rows) grp') :
    grp'.appendStart = grp.appendStart ∧ grp'.clock = grp.clock ∧
      grp'.group.count = grp.group.count ∧ grp'.appendCommitted = grp.appendCommitted ∧
      grp'.group.versionInfo = (grp.group.versionInfo.deleteRows vi tx.transactionId rows).1 ∧
      ∀ row ∈ rows, row < rowsInVector grp.group.count vi := by
  cases run with
  | deleteRows hp => exact ⟨rfl, rfl, rfl, rfl, rfl, hp⟩

theorem Step.commitDelete_fields (run : grp.Step (.commitDelete rc cid) grp') :
    grp'.appendStart = grp.appendStart ∧ grp'.clock = grp.clock ∧
      grp'.group.count = grp.group.count ∧ grp'.appendCommitted = grp.appendCommitted ∧
      ∀ row, grp'.group.versionInfo.insertedAt row = grp.group.versionInfo.insertedAt row := by
  cases run with
  | commitDelete recorded le drew =>
    exact ⟨rfl, rfl, rfl, rfl, insertedAt_commitDelete _ _ _ _⟩

theorem Step.commitDelete_rows (run : grp.Step (.commitDelete rc cid) grp')
    (reg : grp.Regular) (r : Nat) :
    grp'.group.versionInfo.deletedAt r =
      if r / standardVectorSize = rc.vectorIdx ∧ r % standardVectorSize ∈ rc.targets
      then cid else grp.group.versionInfo.deletedAt r := by
  cases run with
  | commitDelete recorded le drew =>
    exact (reg.spreadable_of_recorded recorded).deletedAt_commitDelete cid r

end

end VersionState

/-! ## The invariant -/

variable {γ : Type} {s s' : Database γ} {e : TransactionEnd γ} {entry : UndoDelete γ} {g : γ}
  {grp : VersionState}

/-- The inserts of settled rows are committed; other rows belong to the
transaction that is ending. -/
structure Database.InsertsConform (s : Database γ) : Prop where
  settled : ∀ g, ∀ row < (s.groups g).appendStart, s.insertedAt g row < transactionIdStart ∧
    ∀ e ∈ s.header.ending, e.commitTime ≠ some (s.insertedAt g row)
  pending : ∀ g row, (s.groups g).appendStart ≤ row → row < (s.groups g).group.count →
    ∃ e ∈ s.ending, g ∈ e.pieces ∧ s.insertedBy g row = e.ending.id ∧
      if (s.groups g).appendCommitted then
        e.commitId = some (s.insertedAt g row) ∧ e.phase ≠ .working
      else s.insertedAt g row = e.ending.id

/-- Two undo entries without a common row. -/
def UndoDelete.Disjoint (entry other : UndoDelete γ) : Prop :=
  ∀ g row, entry.Covers g row → ¬ other.Covers g row

instance : Std.Symm (@UndoDelete.Disjoint γ) :=
  ⟨fun _ _ apart g row left right => apart g row right left⟩

namespace Database

/-- The rows of an undo entry are settled and carry the entry's identifier, and
every delete of a transaction that may still commit is in its undo buffer. -/
structure DeletesConform (s : Database γ) : Prop where
  undoable : ∀ id, s.undo id ≠ [] → id < notDeletedId ∧ s.header.Active id
  stamped : ∀ id, ∀ entry ∈ s.undo id, ∀ time ∈ entry.stamp,
    ∃ e ∈ s.header.ending, e.id = id ∧ e.phase ≠ .working ∧ e.commitTime = some time
  covered : ∀ id, ∀ entry ∈ s.undo id, ∀ g row, entry.Covers g row →
    row < (s.groups g).appendStart ∧ s.deletedAt g row = entry.stamp.getD id
  disjoint : ∀ id, (s.undo id).Pairwise UndoDelete.Disjoint
  carried : ∀ id g row x, s.header.Active id → id ∉ s.failed →
    s.mark (.delete g row) = some x → s.header.Stands id x → ∃ entry ∈ s.undo id, entry.Covers g row

structure Conforms (s : Database γ) : Prop where
  ledger : s.ledger.Sound transactionIdStart
  nextId : transactionIdStart ≤ s.header.nextId
  clock_pos : 0 < s.header.clock
  started : ∀ id start, s.header.active id start → 0 < start
  clock : ∀ g, (s.groups g).clock = s.header.clock
  regular : ∀ g, (s.groups g).Regular
  inserts : s.InsertsConform
  deletes : s.DeletesConform
  committing : ∀ e ∈ s.header.ending, e.commitTime ≠ none → e.id ∉ s.failed

/-- A database that conforms has moved on to another one that conforms by a step
of its ledger. -/
def Moves (s s' : Database γ) (actor : Option Nat) : Prop :=
  s.ledger.Step transactionIdStart s'.ledger actor ∧ s'.Conforms

theorem ending_header (ends : s.ending = some e) : s.header.ending = some e.ending := by
  rw [header, ends]
  rfl

section

variable (conf : s.Conforms)
include conf

theorem Conforms.active_ending (ends : s.ending = some e) : s.header.Active e.ending.id :=
  conf.ledger.header.ending_active (ending_header ends)

theorem Conforms.large (act : s.header.Active id) : transactionIdStart ≤ id :=
  (conf.ledger.header.uncommitted act).1

theorem Conforms.commitId_lt {t : Nat} (ends : s.ending = some e)
    (got : e.commitId = some t) : t < transactionIdStart :=
  (conf.ledger.header.ending_lt (ending_header ends) got).2.1

/-- No row carries an identifier that has not been drawn yet. -/
theorem Conforms.mark_ne_nextId {k : RowKey γ} (got : s.mark k = some x) : x ≠ s.header.nextId := by
  have explains := conf.ledger.explained k
  have nextId := conf.nextId
  obtain ⟨a, auth, done | ⟨-, pos⟩⟩ := explains.author got
  · have := (conf.ledger.header.committed_lt done).2.1
    omega
  · rcases pos with rfl | ⟨e, ends, -, -, drew⟩
    · exact (explains.known auth).ne
    · have := (conf.ledger.header.ending_lt ends drew).2.1
      omega

/-- A row carries a commit identifier that is being given out only if that has
begun. -/
theorem Conforms.stands_of_mark {k : RowKey γ} (marked : s.mark k = some x) {e : Ending}
    (ends : s.header.ending = some e) (got : e.commitTime = some x) : s.header.Stands e.id x := by
  obtain ⟨id, -, done | ⟨uncommitted, pos⟩⟩ := (conf.ledger.explained k).author marked
  · exact absurd done ((conf.ledger.header.ending_lt ends got).2.2.2 id)
  · rcases pos with rfl | ⟨e', ends', -, phase, -⟩
    · have := (conf.ledger.header.ending_lt ends got).2.1
      have := uncommitted.1
      omega
    · cases ends.symm.trans ends'
      exact .inr ⟨e, ends, rfl, phase, got⟩

/-- With no transaction ending, there are neither pending rows nor replaced
identifiers. -/
theorem Conforms.idle_facts (idle : s.ending = none) :
    (∀ g row, (s.groups g).appendStart ≤ row → ¬ row < (s.groups g).group.count) ∧
      (∀ id, ∀ entry ∈ s.undo id, entry.stamp = none) ∧ s.header.ending = none := by
  have quiet : s.header.ending = none := by
    rw [header, idle]
    rfl
  refine ⟨fun g row past fit => ?_, fun id entry got => ?_, quiet⟩
  · obtain ⟨e, ends, -⟩ := conf.inserts.pending g row past fit
    cases idle.symm.trans ends
  · cases stamp : entry.stamp with
    | none => rfl
    | some t =>
      obtain ⟨e, ends, -⟩ := conf.deletes.stamped id entry got t stamp
      cases quiet.symm.trans ends

end

/-- The deletes of a step that touches no delete identifier and no undo buffer. -/
theorem DeletesConform.of_same (dels : s.DeletesConform) (head : s'.header = s.header)
    (undo : s'.undo = s.undo) (fail : s'.failed = s.failed)
    (starts : ∀ g, (s.groups g).appendStart ≤ (s'.groups g).appendStart)
    (eq : ∀ g r, s'.deletedAt g r = s.deletedAt g r) : s'.DeletesConform := by
  have marks (g : γ) (r : Nat) : s'.mark (.delete g r) = s.mark (.delete g r) := by
    simp only [mark, eq]
  refine ⟨?_, ?_, ?_, ?_, ?_⟩
  · rw [head, undo]
    exact dels.undoable
  · rw [head, undo]
    exact dels.stamped
  · rw [undo]
    intro id entry got g r hc
    obtain ⟨still, hca⟩ := dels.covered id entry got g r hc
    exact ⟨still.trans_le (starts g), (eq g r).trans hca⟩
  · rw [undo]
    exact dels.disjoint
  · rw [head, undo, fail]
    intro id g r x act huf hm
    exact dels.carried id g r x act huf ((marks g r).symm.trans hm)

theorem InsertsConform.of_same (inserts : s.InsertsConform) (head : s'.header = s.header)
    (ending : s'.ending = s.ending) (a : s'.insertedBy = s.insertedBy)
    (starts : ∀ g, (s'.groups g).appendStart = (s.groups g).appendStart)
    (counts : ∀ g, (s'.groups g).group.count = (s.groups g).group.count)
    (flags : ∀ g, (s'.groups g).appendCommitted = (s.groups g).appendCommitted)
    (eq : ∀ g row, s'.insertedAt g row = s.insertedAt g row) : s'.InsertsConform := by
  refine ⟨fun g row fit => ?_, fun g row past fit => ?_⟩
  · rw [eq, head]
    exact inserts.settled g row (starts g ▸ fit)
  · rw [eq, ending, a, flags]
    exact inserts.pending g row (starts g ▸ past) (counts g ▸ fit)

theorem Conforms.of_inserts (conf : s.Conforms) (ledger : s'.ledger.Sound transactionIdStart)
    (header : s'.header = s.header) (undo : s'.undo = s.undo) (eq : s'.failed = s.failed)
    (clock : ∀ g, (s'.groups g).clock = (s.groups g).clock)
    (starts : ∀ g, (s'.groups g).appendStart = (s.groups g).appendStart)
    (reg : ∀ g, (s'.groups g).Regular)
    (deleted : ∀ g row, s'.deletedAt g row = s.deletedAt g row) (inserts : s'.InsertsConform) :
    s'.Conforms where
  ledger := ledger
  nextId := header ▸ conf.nextId
  clock_pos := header ▸ conf.clock_pos
  started := header ▸ conf.started
  clock := fun g => (clock g).trans (header ▸ conf.clock g)
  regular := reg
  inserts := inserts
  deletes := conf.deletes.of_same header undo eq (fun g => (starts g).ge) deleted
  committing := by
    rw [header, eq]
    exact conf.committing

theorem Conforms.of_deletes (conf : s.Conforms) (ledger : s'.ledger.Sound transactionIdStart)
    (eq : s'.header = s.header) (ending : s'.ending = s.ending)
    (author : s'.insertedBy = s.insertedBy) (clock : ∀ g, (s'.groups g).clock = (s.groups g).clock)
    (starts : ∀ g, (s'.groups g).appendStart = (s.groups g).appendStart)
    (counts : ∀ g, (s'.groups g).group.count = (s.groups g).group.count)
    (flags : ∀ g, (s'.groups g).appendCommitted = (s.groups g).appendCommitted)
    (reg : ∀ g, (s'.groups g).Regular)
    (inserted : ∀ g row, s'.insertedAt g row = s.insertedAt g row) (dels : s'.DeletesConform)
    (committing : ∀ e ∈ s'.header.ending, e.commitTime ≠ none → e.id ∉ s'.failed) :
    s'.Conforms where
  ledger := ledger
  nextId := eq ▸ conf.nextId
  clock_pos := eq ▸ conf.clock_pos
  started := eq ▸ conf.started
  clock := fun g => (clock g).trans (eq ▸ conf.clock g)
  regular := reg
  inserts := conf.inserts.of_same eq ending author starts counts flags inserted
  deletes := dels
  committing := committing

/-! ### Keys that a step leaves alone -/

section

variable {r : Nat}

theorem untouched_insert (n : r < (s'.groups g).group.count ↔ r < (s.groups g).group.count)
    (hins : r < (s.groups g).group.count → s'.insertedAt g r = s.insertedAt g r)
    (author : r < (s.groups g).group.count → s'.insertedBy g r = s.insertedBy g r) :
    s.ledger.Untouched s'.ledger (.insert g r) := by
  by_cases fit : r < (s.groups g).group.count
  · refine ⟨?_, .inl ?_⟩
    · simp only [ledger, mark, if_pos fit, if_pos (n.mpr fit), hins fit]
    · simp only [ledger, authors, fit, n.mpr fit, author fit]
  · refine ⟨?_, .inl ?_⟩
    · simp only [ledger, mark, if_neg fit, if_neg (mt n.mp fit)]
    · simp only [ledger, authors, fit, mt n.mp fit, false_and]

theorem untouched_delete (eq : s'.deletedAt g r = s.deletedAt g r)
    (authors : s'.deletedBy g r = s.deletedBy g r) :
    s.ledger.Untouched s'.ledger (.delete g r) := by
  refine ⟨?_, .inl ?_⟩
  · simp only [ledger, mark, eq]
  · simp only [Database.ledger, Database.authors, authors]

end

/-! ## Steps that leave the rows alone -/

section

variable (conf : s.Conforms)
include conf

theorem Conforms.start {m : DuckTransactionManager} (idle : s.ending = none)
    (started : s.manager.startTransaction = .ok (m, t)) : s.Moves (s.draw m) none := by
  obtain ⟨room, clock, nextId, active⟩ := s.manager.startTransaction_ok started
  obtain ⟨-, -, quiet⟩ := conf.idle_facts idle
  have step : s.ledger.Step transactionIdStart (s.draw m).ledger none := by
    refine .start quiet room ?_ fun k => (by cases k <;> exact ⟨rfl, .inl rfl⟩)
    exact header_startTransaction started
  have dels := conf.deletes
  refine ⟨step, conf.ledger.step conf.nextId step, ?_, ?_, ?_, ?_,
    fun g => (conf.regular g).tick, ⟨conf.inserts.settled, conf.inserts.pending⟩,
    ⟨?_, dels.stamped, dels.covered, dels.disjoint, ?_⟩, conf.committing⟩
  · have grown : (s.draw m).header.nextId = s.header.nextId + 1 := nextId
    exact grown ▸ conf.nextId.trans (Nat.le_succ _)
  · have grown : (s.draw m).header.clock = s.header.clock + 1 := clock
    omega
  · rintro id lo ⟨t, got, -, rfl⟩
    simp only [draw, active] at got
    rcases mem_append.mp got with old | new
    · exact conf.started _ _ ⟨t, old, rfl, rfl⟩
    · rw [mem_singleton.mp new]
      exact conf.clock_pos
  · intro g
    have grown : (s.draw m).header.clock = s.header.clock + 1 := clock
    exact grown ▸ congrArg (· + 1) (conf.clock g)
  · intro id ne
    obtain ⟨hsm, lo, t, got, rest⟩ := dels.undoable id ne
    exact ⟨hsm, lo, t, by rw [draw, active]; exact mem_append_left _ got, rest⟩
  · intro id g row x act huf hm pos
    have pre : s.mark (.delete g row) = some x := hm
    obtain ⟨lo, t, got, eq, began⟩ := act
    simp only [draw, active] at got
    rcases mem_append.mp got with old | new
    · exact dels.carried id g row x ⟨lo, t, old, eq, began⟩ huf pre pos
    · -- nothing carries the identifier that has just been drawn
      rw [mem_singleton.mp new] at eq
      rcases pos with own | ⟨e, ends, -⟩
      · exact absurd (own.trans eq.symm) (conf.mark_ne_nextId pre)
      · cases quiet.symm.trans ends

theorem Conforms.beginCommit {tid : Nat} (idle : s.ending = none)
    (got : s.manager.find tid = some t) (out : tid ∉ s.failed)
    (room : s.manager.currentStartTimestamp < transactionIdStart) :
    s.Moves { s.draw s.manager.getCommitTimestamp.1 with
      ending := some ⟨t, some s.manager.getCommitTimestamp.2, .working, []⟩ }
      (some tid) := by
  obtain ⟨active, rfl⟩ := active_of_find got
  obtain ⟨noPending, unstamped, quiet⟩ := conf.idle_facts idle
  have step : s.ledger.Step transactionIdStart (Database.ledger
      { s.draw s.manager.getCommitTimestamp.1 with
        ending := some ⟨t, some s.manager.getCommitTimestamp.2, .working, []⟩ })
      (some t.transactionId) :=
    .commit quiet active room rfl fun k => (by cases k <;> exact ⟨rfl, .inl rfl⟩)
  have dels := conf.deletes
  refine ⟨step, conf.ledger.step conf.nextId step, conf.nextId, Nat.succ_pos _,
    conf.started, ?_, fun g => (conf.regular g).tick, ⟨?_, ?_⟩,
    ⟨dels.undoable, ?_, dels.covered, dels.disjoint, ?_⟩, ?_⟩
  · intro g
    exact congrArg (· + 1) (conf.clock g)
  · intro g row fit
    obtain ⟨hsm, -⟩ := conf.inserts.settled g row fit
    refine ⟨hsm, ?_⟩
    rintro e ends drew
    cases ends
    -- every commit identifier in use is older than the one just drawn
    have eq : s.header.clock = s.insertedAt g row := Option.some.inj drew
    rcases (conf.regular g).summarised.sound.identifiers.inserted row with older | large
    · rw [conf.clock g, eq] at older
      exact Nat.lt_irrefl _ older
    · exact absurd hsm (Nat.not_lt.mpr large)
  · intro g row past fit
    exact absurd fit (noPending g row past)
  · intro id entry got tm stamp
    cases (unstamped id entry got).symm.trans stamp
  · intro id g row x act out hm pos
    refine dels.carried id g row x act out hm (.inl ?_)
    rcases pos with own | ⟨e, ends, -, phase, -⟩
    · exact own
    · cases ends
      exact absurd rfl phase
  · rintro e ends -
    cases ends
    exact out

theorem Conforms.beginRollback {tid : Nat} (idle : s.ending = none)
    (got : s.manager.find tid = some t) :
    s.Moves { s with ending := some ⟨t, none, .undoing, []⟩ } (some tid) := by
  obtain ⟨active, rfl⟩ := active_of_find got
  obtain ⟨noPending, unstamped, quiet⟩ := conf.idle_facts idle
  have step : s.ledger.Step transactionIdStart
      (Database.ledger { s with ending := some ⟨t, none, .undoing, []⟩ })
      (some t.transactionId) :=
    .rollback quiet active rfl fun k => (by cases k <;> exact ⟨rfl, .inl rfl⟩)
  have dels := conf.deletes
  refine ⟨step, conf.ledger.step conf.nextId step, conf.nextId, conf.clock_pos,
    conf.started, conf.clock, conf.regular, ⟨?_, ?_⟩,
    ⟨dels.undoable, ?_, dels.covered, dels.disjoint, ?_⟩, ?_⟩
  · intro g row fit
    refine ⟨(conf.inserts.settled g row fit).1, ?_⟩
    rintro e ends drew
    cases ends
    cases drew
  · intro g row past fit
    exact absurd fit (noPending g row past)
  · intro id entry got tm stamp
    cases (unstamped id entry got).symm.trans stamp
  · intro id g row x act huf hm pos
    refine dels.carried id g row x act huf hm (.inl ?_)
    rcases pos with own | ⟨e, ends, -, -, drew⟩
    · exact own
    · cases ends
      cases drew
  · rintro e ends committing
    cases ends
    exact absurd rfl committing

theorem Conforms.advance {phase : Phase} (ends : s.ending = some e)
    (steady : e.phase ≠ .undoing) (ne : phase ≠ .working) :
    s.Moves { s with ending := some { e with phase := phase } } (some e.ending.id) := by
  have pre := ending_header ends
  have step : s.ledger.Step transactionIdStart
      (Database.ledger { s with ending := some { e with phase := phase } }) (some e.ending.id) :=
    .advance pre steady ne rfl fun k => (by cases k <;> exact ⟨rfl, .inl rfl⟩)
  have dels := conf.deletes
  refine ⟨step, conf.ledger.step conf.nextId step, conf.nextId, conf.clock_pos,
    conf.started, conf.clock, conf.regular, ⟨?_, ?_⟩,
    ⟨dels.undoable, ?_, dels.covered, dels.disjoint, ?_⟩, ?_⟩
  · intro g row fit
    refine ⟨(conf.inserts.settled g row fit).1, ?_⟩
    rintro e' ends'
    cases ends'
    exact (conf.inserts.settled g row fit).2 e.ending pre
  · intro g row past fit
    obtain ⟨e', ends', piece, hins, hca⟩ := conf.inserts.pending g row past fit
    cases ends.symm.trans ends'
    refine ⟨_, rfl, piece, hins, ?_⟩
    split_ifs at hca with flag
    · rw [if_pos flag]
      exact ⟨hca.1, ne⟩
    · rw [if_neg flag]
      exact hca
  · intro id entry got t stamp
    obtain ⟨e', ends', eq, -, drew⟩ := dels.stamped id entry got t stamp
    cases pre.symm.trans ends'
    exact ⟨_, rfl, eq, ne, drew⟩
  · intro id g row x act huf hm pos
    have stays : s.mark (.delete g row) = some x := hm
    refine dels.carried id g row x act huf stays ?_
    rcases pos with own | ⟨e', ends', rfl, -, drew⟩
    · exact .inl own
    · cases ends'
      have given := conf.stands_of_mark stays pre drew
      exact given
  · rintro e' ends'
    cases ends'
    exact conf.committing e.ending pre

end

section

variable [DecidableEq γ]

theorem groups_setGroup (g g' : γ) (grp : VersionState) :
    (s.setGroup g grp).groups g' = if g' = g then grp else s.groups g' := by
  simp only [setGroup, update_apply]

/-- What the new state of a row group keeps is kept by the database. -/
theorem setGroup_field {α : Type} (field : VersionState → α)
    (eq : field grp = field (s.groups g)) (g' : γ) :
    field ((s.setGroup g grp).groups g') = field (s.groups g') := by
  rw [groups_setGroup]
  split_ifs with here
  · exact here ▸ eq
  · rfl

theorem insertedAt_setGroup {g' : γ} {r : Nat} (kept : g' = g →
      grp.group.versionInfo.insertedAt r = (s.groups g).group.versionInfo.insertedAt r) :
    (s.setGroup g grp).insertedAt g' r = s.insertedAt g' r := by
  rw [insertedAt, groups_setGroup]
  split_ifs with here
  · subst here
    exact kept rfl
  · rfl

theorem setGroup_forall {P : VersionState → Prop} (here : P grp)
    (same : ∀ g', P (s.groups g')) (g' : γ) : P ((s.setGroup g grp).groups g') := by
  rw [groups_setGroup]
  split
  · exact here
  · exact same g'

end

namespace Conforms

/-! ## Appends -/

section

variable [DecidableEq γ] (conf : s.Conforms)
include conf

/-- The rows of a settled prefix are kept by a step that keeps them in one row
group. -/
theorem settled_setGroup {g : γ} {grp : VersionState}
    (eq : grp.appendStart = (s.groups g).appendStart) (kept : ∀ row < (s.groups g).appendStart,
      grp.group.versionInfo.insertedAt row = (s.groups g).group.versionInfo.insertedAt row) :
    ∀ g', ∀ row < ((s.setGroup g grp).groups g').appendStart,
      (s.setGroup g grp).insertedAt g' row < transactionIdStart ∧
        ∀ e ∈ s.header.ending, e.commitTime ≠ some ((s.setGroup g grp).insertedAt g' row) := by
  intro g' row fit
  rw [setGroup_field VersionState.appendStart eq] at fit
  rw [insertedAt_setGroup fun here => kept row (here ▸ fit)]
  exact conf.inserts.settled g' row fit

omit conf in
theorem header_append {e : TransactionEnd γ} {g : γ} (ends : s.ending = some e) :
    (s.append e g grp).header = s.header := by
  simp [Database.header, Database.append, Database.setGroup, ends, TransactionEnd.ending]

/-- The appended rows are those of the transaction that commits. -/
theorem inserts_append {e : TransactionEnd γ} {g : γ} (ends : s.ending = some e)
    (own : data.transactionId = e.ending.id) (run : (s.groups g).Step (.append data n) grp) :
    (s.append e g grp).InsertsConform := by
  have ok := (conf.regular g).summarised.sound
  obtain ⟨grows, kept, new, -⟩ := run.append_rows ok.count_le
  obtain ⟨hss, -, pendingBefore, pendingAfter⟩ := run.append_fields
  have hgs (g' : γ) : (s.append e g grp).groups g' = if g' = g then grp else s.groups g' :=
    groups_setGroup g g' grp
  refine ⟨?_, ?_⟩
  · rw [header_append ends]
    exact conf.settled_setGroup hss fun r hse => kept r (hse.trans_le ok.appendStart_le)
  · intro g' r past fit
    refine ⟨_, rfl, ?_⟩
    by_cases isNew : g' = g ∧ (s.groups g).group.count ≤ r ∧ r < grp.group.count
    · obtain ⟨rfl, hl, -⟩ := isNew
      rw [hgs, if_pos rfl] at fit
      refine ⟨mem_cons_self, if_pos ⟨rfl, hl, fit⟩, ?_⟩
      rw [hgs, if_pos rfl, pendingAfter, Database.insertedAt, hgs, if_pos rfl]
      exact (new r hl fit).trans own
    · have author : (s.append e g grp).insertedBy g' r = s.insertedBy g' r := if_neg isNew
      rw [author]
      by_cases here : g' = g
      · subst here
        rw [hgs, if_pos rfl] at past fit
        have he : r < (s.groups g').group.count := by
          simp only [true_and] at isNew
          omega
        obtain ⟨e', ends', piece, hins, hca⟩ := conf.inserts.pending g' r (hss ▸ past) he
        cases ends.symm.trans ends'
        refine ⟨mem_cons_self, hins, ?_⟩
        rw [hgs, if_pos rfl, pendingAfter, Database.insertedAt, hgs, if_pos rfl]
        rw [pendingBefore] at hca
        exact (kept r he).trans hca
      · rw [hgs, if_neg here] at past fit
        obtain ⟨e', ends', piece, hins, hca⟩ := conf.inserts.pending g' r past fit
        cases ends.symm.trans ends'
        refine ⟨mem_cons_of_mem _ piece, hins, ?_⟩
        rw [hgs, if_neg here, Database.insertedAt, hgs, if_neg here]
        exact hca

/-- A transaction that commits appends rows under its own identifier. -/
theorem append {e : TransactionEnd γ} {g : γ} (ends : s.ending = some e)
    (hwk : e.phase = .working) (own : data.transactionId = e.ending.id)
    (run : (s.groups g).Step (.append data n) grp) :
    s.Moves (s.append e g grp) (some e.ending.id) := by
  have pre := ending_header ends
  have reg := (conf.regular g).append run
  have few := (conf.regular g).summarised.sound
  obtain ⟨lo, act⟩ := conf.active_ending ends
  obtain ⟨grows, kept, new, deleted⟩ := run.append_rows few.count_le
  obtain ⟨hss, clockSame, -, -⟩ := run.append_fields
  have hgs (g' : γ) : (s.append e g grp).groups g' = if g' = g then grp else s.groups g' :=
    groups_setGroup g g' grp
  have deletedAt_eq (g' : γ) (r : Nat) : (s.append e g grp).deletedAt g' r = s.deletedAt g' r := by
    refine setGroup_field (fun grp => grp.group.versionInfo.deletedAt r) ?_ g'
    rcases deleted r with eq | ⟨past, cleared⟩
    · exact eq
    · exact cleared.trans ((conf.regular g).unsettled r (few.appendStart_le.trans past)).symm
  have heq : (s.append e g grp).header = s.header := header_append ends
  have step : s.ledger.Step transactionIdStart (s.append e g grp).ledger (some e.ending.id) := by
    refine .mark ⟨act, fun e' ends' _ => ?_⟩ heq fun k => ?_
    · cases pre.symm.trans ends'
      exact hwk
    cases k with
    | insert g' r =>
      by_cases isNew : g' = g ∧ (s.groups g).group.count ≤ r ∧ r < grp.group.count
      · obtain ⟨rfl, past, fit⟩ := isNew
        have author : (s.append e g' grp).insertedBy g' r = e.ending.id := if_pos ⟨rfl, past, fit⟩
        have hm : (s.append e g' grp).insertedAt g' r = e.ending.id := by
          rw [Database.insertedAt, hgs, if_pos rfl, new r past fit, own]
        refine .inr ⟨if_neg (Nat.not_lt.mpr past), ?_, ?_, ?_⟩
        · simp [Database.ledger, Database.mark, hgs, fit, hm]
        · simp [Database.ledger, Database.authors, hgs, fit, author, true_and]
        · rintro id ⟨-, rfl⟩
          exact .inl author
      · refine .inl (untouched_insert ?_ ?_ fun _ => if_neg isNew)
        · rw [hgs]
          split_ifs with here
          · subst here
            simp only [true_and] at isNew
            omega
          · rfl
        · exact fun fit => insertedAt_setGroup fun here => kept r (here ▸ fit)
    | delete g' r =>
      refine .inl ?_
      by_cases isNew : g' = g ∧ (s.groups g).group.count ≤ r ∧ r < grp.group.count
      · obtain ⟨rfl, past, fit⟩ := isNew
        have free := (conf.regular g').unsettled r (few.appendStart_le.trans past)
        have unmarked : s.mark (.delete g' r) = none := if_pos free
        refine ⟨?_, .inr ⟨unmarked, ?_⟩⟩
        · simp only [Database.ledger, Database.mark, deletedAt_eq]
        · simp [Database.ledger, Database.authors, Database.append, past, fit]
      · exact untouched_delete (deletedAt_eq g' r) (if_neg isNew)
  exact ⟨step, conf.of_inserts (conf.ledger.step conf.nextId step) heq rfl rfl
    (setGroup_field VersionState.clock clockSame) (setGroup_field VersionState.appendStart hss)
    (setGroup_forall reg conf.regular) deletedAt_eq (conf.inserts_append ends own run)⟩

/-- The append of a row group is stamped with the commit identifier. -/
theorem commitAppend (ends : s.ending = some e) (stamping : e.phase = .stamping)
    (got : e.commitId = some cid) (run : (s.groups g).Step (.commitAppend cid) grp) :
    s.Moves (s.setGroup g grp) (some e.ending.id) := by
  have pre := ending_header ends
  have reg := (conf.regular g).commitAppend run
  have large := conf.large (conf.active_ending ends)
  obtain ⟨hss, clockSame, countSame, pendingBefore, pendingAfter⟩ := run.commitAppend_fields
  have appended (r : Nat) (past : (s.groups g).appendStart ≤ r)
      (lt : r < (s.groups g).group.count) :
      (s.groups g).group.versionInfo.insertedAt r = e.ending.id := by
    obtain ⟨e', ends', -, -, hca⟩ := conf.inserts.pending g r past lt
    cases ends.symm.trans ends'
    rwa [pendingBefore] at hca
  have rows := run.commitAppend_rows appended
    (by have := transactionIdStart_pos; omega) fun r ok eq => by
      have := (conf.inserts.settled g r ok).1
      have : s.insertedAt g r = e.ending.id := eq
      omega
  have deletedAt_eq (g' : γ) (r : Nat) : (s.setGroup g grp).deletedAt g' r = s.deletedAt g' r :=
    setGroup_field (fun grp => grp.group.versionInfo.deletedAt r) (rows r).2 g'
  have step : s.ledger.Step transactionIdStart (s.setGroup g grp).ledger (some e.ending.id) := by
    refine .stamp pre stamping got rfl fun k => ?_
    cases k with
    | insert g' r =>
      by_cases ht : g' = g ∧ (s.groups g).appendStart ≤ r ∧ r < (s.groups g).group.count
      · obtain ⟨rfl, past, lt⟩ := ht
        have stamped := (rows r).1 lt
        rw [if_pos past] at stamped
        refine .inr ⟨?_, ?_, ?_⟩
        · simp only [Database.ledger, Database.mark, if_pos lt, Database.insertedAt,
            appended r past lt, TransactionEnd.ending]
        · simp only [Database.ledger, Database.mark, groups_setGroup, if_true, countSame,
            if_pos lt, insertedAt, stamped]
        · simp only [Database.ledger, Database.authors, groups_setGroup, if_true, countSame]
          rfl
      · refine .inl (untouched_insert ?_ ?_ fun _ => rfl)
        · rw [setGroup_field (fun grp => grp.group.count) countSame]
        · intro lt
          refine insertedAt_setGroup fun here => ?_
          subst here
          have ok := (rows r).1 lt
          rwa [if_neg fun past => ht ⟨rfl, past, lt⟩] at ok
    | delete g' r => exact .inl (untouched_delete (deletedAt_eq g' r) rfl)
  refine ⟨step, conf.of_inserts (conf.ledger.step conf.nextId step) rfl rfl rfl
    (setGroup_field VersionState.clock clockSame)
    (setGroup_field VersionState.appendStart hss) (setGroup_forall reg conf.regular)
    deletedAt_eq ⟨?_, ?_⟩⟩
  · refine conf.settled_setGroup hss fun r ok => ?_
    have lt := ok.trans_le (conf.regular g).summarised.sound.appendStart_le
    rw [(rows r).1 lt, if_neg (Nat.not_le.mpr ok)]
  · intro g' r past lt
    rw [setGroup_field VersionState.appendStart hss] at past
    rw [setGroup_field (fun grp => grp.group.count) countSame] at lt
    obtain ⟨e', ends', piece, hins, hca⟩ := conf.inserts.pending g' r past lt
    refine ⟨e', ends', piece, hins, ?_⟩
    by_cases here : g' = g
    · subst here
      cases ends.symm.trans ends'
      have stamped := (rows r).1 lt
      rw [if_pos past] at stamped
      rw [insertedAt, groups_setGroup, if_pos rfl, if_pos pendingAfter, stamped, stamping]
      exact ⟨got, fun eq => by cases eq⟩
    · rw [insertedAt, groups_setGroup, if_neg here]
      exact hca

theorem revertAppend (ends : s.ending = some e) (hun : e.phase = .undoing)
    (run : (s.groups g).Step .revertAppend grp) :
    s.Moves (s.setGroup g grp) (some e.ending.id) := by
  have pre := ending_header ends
  have reg := (conf.regular g).revertAppend run
  have le := (conf.regular g).summarised.sound.appendStart_le
  obtain ⟨hss, clockSame, countNew⟩ := run.revertAppend_fields
  rw [min_eq_left le] at countNew
  have rows := run.revertAppend_rows (conf.regular g)
  have deletedAt_eq (g' : γ) (r : Nat) : (s.setGroup g grp).deletedAt g' r = s.deletedAt g' r :=
    setGroup_field (fun grp => grp.group.versionInfo.deletedAt r) (rows r).2 g'
  have step : s.ledger.Step transactionIdStart (s.setGroup g grp).ledger (some e.ending.id) := by
    refine .undo pre hun rfl fun k => ?_
    cases k with
    | insert g' r =>
      by_cases ht : g' = g ∧ (s.groups g).appendStart ≤ r ∧ r < (s.groups g).group.count
      · obtain ⟨rfl, past, fit⟩ := ht
        have gone : ¬ r < grp.group.count := by omega
        refine .inr ⟨⟨s.insertedAt g' r, if_pos fit, ?_⟩, .inl ?_, ?_⟩
        · obtain ⟨e', ends', -, -, hca⟩ := conf.inserts.pending g' r past fit
          cases ends.symm.trans ends'
          split at hca
          · exact .inr ⟨e.ending, pre, rfl, hca.2, hca.1⟩
          · exact .inl hca
        · simp [Database.ledger, Database.mark, groups_setGroup, if_neg gone]
        · rintro id ⟨inside, -⟩
          rw [groups_setGroup, if_pos rfl] at inside
          omega
      · refine .inl (untouched_insert ?_ ?_ fun _ => rfl)
        · rw [groups_setGroup]
          split_ifs with here
          · subst here
            simp only [true_and] at ht
            omega
          · rfl
        · intro fit
          refine insertedAt_setGroup fun here => ?_
          subst here
          simp only [true_and] at ht
          exact (rows r).1 (by omega)
    | delete g' r => exact .inl (untouched_delete (deletedAt_eq g' r) rfl)
  refine ⟨step, conf.of_inserts (conf.ledger.step conf.nextId step) rfl rfl rfl
    (setGroup_field VersionState.clock clockSame)
    (setGroup_field VersionState.appendStart hss) (setGroup_forall reg conf.regular)
    deletedAt_eq ⟨?_, ?_⟩⟩
  · exact conf.settled_setGroup hss fun r ok => (rows r).1 ok
  · intro g' r past fit
    rw [setGroup_field VersionState.appendStart hss] at past
    rw [groups_setGroup] at fit
    split_ifs at fit with here
    · subst here
      omega
    · obtain ⟨e', ends', piece, hins, hca⟩ := conf.inserts.pending g' r past fit
      refine ⟨e', ends', piece, hins, ?_⟩
      rw [insertedAt, groups_setGroup, if_neg here]
      exact hca

end

/-! ## Deletes -/

section

variable (conf : s.Conforms)
include conf

section

variable {id : Nat} (mem : entry ∈ s.undo id)
include mem

/-- The identifier of an undo entry is not the mark of an undeleted row. -/
theorem stamp_ne : entry.stamp.getD id ≠ notDeletedId := by
  cases stamp : entry.stamp with
  | none => exact (conf.deletes.undoable id (ne_nil_of_mem mem)).1.ne
  | some t =>
    obtain ⟨e, ends, -, -, drew⟩ := conf.deletes.stamped id entry mem t stamp
    have few := (conf.ledger.header.ending_lt ends drew).2.1
    exact (few.trans transactionIdStart_lt_notDeletedId).ne

theorem stands_of_entry : s.header.Stands id (entry.stamp.getD id) := by
  cases stamp : entry.stamp with
  | none => exact .inl rfl
  | some t =>
    exact .inr (conf.deletes.stamped id entry mem t stamp)

theorem mark_of_covers (cover : entry.Covers g row) :
    s.mark (.delete g row) = some (entry.stamp.getD id) := by
  have hca := (conf.deletes.covered id entry mem g row cover).2
  simp only [mark, hca, if_neg (conf.stamp_ne mem)]

end

/-- Two undo entries that cover one row are of one transaction. -/
theorem covers_unique {o : Nat} {entry' : UndoDelete γ} (got : entry ∈ s.undo id)
    (mem : entry' ∈ s.undo o) (hc : entry.Covers g row) (hc' : entry'.Covers g row) : id = o := by
  have head := conf.ledger.header
  have eq := Option.some.inj ((conf.mark_of_covers got hc).symm.trans (conf.mark_of_covers mem hc'))
  have act := (conf.deletes.undoable id (ne_nil_of_mem got)).2
  have act' := (conf.deletes.undoable o (ne_nil_of_mem mem)).2
  refine head.stands_unique (head.uncommitted act) (head.uncommitted act')
    (conf.stands_of_entry got) ?_
  rw [eq]
  exact conf.stands_of_entry mem

/-- The undo buffers after a step that changes the deletes of some rows and the undo buffer of
one transaction: its entries are as before or new. -/
theorem deletes_of_changed {undo : List (UndoDelete γ)} {P : UndoDelete γ → Prop} {id x : Nat}
    (own : id < notDeletedId ∧ s.header.Active id) (hd : s'.header = s.header)
    (starts : ∀ g, (s'.groups g).appendStart = (s.groups g).appendStart)
    (hfa : ∀ o ∈ s.failed, o ∈ s'.failed) (set : s'.undo = update s.undo id undo)
    (hch : ∀ g row, s'.deletedAt g row = s.deletedAt g row ∨ s'.deletedAt g row = x ∧
      (x ≠ notDeletedId → id ∉ s'.failed → ∃ o ∈ undo, o.Covers g row))
    (ok : x ≠ notDeletedId → s.header.Stands id x)
    (rest : ∀ i ≠ id, ∀ o ∈ s.undo i, ∀ g row, o.Covers g row →
      s'.deletedAt g row = s.deletedAt g row)
    (origin : ∀ o ∈ undo, P o ∨ o ∈ s.undo id ∧ ∀ g row, o.Covers g row →
      s'.deletedAt g row = s.deletedAt g row)
    (fresh : ∀ o, P o → (∀ t ∈ o.stamp, ∃ e ∈ s.header.ending,
        e.id = id ∧ e.phase ≠ .working ∧ e.commitTime = some t) ∧
      ∀ g row, o.Covers g row →
        row < (s.groups g).appendStart ∧ s'.deletedAt g row = o.stamp.getD id)
    (apart : undo.Pairwise UndoDelete.Disjoint)
    (kept : ∀ o ∈ s.undo id, ∀ g row, o.Covers g row →
      s'.deletedAt g row = s.deletedAt g row → ∃ o ∈ undo, o.Covers g row) :
    s'.DeletesConform := by
  have dels := conf.deletes
  have before {i : Nat} {o : UndoDelete γ} (isIn : o ∈ s'.undo i) : i = id ∧ P o ∨
      o ∈ s.undo i ∧ ∀ g row, o.Covers g row → s'.deletedAt g row = s.deletedAt g row := by
    rw [set, update_apply] at isIn
    split_ifs at isIn with mine
    · subst mine
      exact (origin o isIn).imp_left (⟨rfl, ·⟩)
    · exact .inr ⟨isIn, rest i mine o isIn⟩
  refine ⟨?_, ?_, ?_, ?_, ?_⟩
  · rw [hd]
    intro i ne
    obtain ⟨o, isIn⟩ := exists_mem_of_ne_nil _ ne
    rcases before isIn with ⟨rfl, -⟩ | ⟨old, -⟩
    · exact own
    · exact dels.undoable i (ne_nil_of_mem old)
  · rw [hd]
    intro i o isIn
    rcases before isIn with ⟨rfl, new⟩ | ⟨old, -⟩
    · exact (fresh o new).1
    · exact dels.stamped i o old
  · intro i o isIn g row hc
    rw [starts]
    rcases before isIn with ⟨rfl, new⟩ | ⟨old, same⟩
    · exact (fresh o new).2 g row hc
    · obtain ⟨hse, hca⟩ := dels.covered i o old g row hc
      exact ⟨hse, (same g row hc).trans hca⟩
  · intro i
    rw [set, update_apply]
    split_ifs
    · exact apart
    · exact dels.disjoint i
  · rw [hd, set]
    intro i g row y act huf hm standsAt
    rw [update_apply]
    by_cases same : s'.deletedAt g row = s.deletedAt g row
    · have pre : s.mark (.delete g row) = some y := by
        simpa only [mark, same] using hm
      obtain ⟨o, got, hc⟩ := dels.carried i g row y act (mt (hfa i) huf) pre standsAt
      split_ifs with mine
      · exact kept o (mine ▸ got) g row hc same
      · exact ⟨o, got, hc⟩
    · obtain ⟨eq, found⟩ := (hch g row).resolve_left same
      simp only [mark, eq] at hm
      split_ifs at hm with marked
      cases hm
      have hsd := conf.ledger.header
      have mine : i = id := hsd.stands_unique (hsd.uncommitted act)
        (hsd.uncommitted own.2) standsAt (ok marked)
      rw [if_pos mine]
      exact found marked (mine ▸ huf)

end

end Conforms

section

theorem pushDelete_fields (id : Nat) (g : γ) (v : Nat)
    (outcome : Except String (List Nat)) : (s.pushDelete id g v outcome).groups = s.groups ∧
      (s.pushDelete id g v outcome).ending = s.ending ∧
      (s.pushDelete id g v outcome).insertedBy = s.insertedBy ∧
      (s.pushDelete id g v outcome).deletedBy = s.deletedBy := by
  unfold pushDelete
  split <;> exact ⟨rfl, rfl, rfl, rfl⟩

theorem undo_pushDelete (id : Nat) (g : γ) (v : Nat) (outcome : Except String (List Nat)) :
    (s.pushDelete id g v outcome).undo = update s.undo id (match outcome with
      | .ok (row :: rows) => ⟨g, DeleteInfo.push v (row :: rows), none⟩ :: s.undo id
      | _ => s.undo id) := by
  unfold pushDelete
  split
  · exact (update_eq_self id s.undo).symm
  · rfl
  · exact (update_eq_self id s.undo).symm

theorem mem_failed_pushDelete {id o : Nat} {g : γ} {v : Nat}
    {outcome : Except String (List Nat)} : o ∈ (s.pushDelete id g v outcome).failed ↔
      o ∈ s.failed ∨ o = id ∧ ∃ message, outcome = .error message := by
  unfold pushDelete
  split
  · simp
  · simp
  · simp [or_comm]

theorem header_pushDelete (id : Nat) (g : γ) (v : Nat) (outcome : Except String (List Nat)) :
    (s.pushDelete id g v outcome).header = s.header := by
  unfold pushDelete
  split
  · rfl
  · exact header_modify id (fun _ => rfl) fun _ => rfl
  · rfl

section

variable [DecidableEq γ]

theorem groups_deleteRows : (s.deleteRows tx g vi rows grp).groups = (s.setGroup g grp).groups :=
  (pushDelete_fields _ _ _ _).1

theorem deletedAt_deleteRows_here (r : Nat) :
    (s.deleteRows tx g vi rows grp).deletedAt g r = grp.group.versionInfo.deletedAt r := by
  rw [deletedAt, groups_deleteRows, groups_setGroup, if_pos rfl]

variable (is : grp.group.versionInfo =
  ((s.groups g).group.versionInfo.deleteRows vi tx.transactionId rows).1)
include is

theorem insertedAt_deleteRows (g' : γ) (r : Nat) :
    (s.deleteRows tx g vi rows grp).insertedAt g' r = s.insertedAt g' r := by
  rw [insertedAt, groups_deleteRows]
  refine setGroup_field (fun grp => grp.group.versionInfo.insertedAt r) ?_ g'
  simp only [is, RowVersionManager.insertedAt_deleteRows]

variable (spreadable : (s.groups g).group.versionInfo.Spreadable vi)
include spreadable

theorem deletedAt_deleteRows (g' : γ) (r : Nat) :
    (s.deleteRows tx g vi rows grp).deletedAt g' r = s.deletedAt g' r ∨ g' = g ∧
      s.deletedAt g' r = notDeletedId ∧
      (s.deleteRows tx g vi rows grp).deletedAt g' r = tx.transactionId := by
  by_cases here : g' = g
  · subst here
    rw [deletedAt_deleteRows_here, is]
    rcases spreadable.deletedAt_deleteRows tx.transactionId rows r with eq | ⟨-, -, free, hm⟩
    · exact .inl eq
    · exact .inr ⟨rfl, free, hm⟩
  · refine .inl ?_
    rw [deletedAt, groups_deleteRows, groups_setGroup, if_neg here]
    rfl

theorem ledger_deleteRows (active : s.Active tx) (hrun : s.endingId ≠ some tx.transactionId)
    (countSame : grp.group.count = (s.groups g).group.count) :
    s.ledger.Step transactionIdStart (s.deleteRows tx g vi rows grp).ledger
      (some tx.transactionId) := by
  have hch := deletedAt_deleteRows is spreadable
  have inserted := insertedAt_deleteRows is
  have here_eq (r : Nat) : (s.deleteRows tx g vi rows grp).deletedAt g r = _ :=
    deletedAt_deleteRows_here r
  set s' := s.deleteRows tx g vi rows grp
  obtain ⟨hgs, -, author_eq, deleters_eq⟩ :
      s'.groups = (s.setGroup g grp).groups ∧ s'.ending = s.ending ∧
        s'.insertedBy = s.insertedBy ∧ s'.deletedBy = fun g' r =>
          if g' = g ∧ grp.group.versionInfo.deletedAt r ≠ s.deletedAt g r then
            tx.transactionId :: s.deletedBy g' r
          else s.deletedBy g' r := pushDelete_fields _ _ _ _
  refine .mark ⟨active, fun e ends eq => ?_⟩ (header_pushDelete _ _ _ _) fun k => ?_
  · obtain ⟨e', ends', rfl⟩ := map_eq_some_iff.mp ends
    exact absurd (by rw [endingId, ends']; exact congrArg some eq) hrun
  cases k with
  | insert g' r =>
    refine .inl (untouched_insert ?_ (fun _ => inserted g' r) fun _ => by rw [author_eq])
    rw [hgs, setGroup_field (fun grp => grp.group.count) countSame]
  | delete g' r =>
    by_cases ht : s'.deletedAt g' r = s.deletedAt g' r
    · refine .inl (untouched_delete ht ?_)
      rw [deleters_eq]
      refine if_neg fun both => both.2 ?_
      rw [← here_eq, ← both.1, ht]
    · obtain ⟨rfl, free, hm⟩ := (hch g' r).resolve_left ht
      have deleters : s'.deletedBy g' r = tx.transactionId :: s.deletedBy g' r := by
        rw [deleters_eq]
        exact if_pos ⟨rfl, here_eq r ▸ ht⟩
      refine .inr ⟨if_pos free, ?_, ?_, ?_⟩
      · simp only [Database.ledger, Database.mark, hm, if_neg tx.id_lt.ne]
      · simp only [Database.ledger, Database.authors, deleters, Set.mem_ofPred_eq]
        exact mem_cons_self
      · intro a auth
        simp only [Database.ledger, Database.authors, deleters, Set.mem_ofPred_eq] at auth
        exact mem_cons.mp auth

end

variable (conf : s.Conforms)
include conf

/-- A running transaction deletes only settled rows: it cannot have come across
others. -/
theorem Conforms.settled_of_met (act : s.Active tx) (hrun : s.endingId ≠ some tx.transactionId)
    (lt : row < (s.groups g).group.count) (met : s.Met tx g row) :
    row < (s.groups g).appendStart := by
  by_contra past
  have unsettled := (conf.regular g).unsettled row (Nat.le_of_not_lt past)
  have reading : s.header.Reading tx.transactionId tx.startTime := by
    refine ⟨act, fun e ends eq => ?_⟩
    obtain ⟨end_, isEnd, rfl⟩ := map_eq_some_iff.mp ends
    exact absurd (by rw [endingId, isEnd]; exact congrArg some eq) hrun
  rcases met with fetched | own
  · have hst := conf.started _ _ act
    rw [fetch_eq _ _ _ (useVersion_iff.mpr (.inl hst)), Bool.and_eq_true] at fetched
    obtain ⟨e, ends, -, -, hca⟩ := conf.inserts.pending g row (Nat.le_of_not_lt past) lt
    have pendingActive := conf.active_ending ends
    have pos : s.header.Stands e.ending.id (s.insertedAt g row) := by
      split at hca
      · exact .inr ⟨e.ending, ending_header ends, rfl, hca.2, hca.1⟩
      · exact .inl hca
    refine conf.ledger.header.not_visible_of_stands reading
      (conf.ledger.header.uncommitted pendingActive) pos ?_
      ⟨_, rfl, useVersion_iff.mp fetched.1⟩
    rintro eq
    exact hrun (by rw [endingId, ends]; exact congrArg some eq)
  · exact tx.id_lt.ne (own.symm.trans unsettled)

/-- After a delete, the undo buffer of the transaction has the rows it marked. -/
theorem Conforms.deletes_deleteRows [DecidableEq γ] (act : s.header.Active tx.transactionId)
    (starts : ∀ g', ((s.deleteRows tx g vi rows grp).groups g').appendStart =
      (s.groups g').appendStart)
    (is : grp.group.versionInfo =
      ((s.groups g).group.versionInfo.deleteRows vi tx.transactionId rows).1)
    (spreadable : (s.groups g).group.versionInfo.Spreadable vi)
    (orderly : ∀ r ∈ rows, vi * standardVectorSize + r < (s.groups g).appendStart) :
    (s.deleteRows tx g vi rows grp).DeletesConform := by
  have hch := deletedAt_deleteRows is spreadable
  have here_eq (r : Nat) : (s.deleteRows tx g vi rows grp).deletedAt g r = _ :=
    deletedAt_deleteRows_here r
  have old (i : Nat) (o : UndoDelete γ) (mem : o ∈ s.undo i) (g' : γ) (r : Nat)
      (hc : o.Covers g' r) :
      (s.deleteRows tx g vi rows grp).deletedAt g' r = s.deletedAt g' r := by
    refine (hch g' r).resolve_right fun new => conf.stamp_ne mem ?_
    exact (conf.deletes.covered i o mem g' r hc).2.symm.trans new.2.1
  have new {out : List Nat} (outcome : ((s.groups g).group.versionInfo.deleteRows vi
      tx.transactionId rows).2 = .ok out) {g' : γ} {r : Nat}
      (hc : UndoDelete.Covers ⟨g, DeleteInfo.push vi out, none⟩ g' r) :
      s.deletedAt g' r = notDeletedId ∧ r < (s.groups g').appendStart ∧
        (s.deleteRows tx g vi rows grp).deletedAt g' r = tx.transactionId := by
    obtain ⟨rfl, hiv, target⟩ := hc
    simp only [DeleteInfo.vectorIdx_push, DeleteInfo.targets_push] at hiv target
    obtain ⟨value, listed⟩ := spreadable.deletedAt_deleteRows_ok outcome r
    have sound := orderly _ (listed ⟨hiv, target⟩).1
    rw [← hiv, row_eq] at sound
    refine ⟨(listed ⟨hiv, target⟩).2, sound, ?_⟩
    rw [here_eq, is, value, if_pos ⟨hiv, target⟩]
  refine conf.deletes_of_changed (P := fun o => ∃ out, o = ⟨g, DeleteInfo.push vi out, none⟩ ∧
      ((s.groups g).group.versionInfo.deleteRows vi tx.transactionId rows).2 = .ok out)
    ⟨tx.id_lt, act⟩ (header_pushDelete _ _ _ _) starts
    (fun o mem => mem_failed_pushDelete.mpr (.inl mem)) (undo_pushDelete _ _ _ _) ?_
    (fun _ => .inl rfl) (fun i _ => old i) ?_ ?_ ?_ ?_
  · intro g' r
    refine (hch g' r).imp_right fun ⟨here, free, hm⟩ => ⟨hm, fun _ huf => ?_⟩
    subst here
    cases outcome : ((s.groups g').group.versionInfo.deleteRows vi tx.transactionId rows).2 with
    | error message => exact absurd (mem_failed_pushDelete.mpr (.inr ⟨rfl, _, outcome⟩)) huf
    | ok out =>
      rw [here_eq, is, (spreadable.deletedAt_deleteRows_ok outcome r).1] at hm
      split_ifs at hm with target
      · cases out with
        | nil => cases target.2
        | cons row more =>
          refine ⟨_, mem_cons_self, rfl, ?_, ?_⟩
          · simpa using target.1
          · simpa using target.2
      · exact absurd (hm.symm.trans free) tx.id_lt.ne
  · intro o isIn
    split at isIn
    · rename_i outcome
      rcases mem_cons.mp isIn with rfl | isIn
      · exact .inl ⟨_, rfl, outcome⟩
      · exact .inr ⟨isIn, old _ o isIn⟩
    · exact .inr ⟨isIn, old _ o isIn⟩
  · rintro o ⟨out, rfl, outcome⟩
    exact ⟨fun t stamp => (by cases stamp), fun g' r hc => (new outcome hc).2⟩
  · split
    · rename_i outcome
      refine .cons (fun o mem g' r hc hc' => conf.stamp_ne mem ?_) (conf.deletes.disjoint _)
      exact (conf.deletes.covered _ o mem g' r hc').2.symm.trans (new outcome hc).1
    · exact conf.deletes.disjoint _
  · intro o mem g' r hc _
    refine ⟨o, ?_, hc⟩
    split
    · exact mem_cons_of_mem _ mem
    · exact mem

theorem Conforms.deleteRows [DecidableEq γ] (active : s.Active tx)
    (hrun : s.endingId ≠ some tx.transactionId) (ne : rows ≠ [])
    (met : ∀ r ∈ rows, s.Met tx g (vi * standardVectorSize + r))
    (run : (s.groups g).Step (.deleteRows vi tx rows) grp) :
    s.Moves (s.deleteRows tx g vi rows grp) (some tx.transactionId) := by
  obtain ⟨hss, clockSame, countSame, flagSame, is, hp⟩ := run.deleteRows_fields
  have act : s.header.Active tx.transactionId := ⟨_, active⟩
  have large := conf.large act
  have bounds (r : Nat) (listed : r ∈ rows) := lt_rowsInVector.mp (hp r listed)
  have orderly (r : Nat) (listed : r ∈ rows) :
      vi * standardVectorSize + r < (s.groups g).appendStart :=
    conf.settled_of_met active hrun (bounds r listed).2 (met r listed)
  obtain ⟨fst, isFirst⟩ := exists_mem_of_ne_nil rows ne
  have spreadable := (conf.regular g).spreadable_of_met (bounds fst isFirst).1
    (conf.started _ _ active) (by have := transactionIdStart_pos; omega) (met fst isFirst)
  have reg := (conf.regular g).deleteRows spreadable orderly run
  have hgs : (s.deleteRows tx g vi rows grp).groups = (s.setGroup g grp).groups :=
    groups_deleteRows
  have starts : ∀ g', ((s.deleteRows tx g vi rows grp).groups g').appendStart =
      (s.groups g').appendStart := hgs ▸ setGroup_field VersionState.appendStart hss
  have step := ledger_deleteRows is spreadable active hrun countSame
  have heq : (s.deleteRows tx g vi rows grp).header = s.header := header_pushDelete _ _ _ _
  refine ⟨step, conf.of_deletes (conf.ledger.step conf.nextId step) heq
    (pushDelete_fields _ _ _ _).2.1 (pushDelete_fields _ _ _ _).2.2.1 ?_ starts ?_ ?_ ?_
    (insertedAt_deleteRows is) (conf.deletes_deleteRows act starts is spreadable orderly) ?_⟩
  · exact hgs ▸ setGroup_field VersionState.clock clockSame
  · exact hgs ▸ setGroup_field (fun grp => grp.group.count) countSame
  · exact hgs ▸ setGroup_field VersionState.appendCommitted flagSame
  · exact hgs ▸ setGroup_forall reg conf.regular
  · rw [heq]
    intro e ends hd hfa
    rcases mem_failed_pushDelete.mp hfa with old | ⟨eq, -⟩
    · exact conf.committing e ends hd old
    · obtain ⟨e', ends', rfl⟩ := map_eq_some_iff.mp ends
      exact hrun (by rw [endingId, ends']; exact congrArg some eq)

end

/-! ## Undo entries -/

section

variable [DecidableEq γ]

variable (conf : s.Conforms)
include conf

theorem Conforms.deletedAt_entry
    (run : (s.groups entry.group).Step (.commitDelete entry.info x) grp)
    (gs : s'.groups = (s.setGroup entry.group grp).groups) (g : γ) (r : Nat) :
    (entry.Covers g r → s'.deletedAt g r = x) ∧
      (¬ entry.Covers g r → s'.deletedAt g r = s.deletedAt g r) := by
  have wrote := run.commitDelete_rows (conf.regular entry.group) r
  rw [deletedAt, gs, groups_setGroup]
  refine ⟨?_, fun uncovered => ?_⟩
  · rintro ⟨rfl, tgt⟩
    rw [if_pos rfl, wrote, if_pos tgt]
  · split_ifs with here
    · subst here
      rw [wrote, if_neg fun tgt => uncovered ⟨rfl, tgt⟩]
      rfl
    · rfl

theorem Conforms.untouched_entry (s' : Database γ)
    (run : (s.groups entry.group).Step (.commitDelete entry.info x) grp)
    (gs : s'.groups = (s.setGroup entry.group grp).groups) (author : s'.insertedBy = s.insertedBy)
    (deleter : s'.deletedBy = s.deletedBy) (k : RowKey γ) : s.ledger.Untouched s'.ledger k ∨
      ∃ g r, k = .delete g r ∧ entry.Covers g r ∧ s'.deletedAt g r = x := by
  cases k with
  | insert g r =>
    obtain ⟨-, -, countSame, -, insertedSame⟩ := run.commitDelete_fields
    refine .inl (untouched_insert ?_ (fun _ => ?_) fun _ => by rw [author])
    · rw [gs, setGroup_field (fun grp => grp.group.count) countSame]
    · rw [insertedAt, gs]
      exact setGroup_field (fun grp => grp.group.versionInfo.insertedAt r) (insertedSame r) g
  | delete g r =>
    have hw := conf.deletedAt_entry run gs g r
    by_cases hcv : entry.Covers g r
    · exact .inr ⟨g, r, rfl, hcv, hw.1 hcv⟩
    · exact .inl (untouched_delete (hw.2 hcv) (by rw [deleter]))

/-- An entry of the transaction that is ending gets another identifier, or is
dropped: the parts of the invariant that do not depend on which. -/
theorem Conforms.of_entry (ledger : s'.ledger.Sound transactionIdStart) (mem : entry ∈ s.undo id)
    (eq : s'.header = s.header) (ending : s'.ending = s.ending)
    (author : s'.insertedBy = s.insertedBy) (fail : s'.failed = s.failed)
    (gs : s'.groups = (s.setGroup entry.group grp).groups)
    (run : (s.groups entry.group).Step (.commitDelete entry.info x) grp)
    (dels : s'.DeletesConform) : s'.Conforms := by
  obtain ⟨hss, clockSame, countSame, flagSame, insertedSame⟩ := run.commitDelete_fields
  have still (r : Nat) (tgt : r / standardVectorSize = entry.info.vectorIdx ∧
      r % standardVectorSize ∈ entry.info.targets) :
      r < (s.groups entry.group).appendStart :=
    (conf.deletes.covered id entry mem entry.group r ⟨rfl, tgt⟩).1
  have reg := (conf.regular entry.group).commitDelete still run
  refine conf.of_deletes ledger eq ending author ?_ ?_ ?_ ?_ ?_ ?_ dels ?_
  · exact gs ▸ setGroup_field VersionState.clock clockSame
  · exact gs ▸ setGroup_field VersionState.appendStart hss
  · exact gs ▸ setGroup_field (fun grp => grp.group.count) countSame
  · exact gs ▸ setGroup_field VersionState.appendCommitted flagSame
  · exact gs ▸ setGroup_forall reg conf.regular
  · intro g r
    rw [insertedAt, gs]
    exact setGroup_field (fun grp => grp.group.versionInfo.insertedAt r) (insertedSame r) g
  · rw [eq, fail]
    exact conf.committing

theorem Conforms.deletes_restamp {e : Ending} {stamp : Option Nat}
    (ends : s.header.ending = some e) (mov : e.phase ≠ .working) (mem : entry ∈ s.undo e.id)
    (drew : ∀ t ∈ stamp, e.commitTime = some t)
    (run : (s.groups entry.group).Step (.commitDelete entry.info (stamp.getD e.id)) grp) :
    (s.restamp e.id entry stamp grp).DeletesConform := by
  have dels := conf.deletes
  have wrote := conf.deletedAt_entry run (show (s.restamp e.id entry stamp grp).groups = _ from rfl)
  have covers (o : UndoDelete γ) (g : γ) (r : Nat) :
      (if o = entry then { entry with stamp := stamp } else o).Covers g r ↔ o.Covers g r := by
    split_ifs with eq
    · rw [eq]
      rfl
    · rfl
  have given {t : Nat} (set : t ∈ stamp) : ∃ e' ∈ s.header.ending,
      e'.id = e.id ∧ e'.phase ≠ .working ∧ e'.commitTime = some t := ⟨e, ends, rfl, mov, drew t set⟩
  refine conf.deletes_of_changed (P := (· = { entry with stamp := stamp }))
    (x := stamp.getD e.id) (dels.undoable e.id (ne_nil_of_mem mem)) rfl
    (setGroup_field VersionState.appendStart run.commitDelete_fields.1) (fun _ mem => mem) rfl
    ?_ (fun _ => ?_) ?_ ?_ ?_ ?_ ?_
  · intro g r
    by_cases hcv : entry.Covers g r
    · refine .inr ⟨(wrote g r).1 hcv, fun _ _ => ⟨_, List.mem_map_of_mem mem, ?_⟩⟩
      exact (covers entry g r).mpr hcv
    · exact .inl ((wrote g r).2 hcv)
  · cases set : stamp with
    | none => exact .inl rfl
    | some t => exact .inr (given set)
  · intro i ne o isIn g r hc
    exact (wrote g r).2 fun hcv => ne (conf.covers_unique isIn mem hc hcv)
  · intro o isIn
    obtain ⟨pre, wasIn, rfl⟩ := List.mem_map.mp isIn
    split_ifs with eq
    · exact .inl rfl
    · exact .inr ⟨wasIn, fun g r hc =>
        (wrote g r).2 ((dels.disjoint e.id).forall wasIn mem eq g r hc)⟩
  · rintro o rfl
    exact ⟨fun _ => given, fun g r hc => ⟨(dels.covered e.id entry mem g r hc).1, (wrote g r).1 hc⟩⟩
  · refine (dels.disjoint e.id).map _ fun left right hne g r => ?_
    rw [covers, covers]
    exact hne g r
  · intro o wasIn g r hc _
    exact ⟨_, List.mem_map_of_mem wasIn, (covers o g r).mpr hc⟩

section

theorem Conforms.commitDelete (ends : s.ending = some e) (stamping : e.phase = .stamping)
    (hf : entry ∈ s.undo e.ending.id) (unstamped : entry.stamp = none) (got : e.commitId = some cid)
    (run : (s.groups entry.group).Step (.commitDelete entry.info cid) grp) :
    s.Moves (s.restamp e.ending.id entry (some cid) grp) (some e.ending.id) := by
  have pre := ending_header ends
  have ne : e.ending.phase ≠ .working := fun eq => by cases stamping.symm.trans eq
  have few := (conf.commitId_lt ends got).trans transactionIdStart_lt_notDeletedId
  have step : s.ledger.Step transactionIdStart (s.restamp e.ending.id entry (some cid) grp).ledger
      (some e.ending.id) := by
    refine .stamp pre stamping got rfl fun k => .imp_right ?_
      (conf.untouched_entry (s.restamp e.ending.id entry (some cid) grp) run rfl rfl rfl k)
    rintro ⟨g, row, rfl, hcv, new⟩
    refine ⟨?_, ?_, rfl⟩
    · have hm := conf.mark_of_covers hf hcv
      rwa [unstamped] at hm
    · simp only [Database.ledger, Database.mark, new, if_neg few.ne]
  refine ⟨step, conf.of_entry (conf.ledger.step conf.nextId step) hf rfl rfl rfl rfl rfl run ?_⟩
  refine conf.deletes_restamp pre ne hf ?_ run
  rintro t isStamp
  cases isStamp
  exact got

theorem Conforms.revertDelete {grp : VersionState} (ends : s.ending = some e)
    (hun : e.phase = .undoing) (mem : entry ∈ s.undo e.ending.id)
    (run : (s.groups entry.group).Step (.commitDelete entry.info e.ending.id) grp) :
    s.Moves (s.restamp e.ending.id entry none grp) (some e.ending.id) := by
  have pre := ending_header ends
  have ne : e.ending.phase ≠ .working := fun eq => by cases hun.symm.trans eq
  have few := (conf.deletes.undoable _ (ne_nil_of_mem mem)).1
  have step : s.ledger.Step transactionIdStart
      (s.restamp e.ending.id entry none grp).ledger (some e.ending.id) := by
    refine .undo pre hun rfl fun k => .imp_right ?_
      (conf.untouched_entry (s.restamp e.ending.id entry none grp) run rfl rfl rfl k)
    rintro ⟨g, row, rfl, hcv, new⟩
    refine ⟨⟨_, conf.mark_of_covers mem hcv, conf.stands_of_entry mem⟩, .inr ⟨?_, rfl⟩, subset_rfl⟩
    simp only [Database.ledger, Database.mark, new, if_neg few.ne]
  refine ⟨step, conf.of_entry (conf.ledger.step conf.nextId step) mem rfl rfl rfl rfl rfl run ?_⟩
  refine conf.deletes_restamp pre ne mem ?_ run
  rintro t isStamp
  cases isStamp

theorem Conforms.rollbackDelete (ends : s.ending = some e) (eq : e.phase = .undoing)
    (mem : entry ∈ s.undo e.ending.id)
    (run : (s.groups entry.group).Step (.commitDelete entry.info notDeletedId) grp) :
    s.Moves { s.setGroup entry.group grp with
      undo := update s.undo e.ending.id ((s.undo e.ending.id).erase entry) }
      (some e.ending.id) := by
  have pre := ending_header ends
  have dels := conf.deletes
  set s' : Database γ := { s.setGroup entry.group grp with
    undo := update s.undo e.ending.id ((s.undo e.ending.id).erase entry) }
  have wrote := conf.deletedAt_entry run (show s'.groups = _ from rfl)
  have step : s.ledger.Step transactionIdStart s'.ledger (some e.ending.id) := by
    refine .undo pre eq rfl fun k => .imp_right ?_ (conf.untouched_entry s' run rfl rfl rfl k)
    rintro ⟨g, row, rfl, hcv, new⟩
    refine ⟨⟨_, conf.mark_of_covers mem hcv, conf.stands_of_entry mem⟩, .inl ?_, subset_rfl⟩
    simp [Database.ledger, Database.mark, new]
  refine ⟨step, conf.of_entry (conf.ledger.step conf.nextId step) mem rfl rfl rfl rfl rfl run ?_⟩
  refine conf.deletes_of_changed (P := fun _ => False) (x := notDeletedId)
    (dels.undoable _ (ne_nil_of_mem mem)) rfl
    (setGroup_field VersionState.appendStart run.commitDelete_fields.1) (fun _ mem => mem) rfl
    ?_ (absurd rfl) ?_ ?_ (fun _ => False.elim) ((dels.disjoint _).sublist erase_sublist) ?_
  · intro g r
    by_cases hcv : entry.Covers g r
    · exact .inr ⟨(wrote g r).1 hcv, absurd rfl⟩
    · exact .inl ((wrote g r).2 hcv)
  · intro i ne o isIn g r hc
    exact (wrote g r).2 fun hcv => ne (conf.covers_unique isIn mem hc hcv)
  · -- the entries that stay have no row in common with the one that goes
    intro o isIn
    have hne := (perm_cons_erase mem).pairwise_iff symm |>.mp (dels.disjoint e.ending.id)
    exact .inr ⟨mem_of_mem_erase isIn, fun g r hc => (wrote g r).2 fun hcv =>
      (pairwise_cons.mp hne).1 o isIn g r hcv hc⟩
  · intro o wasIn g r hc same
    refine ⟨o, (mem_erase_of_ne ?_).mpr wasIn, hc⟩
    rintro rfl
    refine conf.stamp_ne mem ?_
    rw [← (dels.covered _ o mem g r hc).2, ← same, (wrote g r).1 hc]

end

end

/-! ## Ending -/

section

variable (conf : s.Conforms)
include conf

/-- What holds after the ending transaction has been removed, however it ended:
its rows are settled and it has no undo entries left. -/
theorem Conforms.of_ended {s' : Database γ} {e : TransactionEnd γ}
    (ends : s.ending = some e) (ledger : s'.ledger.Sound transactionIdStart)
    (head : s'.header = { s.header with
      active := fun id lo => s.header.active id lo ∧ id ≠ e.ending.id
      ending := none
      committed := s'.committedAt })
    (gs : s'.groups = s.settle.groups) (fail : s'.failed = s.failed)
    (undo : ∀ id ≠ e.ending.id, s'.undo id = s.undo id)
    (undone : s'.undo e.ending.id = [])
    (rows : ∀ g r, (s.groups g).appendStart ≤ r → r < (s.groups g).group.count →
      s.insertedAt g r < transactionIdStart) : s'.Conforms := by
  have pre := ending_header ends
  have dels := conf.deletes
  have quiet : s'.header.ending = none := by rw [head]
  have active_of {id : Nat} (active : s'.header.Active id) :
      s.header.Active id ∧ id ≠ e.ending.id := by
    obtain ⟨lo, act⟩ := active
    rw [head] at act
    exact ⟨⟨lo, act.1⟩, act.2⟩
  have deletedAt_eq (g : γ) (r : Nat) : s'.deletedAt g r = s.deletedAt g r := by
    rw [deletedAt, gs]
    rfl
  have origin {id : Nat} {en : UndoDelete γ} (isIn : en ∈ s'.undo id) :
      en ∈ s.undo id ∧ id ≠ e.ending.id := by
    by_cases mine : id = e.ending.id
    · rw [mine, undone] at isIn
      cases isIn
    · exact ⟨undo id mine ▸ isIn, mine⟩
  refine ⟨ledger, head ▸ conf.nextId, head ▸ conf.clock_pos, ?_, ?_, ?_, ⟨?_, ?_⟩,
    ⟨?_, ?_, ?_, ?_, ?_⟩, ?_⟩
  · rw [head]
    exact fun id lo act => conf.started id lo act.1
  · intro g
    rw [gs, head]
    exact conf.clock g
  · intro g
    rw [gs]
    exact (conf.regular g).settle
  · intro g r fit
    have eq : s'.insertedAt g r = s.insertedAt g r := by
      rw [insertedAt, gs]
      rfl
    rw [gs] at fit
    rw [eq]
    refine ⟨?_, fun e' ends' => ?_⟩
    · by_cases hse : r < (s.groups g).appendStart
      · exact (conf.inserts.settled g r hse).1
      · exact rows g r (Nat.le_of_not_lt hse) fit
    · cases quiet.symm.trans ends'
  · intro g r past fit
    rw [gs] at past fit
    exact absurd fit (Nat.not_lt.mpr past)
  · intro id ne
    obtain ⟨en, isIn⟩ := exists_mem_of_ne_nil _ ne
    obtain ⟨wasIn, ho⟩ := origin isIn
    obtain ⟨hsm, lo, act⟩ := dels.undoable id (ne_nil_of_mem wasIn)
    refine ⟨hsm, lo, ?_⟩
    rw [head]
    exact ⟨act, ho⟩
  · intro id en isIn t stamp
    obtain ⟨wasIn, ho⟩ := origin isIn
    obtain ⟨e', ends', eq, -⟩ := dels.stamped id en wasIn t stamp
    cases pre.symm.trans ends'
    omega
  · intro id en isIn g r hc
    obtain ⟨hse, hca⟩ := dels.covered id en (origin isIn).1 g r hc
    refine ⟨?_, (deletedAt_eq g r).trans hca⟩
    rw [gs]
    exact hse.trans_le (conf.regular g).summarised.sound.appendStart_le
  · intro id
    by_cases mine : id = e.ending.id
    · rw [mine, undone]
      exact List.Pairwise.nil
    · rw [undo id mine]
      exact dels.disjoint id
  · intro id g r x active huf hm pos
    obtain ⟨wasActive, ho⟩ := active_of active
    have stays : s.mark (.delete g r) = some x := by
      simpa only [mark, deletedAt_eq] using hm
    have own : x = id := by
      rcases pos with own | ⟨e', ends', -⟩
      · exact own
      · cases quiet.symm.trans ends'
    rw [undo id ho]
    exact dels.carried id g r x wasActive (fail ▸ huf) stays (.inl own)
  · intro e' ends'
    cases quiet.symm.trans ends'

theorem Conforms.endCommit (ends : s.ending = some e) (stamping : e.phase = .stamping)
    (stamped : ∀ entry ∈ s.undo e.ending.id, entry.stamp ≠ none)
    (done : ∀ g ∈ e.pieces, (s.groups g).appendCommitted = true)
    (got : e.commitId = some cid) : s.Moves { s.settle with
      manager := s.manager.endCommit e.transaction cid e.pieces.length false
      undo := update s.undo e.ending.id []
      committedAt := update s.committedAt e.ending.id (some cid) }
      (some e.ending.id) := by
  have pre := ending_header ends
  have dels := conf.deletes
  have act := conf.active_ending ends
  have large := conf.large act
  have few := conf.commitId_lt ends got
  have huf : e.ending.id ∉ s.failed :=
    conf.committing e.ending pre fun eq => by cases got.symm.trans eq
  have hrp (g : γ) (r : Nat) (past : (s.groups g).appendStart ≤ r)
      (lt : r < (s.groups g).group.count) : s.insertedAt g r = cid := by
    obtain ⟨e', ends', piece, -, hca⟩ := conf.inserts.pending g r past lt
    cases ends.symm.trans ends'
    rw [if_pos (done g piece)] at hca
    exact Option.some.inj (hca.1.symm.trans got)
  set s' : Database γ := { s.settle with
    manager := s.manager.endCommit e.transaction cid e.pieces.length false
    undo := update s.undo e.ending.id []
    committedAt := update s.committedAt e.ending.id (some cid) }
  have heq : s'.header = { s.header with
      active := fun id lo => s.header.active id lo ∧ id ≠ e.ending.id
      ending := none
      committed := update s.committedAt e.ending.id (some cid) } := by
    exact header_others e.ending.id rfl rfl rfl
  have step : s.ledger.Step transactionIdStart s'.ledger (some e.ending.id) := by
    refine .committed pre stamping got ?_ heq fun k => (by cases k <;> exact ⟨rfl, .inl rfl⟩)
    rintro (⟨g, r⟩ | ⟨g, r⟩) hm
    · have lt : r < (s.groups g).group.count := by
        by_contra out
        cases (if_neg out).symm.trans hm
      have hca : s.insertedAt g r = e.ending.id := Option.some.inj ((if_pos lt).symm.trans hm)
      by_cases hse : r < (s.groups g).appendStart
      · have := (conf.inserts.settled g r hse).1
        omega
      · have := hrp g r (Nat.le_of_not_lt hse) lt
        omega
    · obtain ⟨entry, found, hc⟩ := dels.carried _ g r _ act huf hm (.inl rfl)
      have hca := Option.some.inj ((conf.mark_of_covers found hc).symm.trans hm)
      cases stamp : entry.stamp with
      | none => exact stamped entry found stamp
      | some t =>
        obtain ⟨e', ends', -, -, drew'⟩ := dels.stamped _ entry found t stamp
        cases pre.symm.trans ends'
        rw [stamp] at hca
        have : t = cid := Option.some.inj (drew'.symm.trans got)
        rw [getD_some] at hca
        omega
  refine ⟨step, conf.of_ended ends (conf.ledger.step conf.nextId step) heq rfl rfl ?_ ?_ ?_⟩
  · intro id ho
    exact update_of_ne ho _ _
  · exact update_self _ _ _
  · intro g r past lt
    exact hrp g r past lt ▸ few

theorem Conforms.endRollback {m : DuckTransactionManager} (ends : s.ending = some e)
    (back : e.phase = .undoing) (emp : s.undo e.ending.id = [])
    (reverted : ∀ g ∈ e.pieces, (s.groups g).group.count = (s.groups g).appendStart)
    (clock : m.currentStartTimestamp = s.manager.currentStartTimestamp)
    (nextId : m.currentTransactionId = s.manager.currentTransactionId)
    (same : m.activeTransactions = s.manager.others e.ending.id) :
    s.Moves { s.settle with manager := m } (some e.ending.id) := by
  have pre := ending_header ends
  have dels := conf.deletes
  have act := conf.active_ending ends
  have noPending (g : γ) (r : Nat) (past : (s.groups g).appendStart ≤ r) :
      ¬ r < (s.groups g).group.count := by
    intro lt
    obtain ⟨e', ends', piece, -⟩ := conf.inserts.pending g r past lt
    cases ends.symm.trans ends'
    have := reverted g piece
    omega
  have heq : ({ s.settle with manager := m } : Database γ).header = { s.header with
      active := fun id lo => s.header.active id lo ∧ id ≠ e.ending.id
      ending := none } := by
    exact header_others e.ending.id clock nextId same
  have step : s.ledger.Step transactionIdStart
      (Database.ledger { s.settle with manager := m }) (some e.ending.id) := by
    refine .undone pre back ?_ heq fun k => (by cases k <;> exact ⟨rfl, .inl rfl⟩)
    rintro (⟨g, r⟩ | ⟨g, r⟩) x hm pos
    · have lt : r < (s.groups g).group.count := by
        by_contra out
        cases (if_neg out).symm.trans hm
      have hca : s.insertedAt g r = x := Option.some.inj ((if_pos lt).symm.trans hm)
      have hse : r < (s.groups g).appendStart := by
        by_contra past
        exact noPending g r (Nat.le_of_not_lt past) lt
      rcases pos with own | ⟨e', ends', -, -, drew⟩
      · exact own
      · exact absurd (hca ▸ drew) ((conf.inserts.settled g r hse).2 e' ends')
    · rcases pos with own | ⟨e', ends', eq, moved, drew⟩
      · exact own
      · -- a commit identifier is only ever in rows of the undo buffer
        have huf := conf.committing e' ends' fun none => by cases drew.symm.trans none
        cases pre.symm.trans ends'
        obtain ⟨entry, got, -⟩ := dels.carried _ g r x act huf hm
          (.inr ⟨e.ending, pre, rfl, moved, drew⟩)
        rw [emp] at got
        cases got
  refine ⟨step, conf.of_ended ends (conf.ledger.step conf.nextId step) heq
    rfl rfl (fun _ _ => rfl) emp ?_⟩
  intro g r past lt
  exact absurd lt (noPending g r past)

end

end Database

end AccessPath
