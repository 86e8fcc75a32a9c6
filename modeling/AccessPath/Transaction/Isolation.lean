import AccessPath.Transaction.Conformance

/-!
# Snapshot isolation of rows

In every run in which appended rows carry the identifier of their own
transaction, what `GetSelVector` selects for a transaction is the snapshot of
the database at its start together with its own changes.
-/

namespace AccessPath

open Library Option

variable {γ : Type}

namespace Database

/-! ## Whole runs -/

section

variable {gs : γ → VersionState}

theorem opened_committed (gs : γ → VersionState) {id t : Nat}
    (done : (opened gs).committedAt id = some t) : id = 0 ∧ t = 0 := by
  simp only [opened] at done
  split_ifs at done with zero
  cases done
  exact ⟨zero, rfl⟩

theorem opened_deleters {g : γ} {r id : Nat} (deleter : id ∈ (opened gs).deletedBy g r) :
    (gs g).group.versionInfo.deletedAt r = 0 ∧ id = 0 := by
  simp only [opened] at deleter
  split_ifs at deleter with zero
  · exact ⟨zero, List.mem_singleton.mp deleter⟩
  · cases deleter

theorem opened_active {id start : Nat} : ¬ (opened gs).header.active id start := by
  rintro ⟨_, isIn, -⟩
  cases isIn

variable (opened : ∀ g, (gs g).Opened)
include opened

theorem opened_insertedAt (g : γ) (r : Nat) : (Database.opened gs).insertedAt g r = 0 :=
  RowVersionManager.insertedAt_of_loaded (opened g).1 r

theorem opened_ledger : (Database.opened gs).ledger.Sound transactionIdStart := by
  refine ⟨⟨?_, ?_, ?_, ?_⟩, ?_⟩
  · intro id start act
    exact absurd act opened_active
  · intro id t done
    obtain ⟨rfl, rfl⟩ := opened_committed gs done
    exact ⟨Nat.two_pos, transactionIdStart_pos, transactionIdStart_pos⟩
  · rintro e ⟨⟩
  · rintro _ t ⟨⟩
  · rintro (⟨g, r⟩ | ⟨g, r⟩)
    · have hins := opened_insertedAt opened g r
      refine ⟨?_, ?_, ?_, ?_⟩
      · intro x hm
        simp only [Database.ledger, Database.mark, hins] at hm
        split_ifs at hm with fit
        cases hm
        exact ⟨0, ⟨fit, rfl⟩, .inl rfl⟩
      · intro id t auth done
        obtain ⟨-, rfl⟩ := opened_committed gs done
        simp only [Database.ledger, Database.mark, hins, if_pos auth.1]
      · rintro id - ⟨start, act⟩
        exact absurd act opened_active
      · rintro id ⟨-, rfl⟩
        exact transactionIdStart_pos
    · refine ⟨?_, ?_, ?_, ?_⟩
      · intro x hm
        rcases RowVersionManager.deletedAt_of_loaded (opened g).1 r with kept | gone
        · cases (if_pos kept).symm.trans hm
        · have stays : (Database.opened gs).deletedAt g r ≠ notDeletedId := by
            rw [Database.deletedAt, Database.opened, gone]
            decide
          have hca := Option.some.inj ((if_neg stays).symm.trans hm)
          refine ⟨0, ?_, .inl (congrArg some (gone.symm.trans hca))⟩
          simp only [Database.ledger, Database.authors, Database.opened, gone, if_true]
          exact List.mem_singleton.mpr rfl
      · intro id t auth done
        obtain ⟨-, rfl⟩ := opened_committed gs done
        have gone := (opened_deleters auth).1
        simp only [Database.ledger, Database.mark, Database.deletedAt, Database.opened, gone]
        exact if_neg (by decide)
      · rintro id - ⟨_, act⟩
        exact absurd act opened_active
      · intro id auth
        obtain ⟨-, rfl⟩ := opened_deleters auth
        exact transactionIdStart_pos

theorem Conforms.of_opened : (Database.opened gs).Conforms := by
  refine ⟨opened_ledger opened, le_rfl, Nat.two_pos, ?_, ?_, ?_, ⟨?_, ?_⟩, ⟨?_, ?_, ?_, ?_, ?_⟩, ?_⟩
  · intro id start act
    exact absurd act opened_active
  · intro g
    exact (opened g).2.2.2.2.2.2
  · intro g
    exact (opened g).regular
  · intro g r fit
    rw [opened_insertedAt opened]
    exact ⟨transactionIdStart_pos, by rintro e ⟨⟩⟩
  · intro g r past fit
    have same : (gs g).appendStart = (gs g).group.count := (opened g).2.2.2.1
    exact absurd fit (Nat.not_lt.mpr (same ▸ past))
  · intro id ne
    exact absurd rfl ne
  · rintro id en ⟨⟩
  · rintro id _ ⟨⟩
  · intro id
    exact List.Pairwise.nil
  · rintro _ _ _ _ ⟨_, act⟩
    exact absurd act opened_active
  · rintro _ ⟨⟩

end

section

variable [DecidableEq γ] {s s' : Database γ} {op : DatabaseOp γ}

theorem Conforms.step (conf : s.Conforms) (own : op.OwnIdentifiers s)
    (run : s.step op = some s') : s.Moves s' (op.actor s) := by
  have byEnding {e : TransactionEnd γ} (ends : s.ending = some e)
      (moved : s.Moves s' (some e.transaction.transactionId)) : s.Moves s' s.endingId := by
    rw [endingId, ends]
    exact moved
  cases op with
  | start =>
    simp only [step] at run
    split at run
    · rename_i idle started
      cases run
      exact conf.start idle started
    · cases run
  | deleteRows tx g vi rows =>
    simp only [step] at run
    split_ifs at run with his
    obtain ⟨act, running, ne, met⟩ := his
    obtain ⟨grp, deleted, rfl⟩ := map_eq_some_iff.mp run
    exact conf.deleteRows act running ne met (.of_step deleted)
  | beginCommit tid =>
    simp only [step] at run
    split at run
    · rename_i idle got
      split_ifs at run with huf
      cases run
      exact conf.beginCommit idle got huf own
    · cases run
  | beginRollback tid =>
    simp only [step] at run
    split at run
    · rename_i idle got
      cases run
      exact conf.beginRollback idle got
    · cases run
  | append g data n =>
    obtain ⟨e, ends, his, run⟩ := exists_of_guard run
    obtain ⟨grp, appended, rfl⟩ := map_eq_some_iff.mp run
    exact byEnding ends (conf.append ends his.1 (own e ends) (.of_step appended))
  | beginStamping =>
    obtain ⟨e, ends, hwk, run⟩ := exists_of_guard run
    cases run
    exact byEnding ends (conf.advance ends (by rw [hwk]; decide) (by decide))
  | failCommit =>
    obtain ⟨e, ends, steady, run⟩ := exists_of_guard run
    cases run
    exact byEnding ends (conf.advance ends steady (by decide))
  | commitAppend g =>
    obtain ⟨e, ends, his, run⟩ := exists_of_guard run
    obtain ⟨commitId, drawn, run⟩ := bind_eq_some_iff.mp run
    obtain ⟨grp, done, rfl⟩ := map_eq_some_iff.mp run
    exact byEnding ends (conf.commitAppend ends his.1 drawn (.of_step done))
  | commitDelete en =>
    obtain ⟨e, ends, his, run⟩ := exists_of_guard run
    obtain ⟨commitId, drawn, run⟩ := bind_eq_some_iff.mp run
    obtain ⟨grp, done, rfl⟩ := map_eq_some_iff.mp run
    exact byEnding ends (conf.commitDelete ends his.1 his.2.1 his.2.2 drawn (.of_step done))
  | endCommit =>
    obtain ⟨e, ends, his, run⟩ := exists_of_guard run
    obtain ⟨_, drawn, rfl⟩ := map_eq_some_iff.mp run
    exact byEnding ends (conf.endCommit ends his.1 his.2.1 his.2.2 drawn)
  | revertAppend g =>
    obtain ⟨e, ends, his, run⟩ := exists_of_guard run
    obtain ⟨grp, reverted, rfl⟩ := map_eq_some_iff.mp run
    exact byEnding ends (conf.revertAppend ends his.1 (.of_step reverted))
  | revertDelete en =>
    obtain ⟨e, ends, his, run⟩ := exists_of_guard run
    obtain ⟨grp, reverted, rfl⟩ := map_eq_some_iff.mp run
    exact byEnding ends (conf.revertDelete ends his.1 his.2.1 (.of_step reverted))
  | rollbackDelete en =>
    obtain ⟨e, ends, his, run⟩ := exists_of_guard run
    obtain ⟨_, reverted, rfl⟩ := map_eq_some_iff.mp run
    exact byEnding ends (conf.rollbackDelete ends his.1 his.2.1 (.of_step reverted))
  | endRollback =>
    obtain ⟨e, ends, his, run⟩ := exists_of_guard run
    cases run
    refine byEnding ends (conf.endRollback ends his.1 his.2.1 his.2.2 ?_ ?_ ?_) <;>
      cases e.commitId <;> rfl

theorem conforms_of_reachable
    (reached : ((databaseMachine γ).guarded fun s op => op.OwnIdentifiers s).Reachable s) :
    s.Conforms := by
  refine reached.invariant ?_ ?_
  · rintro s ⟨_, opened, rfl⟩
    exact .of_opened opened
  · rintro _ _ - conf ⟨_, own, run⟩
    exact (conf.step own run).2

end

/-! ## What a transaction sees -/

section

variable {s : Database γ} (conf : s.Conforms) {tx : TransactionData}

theorem reading_iff : s.header.Reading tx.transactionId tx.startTime ↔ s.Reading tx := by
  refine and_congr_right fun _ => ⟨?_, ?_⟩
  · intro hwk e ends
    exact hwk e.ending (ending_header ends)
  · rintro hwk _ ends
    obtain ⟨e, isEnd, rfl⟩ := map_eq_some_iff.mp ends
    exact hwk e isEnd

include conf

/-- A transaction sees a row if it sees the insert and not the delete. -/
theorem Conforms.sees_iff (see : s.Reading tx) (g : γ) (r : Nat) : s.Sees tx g r ↔
      Visible tx.transactionId tx.startTime (s.mark (.insert g r)) ∧
        ¬ Visible tx.transactionId tx.startTime (s.mark (.delete g r)) := by
  have started := conf.started _ _ see.1
  have summarised := (conf.regular g).summarised
  have position : r / standardVectorSize * standardVectorSize + r % standardVectorSize = r :=
    Nat.div_add_mod' r standardVectorSize
  have fit : r % standardVectorSize <
      rowsInVector (s.groups g).group.count (r / standardVectorSize) ↔
      r < (s.groups g).group.count := by
    rw [lt_rowsInVector, position]
    exact and_iff_right (Nat.mod_lt _ (by decide))
  have insert : Visible tx.transactionId tx.startTime (s.mark (.insert g r)) ↔
      r < (s.groups g).group.count ∧ useVersion tx (s.insertedAt g r) = true := by
    simp only [Visible, mark, useVersion_iff]
    split <;> simp_all
  have delete : Visible tx.transactionId tx.startTime (s.mark (.delete g r)) ↔
      useVersion tx (s.deletedAt g r) = true := by
    simp only [Visible, mark, useVersion_iff]
    split_ifs with kept
    · have unseen := useVersion_notDeletedId tx
      rw [Bool.eq_false_iff, ne_eq, useVersion_iff] at unseen
      simp_all
    · simp_all
  simp only [Sees]
  rw [RowVersionManager.rows_eq_filter_fetch summarised.sound.sameInserted summarised.anyDeleted
      tx le_rfl, List.mem_filter, List.mem_range, fit, position,
    RowVersionManager.fetch_eq _ _ _ (useVersion_iff.mpr (.inl started)), Bool.and_eq_true,
    insert, delete, and_assoc, Bool.not_eq_true', Bool.eq_false_iff]
  rfl

theorem Conforms.snapshot_iff (see : s.Reading tx) (g : γ) (r : Nat) :
    s.Sees tx g r ↔ s.Snapshot tx g r := by
  have reads := reading_iff.mpr see
  rw [conf.sees_iff see]
  have insert := conf.ledger.visible_iff reads (.insert g r)
  have delete := conf.ledger.visible_iff reads (.delete g r)
  refine (and_congr insert (not_congr delete)).trans ?_
  constructor
  · rintro ⟨⟨_, ⟨fit, rfl⟩, hins⟩, undeleted⟩
    refine ⟨fit, hins, fun deleter isDeleter => ⟨fun own => ?_, fun old => ?_⟩⟩
    · exact undeleted ⟨deleter, isDeleter, .inl own⟩
    · exact undeleted ⟨deleter, isDeleter, .inr old⟩
  · rintro ⟨fit, hins, undeleted⟩
    refine ⟨⟨_, ⟨fit, rfl⟩, hins⟩, ?_⟩
    rintro ⟨deleter, isDeleter, own | old⟩
    · exact (undeleted deleter isDeleter).1 own
    · exact (undeleted deleter isDeleter).2 old

end

/-- Snapshot isolation: at any point of its life a transaction sees its snapshot,
and a step of another transaction changes nothing of what it sees. -/
theorem snapshot_isolation [DecidableEq γ] {s : Database γ}
    (reached : ((databaseMachine γ).guarded fun s op => op.OwnIdentifiers s).Reachable s)
    {transaction : TransactionData} (reading : s.Reading transaction) :
    (∀ g row, s.Sees transaction g row ↔ s.Snapshot transaction g row) ∧
      ∀ op s', s.step op = some s' → op.OwnIdentifiers s →
        op.actor s ≠ some transaction.transactionId → s'.Reading transaction ∧
            ∀ g row, s'.Sees transaction g row ↔ s.Sees transaction g row := by
  have conforms := conforms_of_reachable reached
  refine ⟨conforms.snapshot_iff reading, fun op s' stepped own other => ?_⟩
  obtain ⟨moved, conforms'⟩ := conforms.step own stepped
  obtain ⟨reads, same⟩ := moved.visible_iff conforms.ledger (reading_iff.mpr reading) other
  have reading' := reading_iff.mp reads
  refine ⟨reading', fun g row => ?_⟩
  rw [conforms.sees_iff reading, conforms'.sees_iff reading']
  exact and_congr (same (.insert g row)) (not_congr (same (.delete g row)))

/-! ## Commits and deletes -/

section

variable {s : Database γ} (conf : s.Conforms) (idle : s.ending = none) {g : γ}
include conf idle

/-- While no transaction ends, an identifier is a commit time or the transaction's own. -/
theorem Conforms.author_at_rest {k : RowKey γ} {x : Nat} (marked : s.mark k = some x) :
    ∃ id ∈ s.authors k, s.committedAt id = some x ∨
      s.header.Uncommitted transactionIdStart id ∧ x = id := by
  obtain ⟨id, author, committed | ⟨pending, own | ⟨_, ends, -⟩⟩⟩ :=
    (conf.ledger.explained k).author marked
  · exact ⟨id, author, .inl committed⟩
  · exact ⟨id, author, .inr ⟨pending, own⟩⟩
  · cases (conf.idle_facts idle).2.2.symm.trans ends

theorem Conforms.insert_committed {row : Nat} (inside : row < (s.groups g).group.count) :
    s.committedAt (s.insertedBy g row) = some (s.insertedAt g row) := by
  have settled := Nat.not_le.mp fun past => (conf.idle_facts idle).1 g row past inside
  obtain ⟨_, ⟨-, rfl⟩, committed | ⟨pending, own⟩⟩ :=
    conf.author_at_rest idle (k := .insert g row) (if_pos inside)
  · exact committed
  · exact absurd (conf.inserts.settled g row settled).1 (own ▸ pending.1).not_gt

end

section

variable [DecidableEq γ] {s : Database γ}
  (reached : ((databaseMachine γ).guarded fun s op => op.OwnIdentifiers s).Reachable s)
  {id row : Nat}
include reached

/-- Durability: whatever runs after a commit, the inserts and deletes of the
transaction stay, with its commit identifier. -/
theorem commit_durable {time : Nat} (done : s.committedAt id = some time) {s' : Database γ}
    (later : Relation.ReflTransGen
      ((databaseMachine γ).guarded fun s op => op.OwnIdentifiers s).step s s') :
    s'.committedAt id = some time ∧
      ∀ k, id ∈ s.authors k → id ∈ s'.authors k ∧ s'.mark k = some time := by
  suffices s'.Conforms ∧ s'.committedAt id = some time ∧
      ∀ k, id ∈ s.authors k → id ∈ s'.authors k by
    obtain ⟨conf, done, kept⟩ := this
    refine ⟨done, fun k auth => ⟨kept k auth, ?_⟩⟩
    exact (conf.ledger.explained k).committed (kept k auth) done
  induction later with
  | refl => exact ⟨conforms_of_reachable reached, done, fun _ auth => auth⟩
  | tail _ stepped ih =>
    obtain ⟨conf, done, kept⟩ := ih
    obtain ⟨_, own, run⟩ := stepped
    obtain ⟨moved, conf'⟩ := conf.step own run
    obtain ⟨still, stay⟩ := moved.committed_stays conf.ledger done
    exact ⟨conf', still, fun k auth => stay k (kept k auth)⟩

/-- A row with a pending delete has no other one, pending or committed. -/
theorem pending_delete_exclusive {entry : UndoDelete γ} (pending : entry ∈ s.undo id) {g : γ}
    (covers : entry.Covers g row) :
    (∀ o, ∀ entry' ∈ s.undo o, entry'.Covers g row → o = id ∧ entry' = entry) ∧
      ∀ o ∈ s.deletedBy g row, s.committedAt o = none := by
  have conf := conforms_of_reachable reached
  refine ⟨fun o entry' mem covers' => ?_, ?_⟩
  · cases conf.covers_unique mem pending covers' covers
    refine ⟨rfl, ?_⟩
    by_contra ne
    exact (conf.deletes.disjoint id).forall mem pending ne g row covers' covers
  · have active := (conf.deletes.undoable id (List.ne_nil_of_mem pending)).2
    exact ((conf.ledger.explained (.delete g row)).of_stands conf.ledger.header
      (conf.mark_of_covers pending covers) (conf.ledger.header.uncommitted active)
      (conf.stands_of_entry pending)).2.1

/-- While no transaction ends, rows carry the commit identifier of their insert,
and deletes are committed or pending. A transaction that can still commit has
its deletes in its undo buffer. -/
theorem identifiers_at_rest (idle : s.ending = none) (g : γ) :
    (row < (s.groups g).group.count →
      s.committedAt (s.insertedBy g row) = some (s.insertedAt g row)) ∧
    (s.deletedAt g row ≠ notDeletedId → ∃ id ∈ s.deletedBy g row,
      s.committedAt id = some (s.deletedAt g row) ∨
        s.committedAt id = none ∧ s.deletedAt g row = id ∧
          (s.header.Active id → id ∉ s.failed → ∃ entry ∈ s.undo id, entry.Covers g row)) := by
  have conf := conforms_of_reachable reached
  refine ⟨conf.insert_committed idle, fun deleted => ?_⟩
  have marked : s.mark (.delete g row) = some (s.deletedAt g row) := if_neg deleted
  obtain ⟨id, author, committed | ⟨pending, own⟩⟩ := conf.author_at_rest idle marked
  · exact ⟨id, author, .inl committed⟩
  · refine ⟨id, author, .inr ⟨pending.2, own, fun active fine => ?_⟩⟩
    exact conf.deletes.carried id g row _ active fine marked (.inl own)

/-- While no transaction ends, `GetCommittedRowCount` counts the rows that no committed
transaction has deleted. -/
theorem committed_row_count (idle : s.ending = none) (g : γ) :
    (s.groups g).group.getCommittedRowCount = (List.range (s.groups g).group.count).countP
      fun row => ∀ id ∈ s.deletedBy g row, s.committedAt id = none := by
  have conf := conforms_of_reachable reached
  have deleted (row : Nat) : s.deletedAt g row < transactionIdStart ↔
      ∃ id ∈ s.deletedBy g row, s.committedAt id ≠ none := by
    refine ⟨fun early => ?_, fun ⟨id, author, done⟩ => ?_⟩
    · have ne := (early.trans transactionIdStart_lt_notDeletedId).ne
      obtain ⟨id, author, committed | ⟨pending, own⟩⟩ :=
        conf.author_at_rest idle (k := .delete g row) (if_neg ne)
      · exact ⟨id, author, committed ▸ some_ne_none _⟩
      · exact absurd early (own ▸ pending.1).not_gt
    · obtain ⟨_, committed⟩ := ne_none_iff_exists'.mp done
      have marked := (conf.ledger.explained (.delete g row)).committed author committed
      obtain ⟨-, eq⟩ := (ite_eq_iff.mp marked).resolve_left fun none => by cases none.2
      exact some.inj eq ▸ (conf.ledger.header.committed_lt committed).2.1
  have summarised := (conf.regular g).summarised
  have total := List.length_eq_countP_add_countP (l := List.range (s.groups g).group.count)
    fun row => decide (s.deletedAt g row < transactionIdStart)
  rw [List.length_range] at total
  rw [RowGroup.getCommittedRowCount, RowVersionManager.getCommittedDeletedCount_eq
    summarised.sound.count_le summarised.anyDeleted]
  refine (Nat.sub_eq_of_eq_add' total).trans (List.countP_congr fun row _ => ?_)
  simp [deleted]

end

end Database

/-- A table with one row group and no rows. -/
def emptyDatabase : Database Unit :=
  .opened fun _ => ⟨⟨0, .new 0⟩, 0, false, [], DuckTransactionManager.new.currentStartTimestamp⟩

theorem emptyDatabase_reachable {c : Database Unit → DatabaseOp Unit → Prop} :
    ((databaseMachine Unit).guarded c).Reachable emptyDatabase :=
  .init ⟨_, fun _ => ⟨RowVersionManager.loaded_new 0, by decide,
    fun _ _ => rfl, rfl, rfl, rfl, rfl⟩,
    rfl⟩

/-- Bulk rows of a transaction that is still committing are seen by a transaction
that started before. -/
theorem Database.snapshot_isolation_bulk : ∃ s, (databaseMachine Unit).system.Reachable s ∧
      s.Reading (nthTransaction 0) ∧ s.Sees (nthTransaction 0) () 0 ∧
          ¬ s.Snapshot (nthTransaction 0) () 0 := by
  obtain ⟨s, reached, reading, seen, author, uncommitted⟩ :=
    (databaseMachine Unit).exists_reachable_of_run
      (P := fun s => s.Reading (nthTransaction 0) ∧
        s.Sees (nthTransaction 0) () 0 ∧ s.insertedBy () 0 = transactionIdStart + 1 ∧
            s.committedAt (transactionIdStart + 1) = none)
      (fun _ _ => True)
      [.start, .start, .beginCommit (transactionIdStart + 1), .append () bulkData 10]
      emptyDatabase_reachable (by decide)
  refine ⟨s, reached, reading, seen, ?_⟩
  rintro ⟨-, own | ⟨_, committed, -⟩, -⟩
  · rw [author] at own
    exact absurd own (by decide)
  · rw [author, uncommitted] at committed
    cases committed

/-- Two transactions start; the second commits ten rows, of which the first sees
none. -/
theorem Database.snapshot_isolation_committed :
    ∃ s, ((databaseMachine Unit).guarded fun s op => op.OwnIdentifiers s).Reachable s ∧
      s.Reading (nthTransaction 0) ∧
        (∀ g row, s.Sees (nthTransaction 0) g row ↔
          s.Snapshot (nthTransaction 0) g row) ∧
        ∀ op s', s.step op = some s' → op.OwnIdentifiers s →
          op.actor s ≠ some (nthTransaction 0).transactionId →
            s'.Reading (nthTransaction 0) ∧
              ∀ g row, s'.Sees (nthTransaction 0) g row ↔
                s.Sees (nthTransaction 0) g row := by
  obtain ⟨s, reached, reading⟩ := (databaseMachine Unit).exists_reachable_of_run
      (P := fun s => s.Reading (nthTransaction 0))
      (fun s op => op.OwnIdentifiers s)
      [.start, .start, .beginCommit (transactionIdStart + 1),
        .append () (nthTransaction 1) 10, .beginStamping, .commitAppend (), .endCommit]
      emptyDatabase_reachable (by decide)
  exact ⟨s, reached, reading, Database.snapshot_isolation reached reading⟩

/-- A transaction has committed ten rows, and the next one deletes the first. -/
theorem exists_pending_delete :
    ∃ s, ((databaseMachine Unit).guarded fun s op => op.OwnIdentifiers s).Reachable s ∧
      s.ending = none ∧ 0 < (s.groups ()).group.count ∧
        s.committedAt transactionIdStart = some 3 ∧
          s.undo (transactionIdStart + 1) = [⟨(), .push 0 [0], none⟩] := by
  obtain ⟨s, reached, idle, rest⟩ := (databaseMachine Unit).exists_reachable_of_run
      (P := fun s => s.ending.isNone ∧ 0 < (s.groups ()).group.count ∧
        s.committedAt transactionIdStart = some 3 ∧
          s.undo (transactionIdStart + 1) = [⟨(), .push 0 [0], none⟩])
      (fun s op => op.OwnIdentifiers s)
      [.start, .beginCommit transactionIdStart, .append () (nthTransaction 0) 10,
        .beginStamping, .commitAppend (), .endCommit, .start, .deleteRows
          ⟨transactionIdStart + 1, 4, by decide, .inr (by decide), by decide⟩ () 0 [0]]
      emptyDatabase_reachable (by decide)
  exact ⟨s, reached, isNone_iff_eq_none.mp idle, rest⟩

/-- The first transaction commits at time 3. -/
theorem Database.commit_durable_rows : ∃ s, s.committedAt transactionIdStart = some 3 ∧
    ∀ s', Relation.ReflTransGen
      ((databaseMachine Unit).guarded fun s op => op.OwnIdentifiers s).step s s' →
        s'.committedAt transactionIdStart = some 3 ∧ ∀ k, transactionIdStart ∈ s.authors k →
          transactionIdStart ∈ s'.authors k ∧ s'.mark k = some 3 := by
  obtain ⟨s, reached, -, -, done, -⟩ := exists_pending_delete
  exact ⟨s, done, fun _ => Database.commit_durable reached done⟩

/-- The second transaction has deleted the first row. -/
theorem Database.pending_delete_exclusive_first : ∃ s : Database Unit,
    (∀ o, ∀ entry ∈ s.undo o, entry.Covers () 0 →
      o = transactionIdStart + 1 ∧ entry = ⟨(), .push 0 [0], none⟩) ∧
        ∀ o ∈ s.deletedBy () 0, s.committedAt o = none := by
  obtain ⟨s, reached, -, -, -, undo⟩ := exists_pending_delete
  exact ⟨s, Database.pending_delete_exclusive reached (undo ▸ List.mem_singleton_self _)
    ⟨rfl, by decide, by decide⟩⟩

/-- The first row of a row group after its commit. -/
theorem Database.identifiers_at_rest_first : ∃ s : Database Unit, s.ending = none ∧
    0 < (s.groups ()).group.count ∧
      s.committedAt (s.insertedBy () 0) = some (s.insertedAt () 0) := by
  obtain ⟨s, reached, idle, inside, -⟩ := exists_pending_delete
  exact ⟨s, idle, inside, (Database.identifiers_at_rest reached idle ()).1 inside⟩

/-- Ten committed rows, one of which is being deleted. -/
theorem Database.committed_row_count_ten : ∃ s : Database Unit, s.ending = none ∧
    (s.groups ()).group.getCommittedRowCount = (List.range (s.groups ()).group.count).countP
      fun row => ∀ id ∈ s.deletedBy () row, s.committedAt id = none := by
  obtain ⟨s, reached, idle, -⟩ := exists_pending_delete
  exact ⟨s, idle, Database.committed_row_count reached idle ()⟩

end AccessPath
