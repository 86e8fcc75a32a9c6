import Mathlib.Data.List.TakeWhile
import Mathlib.Tactic
import AccessPath.Library.System
import AccessPath.Constants

/-!
# The transaction manager

`duck_transaction_manager.cpp`, with the parts of `duck_transaction.cpp` and
`undo_buffer.cpp` that it looks at. Every operation runs under
`transaction_lock`, so each is one step.

The machine keeps a log of the clean-ups and releases, each with the
transactions that were active at that moment.
-/

namespace AccessPath

open Library List Nat Bool

/-! ## Transactions -/

inductive UndoFlags where
  | emptyEntry
  | catalogEntry
  | insertTuple
  | deleteTuple
  | updateTuple
  | sequenceValue
  deriving DecidableEq, Repr

/-- `UndoBufferProperties`, without what only the checkpoint decision reads. -/
structure UndoBufferProperties where
  hasUpdates : Bool
  hasCatalogChanges : Bool
  deriving DecidableEq, Repr

/-- `UndoBuffer::GetProperties`. -/
def getProperties (undoBuffer : List UndoFlags) : UndoBufferProperties where
  hasUpdates := undoBuffer.contains .updateTuple
  hasCatalogChanges := undoBuffer.contains .catalogEntry

/-- A transaction as the manager sees it: of the undo buffer the kinds of its
entries, of the local storage whether it holds anything. -/
structure DuckTransaction where
  startTime : Nat
  transactionId : Nat
  commitId : Nat
  highestActiveQuery : Nat
  activeQuery : Nat
  undoBuffer : List UndoFlags
  localChanges : Bool
  /-- The queries that were running when it was cleaned up or aborted. -/
  pinned : List Nat
  deriving DecidableEq, Repr

variable {store : Bool} {t transaction : DuckTransaction} {transactionId : Nat}

def DuckTransaction.new (startTime transactionId : Nat) : DuckTransaction where
  startTime := startTime
  transactionId := transactionId
  commitId := 0
  highestActiveQuery := 0
  activeQuery := maximumQueryId
  undoBuffer := []
  localChanges := false
  pinned := []

def DuckTransaction.changesMade (transaction : DuckTransaction) : Bool :=
  !transaction.undoBuffer.isEmpty || transaction.localChanges

/-- The queries that a list of active transactions is running. -/
def runningQueries (active : List DuckTransaction) : List Nat :=
  (active.map DuckTransaction.activeQuery).filter (· ≠ maximumQueryId)

/-- `DuckTransaction::Commit`: local storage is flushed, which records `flushed`
appends in the undo buffer; if that or what follows fails, the transaction is
rolled back and ends without a commit identifier. -/
def DuckTransaction.commit (transaction : DuckTransaction) (commitId flushed : Nat)
    (error : Bool) : DuckTransaction :=
  { transaction with
    commitId := if error then 0 else commitId
    undoBuffer := transaction.undoBuffer ++ replicate flushed .insertTuple
    localChanges := false }

/-- `DuckTransaction::Rollback`: local storage is dropped, the entries of the undo
buffer stay where they are. -/
def DuckTransaction.rollback (transaction : DuckTransaction) : DuckTransaction :=
  { transaction with localChanges := false }

/-! ## The manager -/

inductive GcEvent where
  | cleanup (transaction : DuckTransaction)
  | release (transaction : DuckTransaction)

/-- A clean-up or release, with the transactions that were active then. -/
structure GcRecord where
  event : GcEvent
  active : List DuckTransaction

structure DuckTransactionManager where
  currentStartTimestamp : Nat
  currentTransactionId : Nat
  lowestActiveId : Nat
  lowestActiveStart : Nat
  lastCommit : Nat
  activeTransactions : List DuckTransaction
  recentlyCommittedTransactions : List DuckTransaction
  oldTransactions : List DuckTransaction
  /-- `DatabaseManager::current_query_number`. -/
  currentQueryNumber : Nat
  log : List GcRecord

variable {manager manager' : DuckTransactionManager}

namespace DuckTransactionManager

def new : DuckTransactionManager where
  currentStartTimestamp := 2
  currentTransactionId := transactionIdStart
  lowestActiveId := transactionIdStart
  lowestActiveStart := maxTransactionId
  lastCommit := 0
  activeTransactions := []
  recentlyCommittedTransactions := []
  oldTransactions := []
  currentQueryNumber := 1
  log := []

def startTransaction (manager : DuckTransactionManager) :
    Except String (DuckTransactionManager × DuckTransaction) :=
  if transactionIdStart ≤ manager.currentStartTimestamp then
    .error "Cannot start more transactions, ran out of transaction identifiers!"
  else
    let startTime := manager.currentStartTimestamp
    let transactionId := manager.currentTransactionId
    let transaction := DuckTransaction.new startTime transactionId
    .ok ({ manager with
      currentStartTimestamp := startTime + 1
      currentTransactionId := transactionId + 1
      lowestActiveStart :=
        if manager.activeTransactions.isEmpty then startTime else manager.lowestActiveStart
      lowestActiveId :=
        if manager.activeTransactions.isEmpty then transactionId else manager.lowestActiveId
      activeTransactions := manager.activeTransactions ++ [transaction] }, transaction)

theorem startTransaction_ok (eq : manager.startTransaction = .ok (manager', transaction)) :
    manager.currentStartTimestamp < transactionIdStart ∧
      manager'.currentStartTimestamp = manager.currentStartTimestamp + 1 ∧
      manager'.currentTransactionId = manager.currentTransactionId + 1 ∧
      manager'.activeTransactions = manager.activeTransactions ++
        [.new manager.currentStartTimestamp manager.currentTransactionId] := by
  unfold startTransaction at eq
  split at eq
  · cases eq
  · rename_i room
    cases eq
    exact ⟨Nat.lt_of_not_le room, rfl, rfl, rfl⟩

def getCommitTimestamp (manager : DuckTransactionManager) : DuckTransactionManager × Nat :=
  let commitTs := manager.currentStartTimestamp
  ({ manager with currentStartTimestamp := commitTs + 1, lastCommit := commitTs }, commitTs)

/-- The transactions other than the one with a given identifier. -/
def others (manager : DuckTransactionManager) (transactionId : Nat) : List DuckTransaction :=
  manager.activeTransactions.filter (·.transactionId ≠ transactionId)

end DuckTransactionManager

/-- A transaction that waits for the queries that run now. -/
def DuckTransaction.pin (transaction : DuckTransaction) (currentQuery : Nat)
    (active : List DuckTransaction) : DuckTransaction :=
  { transaction with
    highestActiveQuery := currentQuery
    pinned := runningQueries active }

/-- The two lists that transactions wait in, and the log. -/
structure WaitingLists where
  recentlyCommitted : List DuckTransaction
  old : List DuckTransaction
  log : List GcRecord

/-- The first part of `RemoveTransaction`: where the transaction itself goes. One
that is not stored is destroyed when the function returns. -/
def storeTransaction (lists : WaitingLists) (transaction : DuckTransaction)
    (storeTransaction : Bool) (currentQuery : Nat) (active : List DuckTransaction) : WaitingLists :=
  if storeTransaction then
    if transaction.commitId ≠ 0 then
      { lists with recentlyCommitted := lists.recentlyCommitted ++ [transaction] }
    else
      { lists with old := lists.old ++ [transaction.pin currentQuery active] }
  else if transaction.changesMade then
    { lists with
      log := lists.log ++
        [⟨.cleanup transaction, active⟩,
          ⟨.release (transaction.pin currentQuery active), active⟩] }
  else if transaction.commitId = 0 then
    { lists with
      log := lists.log ++ [⟨.release (transaction.pin currentQuery active), active⟩] }
  else
    { lists with log := lists.log ++ [⟨.release transaction, active⟩] }

/-- The second part: clean up committed transactions from the front of the list
while they are older than every active one. -/
def cleanupCommitted (lists : WaitingLists) (lowestStartTime currentQuery : Nat)
    (active : List DuckTransaction) : WaitingLists :=
  let collected := lists.recentlyCommitted.takeWhile (·.commitId < lowestStartTime)
  { recentlyCommitted := lists.recentlyCommitted.dropWhile (·.commitId < lowestStartTime)
    old := lists.old ++ collected.map (·.pin currentQuery active)
    log := lists.log ++ collected.map fun t => ⟨.cleanup t, active⟩ }

/-- The third part: release memory from the front of the list while no query is
running that could still use it. -/
def releaseOld (lists : WaitingLists) (lowestActiveQuery : Nat)
    (active : List DuckTransaction) : WaitingLists :=
  let unused := fun t : DuckTransaction =>
    active.isEmpty || t.highestActiveQuery < lowestActiveQuery
  { lists with
    old := lists.old.dropWhile unused
    log := lists.log ++ (lists.old.takeWhile unused).map fun t => ⟨.release t, active⟩ }

def DuckTransactionManager.removeTransaction (manager : DuckTransactionManager)
    (transaction : DuckTransaction) (store : Bool) : DuckTransactionManager :=
  let others := manager.others transaction.transactionId
  let lowestStartTime := others.foldl (fun low t => min low t.startTime) transactionIdStart
  let lowestTransactionId := others.foldl (fun low t => min low t.transactionId) maxTransactionId
  let lowestActiveQuery := others.foldl (fun low t => min low t.activeQuery) maximumQueryId
  let currentQuery := manager.currentQueryNumber
  let lists : WaitingLists :=
    ⟨manager.recentlyCommittedTransactions, manager.oldTransactions, manager.log⟩
  let lists := storeTransaction lists transaction store currentQuery others
  let lists := cleanupCommitted lists lowestStartTime currentQuery others
  let lists := releaseOld lists lowestActiveQuery others
  { manager with
    lowestActiveStart := lowestStartTime
    lowestActiveId := lowestTransactionId
    activeTransactions := others
    recentlyCommittedTransactions := lists.recentlyCommitted
    oldTransactions := lists.old
    log := lists.log }

/-- `CommitTransaction` from the point where the commit identifier has been drawn. -/
def DuckTransactionManager.endCommit (manager : DuckTransactionManager)
    (transaction : DuckTransaction) (commitId flushed : Nat) (error : Bool) :
    DuckTransactionManager :=
  let undoProperties := getProperties transaction.undoBuffer
  let transaction := transaction.commit commitId flushed error
  let store := undoProperties.hasUpdates || undoProperties.hasCatalogChanges || error
  manager.removeTransaction transaction store

def DuckTransactionManager.commitTransaction (manager : DuckTransactionManager)
    (transaction : DuckTransaction) (flushed : Nat) (error : Bool) : DuckTransactionManager :=
  let (manager, commitId) := manager.getCommitTimestamp
  manager.endCommit transaction commitId flushed error

def DuckTransactionManager.rollbackTransaction (manager : DuckTransactionManager)
    (transaction : DuckTransaction) : DuckTransactionManager :=
  let transaction := transaction.rollback
  manager.removeTransaction transaction transaction.changesMade

/-! ## Runs -/

/-- What happens to the manager, and to its active transactions: they record
changes, in the undo buffer or in local storage, and begin and end queries. -/
inductive ManagerOp where
  | start
  | newQueryNumber
  | setActiveQuery (transactionId query : Nat)
  | pushUndo (transactionId : Nat) (entry : UndoFlags)
  | changeLocal (transactionId : Nat)
  | commit (transactionId flushed : Nat) (error : Bool)
  | rollback (transactionId : Nat)

variable {condition : DuckTransactionManager → ManagerOp → Prop} {op : ManagerOp}

def DuckTransactionManager.find (manager : DuckTransactionManager) (transactionId : Nat) :
    Option DuckTransaction :=
  manager.activeTransactions.find? (·.transactionId = transactionId)

/-- Change one active transaction. -/
def DuckTransactionManager.modify (manager : DuckTransactionManager) (transactionId : Nat)
    (change : DuckTransaction → DuckTransaction) : DuckTransactionManager :=
  { manager with
    activeTransactions := manager.activeTransactions.map fun t =>
      if t.transactionId = transactionId then change t else t }

/-- A commit flushes appends, and can fail, only if the transaction has changed
something; a query runs under a number that has been handed out. -/
def DuckTransactionManager.step (manager : DuckTransactionManager) :
    ManagerOp → Option DuckTransactionManager
  | .start =>
    match manager.startTransaction with
    | .error _ => none
    | .ok (manager, _) => some manager
  | .newQueryNumber =>
    some { manager with
      currentQueryNumber := (manager.currentQueryNumber + 1) % (maximumQueryId + 1) }
  | .setActiveQuery transactionId query =>
    if query = maximumQueryId ∨ query < manager.currentQueryNumber then
      some (manager.modify transactionId fun t => { t with activeQuery := query })
    else none
  | .pushUndo transactionId entry =>
    some (manager.modify transactionId fun t =>
      { t with undoBuffer := t.undoBuffer ++ [entry] })
  | .changeLocal transactionId =>
    some (manager.modify transactionId fun t => { t with localChanges := true })
  | .commit transactionId flushed error =>
    match manager.find transactionId with
    | none => none
    | some transaction =>
      if (0 < flushed → transaction.localChanges) ∧
          (error → transaction.changesMade) then
        some (manager.commitTransaction transaction flushed error)
      else none
  | .rollback transactionId =>
    match manager.find transactionId with
    | none => none
    | some transaction => some (manager.rollbackTransaction transaction)

def managerMachine : Machine DuckTransactionManager ManagerOp where
  init := fun manager => manager = .new
  step := DuckTransactionManager.step

/-! ## Safe collection -/

/-- A clean-up is safe if the transaction committed before every active one
started, a release if no query that it waited for is still running. -/
def GcRecord.Safe (record : GcRecord) : Prop :=
  match record.event with
  | .cleanup t => ∀ a ∈ record.active, t.commitId < a.startTime
  | .release t => ∀ q ∈ t.pinned, q ∉ runningQueries record.active

instance (record : GcRecord) : Decidable record.Safe := by
  unfold GcRecord.Safe
  split <;> infer_instance

structure DuckTransactionManager.Safe (manager : DuckTransactionManager) : Prop where
  collected : ∀ record ∈ manager.log, record.Safe
  ordered : manager.recentlyCommittedTransactions.Pairwise (·.commitId < ·.commitId)
  lowest : ∀ t ∈ manager.activeTransactions, manager.lowestActiveStart ≤ t.startTime

/-- A transaction that is not stored when it ends ends alone: a commit that
changed rows without updating any waits until no other transaction is active, a
rollback that has nothing to undo until no other transaction runs a query. The
64-bit query counter does not reach `MAXIMUM_QUERY_ID`. -/
def ManagerOp.EndsAlone (manager : DuckTransactionManager) : ManagerOp → Prop
  | .newQueryNumber => manager.currentQueryNumber + 1 < maximumQueryId
  | .commit transactionId _ error => ∀ t ∈ manager.find transactionId,
      error = false → t.changesMade = true → (getProperties t.undoBuffer).hasUpdates = false →
        (getProperties t.undoBuffer).hasCatalogChanges = false →
        manager.others transactionId = []
  | .rollback transactionId => ∀ t ∈ manager.find transactionId,
      t.undoBuffer = [] → runningQueries (manager.others transactionId) = []
  | _ => True

instance (manager : DuckTransactionManager) (op : ManagerOp) :
    Decidable (op.EndsAlone manager) := by
  unfold ManagerOp.EndsAlone
  split <;> infer_instance

theorem foldl_min_le {α : Type*} (measure : α → Nat) (l : List α) (bd : Nat) :
    l.foldl (fun low t => min low (measure t)) bd ≤ bd ∧
      ∀ t ∈ l, l.foldl (fun low t => min low (measure t)) bd ≤ measure t := by
  induction l generalizing bd with
  | nil => exact ⟨le_rfl, fun _ got => absurd got not_mem_nil⟩
  | cons head tail ih =>
    obtain ⟨lo, each⟩ := ih (min bd (measure head))
    refine ⟨lo.trans (min_le_left _ _), fun t got => ?_⟩
    rcases mem_cons.mp got with rfl | got
    · exact lo.trans (min_le_right _ _)
    · exact each t got

theorem mem_runningQueries {act : List DuckTransaction} {q : Nat} : q ∈ runningQueries act ↔
      (∃ t ∈ act, t.activeQuery = q) ∧ q ≠ maximumQueryId := by
  simp [runningQueries]

/-- The waiting lists between two steps, where `bound` is above every commit
identifier drawn so far. -/
structure WaitingLists.Sound (lists : WaitingLists) (bound : Nat) : Prop where
  committed_lt : ∀ t ∈ lists.recentlyCommitted, t.commitId < bound
  ordered : lists.recentlyCommitted.Pairwise (·.commitId < ·.commitId)
  pinned_lt : ∀ t ∈ lists.old, ∀ q ∈ t.pinned, q < t.highestActiveQuery
  logged : ∀ record ∈ lists.log, record.Safe

section

variable {lists : WaitingLists} {bd currentQuery : Nat} {active : List DuckTransaction}

/-- A pinned transaction waits for numbers that were drawn before. -/
theorem pin_lt (hrun : ∀ q ∈ runningQueries active, q < currentQuery)
    (tx : DuckTransaction) : ∀ q ∈ (tx.pin currentQuery active).pinned,
      q < (tx.pin currentQuery active).highestActiveQuery :=
  hrun

theorem storeTransaction_sound (ok : lists.Sound bd) {bd' : Nat} (grows : bd ≤ bd')
    (drawn : transaction.commitId = 0 ∨ bd ≤ transaction.commitId ∧ transaction.commitId < bd')
    (nil : transaction.pinned = []) (hrun : ∀ q ∈ runningQueries active, q < currentQuery)
    (turn : store = false → transaction.changesMade = true → active = [])
    (aborted : store = false → transaction.commitId = 0 → runningQueries active = []) :
    (storeTransaction lists transaction store currentQuery active).Sound bd' := by
  have committed_lt : ∀ t ∈ lists.recentlyCommitted, t.commitId < bd' := fun t got =>
    (ok.committed_lt t got).trans_le grows
  unfold storeTransaction
  split_ifs with sto done made unset
  · refine ⟨?_, ?_, ok.pinned_lt, ok.logged⟩
    · intro t got
      rcases mem_append.mp got with got | got
      · exact committed_lt t got
      · rw [mem_singleton.mp got]
        exact (drawn.resolve_left done).2
    · rw [pairwise_append]
      refine ⟨ok.ordered, pairwise_singleton _ _, fun t got last isLast => ?_⟩
      rw [mem_singleton.mp isLast]
      exact (ok.committed_lt t got).trans_le (drawn.resolve_left done).1
  · refine ⟨committed_lt, ok.ordered, fun t got => ?_, ok.logged⟩
    rcases mem_append.mp got with got | got
    · exact ok.pinned_lt t got
    · rw [mem_singleton.mp got]
      exact pin_lt hrun transaction
  · refine ⟨committed_lt, ok.ordered, ok.pinned_lt, fun rc got => ?_⟩
    have alone := turn (by simpa using sto) made
    rcases mem_append.mp got with got | got
    · exact ok.logged rc got
    · rw [alone] at got
      rcases mem_pair.mp got with rfl | rfl
      · exact fun _ impossible => absurd impossible not_mem_nil
      · exact fun _ _ => not_mem_nil
  · refine ⟨committed_lt, ok.ordered, ok.pinned_lt, fun rc got => ?_⟩
    rcases mem_append.mp got with got | got
    · exact ok.logged rc got
    · rw [mem_singleton.mp got]
      intro q pinned
      rw [show (transaction.pin currentQuery active).pinned = runningQueries active from rfl,
        aborted (by simpa using sto) unset] at pinned
      exact absurd pinned not_mem_nil
  · refine ⟨committed_lt, ok.ordered, ok.pinned_lt, fun rc got => ?_⟩
    rcases mem_append.mp got with got | got
    · exact ok.logged rc got
    · rw [mem_singleton.mp got]
      intro q pinned
      rw [nil] at pinned
      exact absurd pinned not_mem_nil

theorem cleanupCommitted_sound (ok : lists.Sound bd) {lowestStartTime : Nat}
    (lowest : ∀ a ∈ active, lowestStartTime ≤ a.startTime)
    (hrun : ∀ q ∈ runningQueries active, q < currentQuery) :
    (cleanupCommitted lists lowestStartTime currentQuery active).Sound bd := by
  have kept := dropWhile_sublist (l := lists.recentlyCommitted)
    fun t : DuckTransaction => decide (t.commitId < lowestStartTime)
  refine ⟨?_, ?_, ?_, ?_⟩
  · exact fun t got => ok.committed_lt t (kept.subset got)
  · exact ok.ordered.sublist kept
  · intro t got
    rcases mem_append.mp got with got | got
    · exact ok.pinned_lt t got
    · obtain ⟨transaction, -, rfl⟩ := List.mem_map.mp got
      exact pin_lt hrun transaction
  · intro rc got
    rcases mem_append.mp got with got | got
    · exact ok.logged rc got
    · obtain ⟨transaction, collected, rfl⟩ := List.mem_map.mp got
      have older : transaction.commitId < lowestStartTime := by
        simpa using mem_takeWhile_imp collected
      exact fun a act => older.trans_le (lowest a act)

theorem releaseOld_sound (ok : lists.Sound bd) {lowestActiveQuery : Nat}
    (lowest : ∀ a ∈ active, lowestActiveQuery ≤ a.activeQuery) :
    (releaseOld lists lowestActiveQuery active).Sound bd := by
  refine ⟨ok.committed_lt, ok.ordered, ?_, ?_⟩
  · exact fun t got => ok.pinned_lt t ((dropWhile_sublist _).subset got)
  · intro rc got
    rcases mem_append.mp got with got | got
    · exact ok.logged rc got
    · obtain ⟨transaction, released, rfl⟩ := List.mem_map.mp got
      have isOld := (takeWhile_sublist _).subset released
      intro q pinned isRunning
      obtain ⟨⟨a, act, rfl⟩, -⟩ := mem_runningQueries.mp isRunning
      have hu := mem_takeWhile_imp released
      simp only [or_eq_true, List.isEmpty_iff, decide_eq_true_eq] at hu
      rcases hu with none | _
      · exact absurd act (none ▸ not_mem_nil)
      · have := ok.pinned_lt transaction isOld _ pinned
        have := lowest a act
        omega

end

namespace DuckTransactionManager

/-! ## Every run -/

structure Sound (manager : DuckTransactionManager) : Prop where
  startTime_lt : ∀ t ∈ manager.activeTransactions, t.startTime < manager.currentStartTimestamp
  uncommitted : ∀ t ∈ manager.activeTransactions, t.commitId = 0 ∧ t.pinned = []
  running_lt : ∀ t ∈ manager.activeTransactions,
    t.activeQuery = maximumQueryId ∨ t.activeQuery < manager.currentQueryNumber
  lowest : ∀ t ∈ manager.activeTransactions, manager.lowestActiveStart ≤ t.startTime
  waiting : WaitingLists.Sound
    ⟨manager.recentlyCommittedTransactions, manager.oldTransactions, manager.log⟩
    manager.currentStartTimestamp

theorem Sound.safe (ok : manager.Sound) : manager.Safe :=
  ⟨ok.waiting.logged, ok.waiting.ordered, ok.lowest⟩

theorem sound_new : new.Sound where
  startTime_lt := fun _ got => absurd got not_mem_nil
  uncommitted := fun _ got => absurd got not_mem_nil
  running_lt := fun _ got => absurd got not_mem_nil
  lowest := fun _ got => absurd got not_mem_nil
  waiting :=
    { committed_lt := fun _ got => absurd got not_mem_nil
      ordered := List.Pairwise.nil
      pinned_lt := fun _ got => absurd got not_mem_nil
      logged := fun _ got => absurd got not_mem_nil }

section

variable {m m' : DuckTransactionManager}

theorem Sound.startTransaction (ok : m.Sound)
    (eq : m.startTransaction = .ok (m', transaction)) : m'.Sound := by
  unfold DuckTransactionManager.startTransaction at eq
  split at eq
  · cases eq
  cases eq
  have hl : ∀ t ∈ m.activeTransactions,
      t.startTime < m.currentStartTimestamp := ok.startTime_lt
  refine ⟨?_, ?_, ?_, ?_, ?_⟩
  · intro t got
    rcases mem_append.mp got with got | got
    · exact (hl t got).trans (lt_succ_self _)
    · rw [mem_singleton.mp got]
      exact lt_succ_self _
  · intro t got
    rcases mem_append.mp got with got | got
    · exact ok.uncommitted t got
    · rw [mem_singleton.mp got]
      exact ⟨rfl, rfl⟩
  · intro t got
    rcases mem_append.mp got with got | got
    · exact ok.running_lt t got
    · rw [mem_singleton.mp got]
      exact .inl rfl
  · -- the cached minimum is renewed only for the first active transaction
    intro t got
    simp only
    rcases mem_append.mp got with got | got
    · rw [if_neg (by simpa using ne_nil_of_mem got)]
      exact ok.lowest t got
    · rw [mem_singleton.mp got]
      cases existing : m.activeTransactions with
      | nil => exact le_rfl
      | cons fst rest =>
        have isFirst : fst ∈ m.activeTransactions := existing ▸ mem_cons_self
        exact (ok.lowest fst isFirst).trans (hl fst isFirst).le
  · exact { ok.waiting with
      committed_lt := fun t got =>
        (ok.waiting.committed_lt t got).trans (lt_succ_self _) }

theorem Sound.modify (ok : m.Sound) (tid : Nat) {change : DuckTransaction → DuckTransaction}
    (startTime_eq : ∀ t, (change t).startTime = t.startTime)
    (commitId_eq : ∀ t, (change t).commitId = t.commitId)
    (pinned_eq : ∀ t, (change t).pinned = t.pinned)
    (hrun : ∀ t ∈ m.activeTransactions, (change t).activeQuery = maximumQueryId ∨
      (change t).activeQuery < m.currentQueryNumber) : (m.modify tid change).Sound := by
  have origin : ∀ t ∈ (m.modify tid change).activeTransactions,
      ∃ pre ∈ m.activeTransactions, t.startTime = pre.startTime ∧
        t.commitId = pre.commitId ∧ t.pinned = pre.pinned ∧
        (t.activeQuery = maximumQueryId ∨ t.activeQuery < m.currentQueryNumber) := by
    intro t got
    obtain ⟨pre, act, rfl⟩ := List.mem_map.mp got
    refine ⟨pre, act, ?_⟩
    split
    · exact ⟨startTime_eq _, commitId_eq _, pinned_eq _, hrun pre act⟩
    · exact ⟨rfl, rfl, rfl, ok.running_lt pre act⟩
  refine ⟨?_, ?_, ?_, ?_, ok.waiting⟩
  · intro t got
    obtain ⟨pre, act, same, -⟩ := origin t got
    exact same ▸ ok.startTime_lt pre act
  · intro t got
    obtain ⟨pre, act, -, commitId, pinned, -⟩ := origin t got
    rw [commitId, pinned]
    exact ok.uncommitted pre act
  · intro t got
    obtain ⟨-, -, -, -, -, known⟩ := origin t got
    exact known
  · intro t got
    obtain ⟨pre, act, same, -⟩ := origin t got
    exact same ▸ ok.lowest pre act

theorem mem_of_find (got : m.find transactionId = some t) :
    t ∈ m.activeTransactions ∧ t.transactionId = transactionId :=
  ⟨mem_of_find?_eq_some got, by simpa using find?_some got⟩

theorem Sound.runningQueries_lt (ok : m.Sound) (tid : Nat) :
    ∀ q ∈ runningQueries (m.others tid), q < m.currentQueryNumber := by
  intro q isRunning
  obtain ⟨⟨t, isOther, rfl⟩, proper⟩ := mem_runningQueries.mp isRunning
  exact (ok.running_lt t (mem_of_mem_filter isOther)).resolve_left proper

/-- `RemoveTransaction` keeps the invariant if a transaction that is not stored
ends alone. -/
theorem Sound.removeTransaction (ok : m.Sound)
    {tx : DuckTransaction} {store : Bool} {bd : Nat}
    (grows : bd ≤ m.currentStartTimestamp) (waiting : WaitingLists.Sound
      ⟨m.recentlyCommittedTransactions, m.oldTransactions, m.log⟩ bd)
    (drawn : tx.commitId = 0 ∨ bd ≤ tx.commitId ∧
      tx.commitId < m.currentStartTimestamp) (nil : tx.pinned = [])
    (turn : store = false → tx.changesMade = true → m.others tx.transactionId = [])
    (aborted : store = false → tx.commitId = 0 → runningQueries (m.others tx.transactionId) = []) :
    (m.removeTransaction tx store).Sound := by
  have hrun := ok.runningQueries_lt tx.transactionId
  have lowestStart := (foldl_min_le DuckTransaction.startTime
    (m.others tx.transactionId) transactionIdStart).2
  have lowestQuery := (foldl_min_le DuckTransaction.activeQuery
    (m.others tx.transactionId) maximumQueryId).2
  have sto := storeTransaction_sound waiting grows drawn nil hrun turn aborted
  have cleaned := cleanupCommitted_sound sto lowestStart hrun
  have released := releaseOld_sound cleaned lowestQuery
  refine ⟨?_, ?_, ?_, ?_, released⟩
  · exact fun t got => ok.startTime_lt t (mem_of_mem_filter got)
  · exact fun t got => ok.uncommitted t (mem_of_mem_filter got)
  · exact fun t got => ok.running_lt t (mem_of_mem_filter got)
  · exact lowestStart

theorem Sound.getCommitTimestamp (ok : m.Sound) : m.getCommitTimestamp.1.Sound where
  startTime_lt := fun t got => (ok.startTime_lt t got).trans (lt_succ_self _)
  uncommitted := ok.uncommitted
  running_lt := ok.running_lt
  lowest := ok.lowest
  waiting :=
    { ok.waiting with
      committed_lt := fun t got =>
        (ok.waiting.committed_lt t got).trans (lt_succ_self _) }

theorem Sound.commitTransaction (ok : m.Sound) {fl : Nat} {error : Bool}
    (got : m.find transactionId = some transaction)
    (flushes : 0 < fl → transaction.localChanges = true)
    (alone : (ManagerOp.commit transactionId fl error).EndsAlone m)
    (pos : 0 < m.currentStartTimestamp) :
    (m.commitTransaction transaction fl error).Sound := by
  obtain ⟨act, rfl⟩ := m.mem_of_find got
  have ends := alone transaction got
  refine ok.getCommitTimestamp.removeTransaction (le_succ _) ok.waiting ?_
    (ok.uncommitted transaction act).2 ?_ ?_
  · unfold DuckTransaction.commit
    split
    · exact .inl rfl
    · exact .inr ⟨le_rfl, lt_succ_self _⟩
  · intro hdr hch
    simp only [or_eq_false_iff] at hdr
    refine ends hdr.2 ?_ hdr.1.1 hdr.1.2
    -- a transaction that has changes after the flush had some before
    cases localStorage : transaction.localChanges with
    | true => simp [DuckTransaction.changesMade, localStorage]
    | false =>
      have : fl = 0 := by
        by_contra positive
        simp [flushes (Nat.pos_of_ne_zero positive)] at localStorage
      simpa [DuckTransaction.changesMade, DuckTransaction.commit, this, localStorage] using hch
  · intro hdr unset
    simp only [or_eq_false_iff] at hdr
    simp only [DuckTransaction.commit, hdr.2] at unset
    exact absurd unset pos.ne'

theorem Sound.rollbackTransaction (ok : m.Sound)
    (got : m.find transactionId = some transaction)
    (alone : (ManagerOp.rollback transactionId).EndsAlone m) :
    (m.rollbackTransaction transaction).Sound := by
  obtain ⟨act, rfl⟩ := m.mem_of_find got
  obtain ⟨uncommitted, hfr⟩ := ok.uncommitted transaction act
  refine ok.removeTransaction le_rfl ok.waiting (.inl uncommitted) hfr ?_ ?_
  · intro hdr hch
    exact absurd hch (by simp [hdr])
  · intro hdr _
    refine alone transaction got ?_
    simpa [DuckTransaction.changesMade, DuckTransaction.rollback] using hdr

end

/-- Both counters stay far below `2^64`: commit identifiers are drawn only by
transactions that have started, and none starts past `transactionIdStart`. -/
structure Counted (manager : DuckTransactionManager) : Prop where
  active_le : manager.activeTransactions.length + 2 ≤ manager.currentStartTimestamp
  timestamp_le : manager.currentStartTimestamp + manager.activeTransactions.length ≤
    2 * transactionIdStart
  id_le : manager.currentTransactionId + 2 ≤ transactionIdStart + manager.currentStartTimestamp
  id_lt : manager.currentTransactionId + 2 ≤ 2 * transactionIdStart

theorem others_length (got : manager.find transactionId = some t) :
    (manager.others t.transactionId).length < manager.activeTransactions.length := by
  obtain ⟨act, rfl⟩ := manager.mem_of_find got
  refine length_filter_lt_length_iff_exists.mpr ⟨t, act, ?_⟩
  simp

theorem Counted.step (eq : manager.Counted) (run : manager.step op = some manager') :
    manager'.Counted := by
  obtain ⟨active_le, timestamp_le, id_le, id_lt⟩ := eq
  cases op with
  | start =>
    simp only [DuckTransactionManager.step, DuckTransactionManager.startTransaction] at run
    split at run
    · cases run
    rename_i ok
    split at ok
    · cases ok
    rename_i lo
    cases ok
    cases run
    constructor <;> simp only [length_append, length_singleton] <;> omega
  | newQueryNumber =>
    cases run
    exact ⟨active_le, timestamp_le, id_le, id_lt⟩
  | setActiveQuery transactionId query =>
    simp only [DuckTransactionManager.step] at run
    split at run
    · cases run
      constructor <;> simpa [modify]
    · cases run
  | pushUndo _ _ | changeLocal _ =>
    cases run
    constructor <;> simpa [modify]
  | commit transactionId hfl error =>
    simp only [DuckTransactionManager.step] at run
    split at run
    · cases run
    rename_i transaction got
    split at run
    · cases run
      have fewer := others_length got
      have remaining : (manager.commitTransaction transaction hfl
        error).activeTransactions = manager.others transaction.transactionId := rfl
      rw [← remaining] at fewer
      have drawn : (manager.commitTransaction transaction hfl
        error).currentStartTimestamp = manager.currentStartTimestamp + 1 := rfl
      have same : (manager.commitTransaction transaction hfl
        error).currentTransactionId = manager.currentTransactionId := rfl
      constructor <;> omega
    · cases run
  | rollback transactionId =>
    simp only [DuckTransactionManager.step] at run
    split at run
    · cases run
    rename_i transaction got
    cases run
    have fewer := others_length got
    have remaining : (manager.rollbackTransaction transaction).activeTransactions =
        manager.others transaction.transactionId := rfl
    rw [← remaining] at fewer
    have kept : (manager.rollbackTransaction transaction).currentStartTimestamp =
        manager.currentStartTimestamp := rfl
    have same : (manager.rollbackTransaction transaction).currentTransactionId =
        manager.currentTransactionId := rfl
    constructor <;> omega

theorem counted_of_reachable (reached : (managerMachine.guarded condition).Reachable manager) :
    manager.Counted := by
  refine reached.invariant ?_ ?_
  · rintro _ rfl
    constructor <;> decide
  · rintro _ _ - hc ⟨_, -, run⟩
    exact hc.step run

theorem Sound.step (ok : manager.Sound) (eq : manager.Counted)
    (alone : op.EndsAlone manager) (run : manager.step op = some manager') : manager'.Sound := by
  cases op with
  | start =>
    simp only [DuckTransactionManager.step] at run
    split at run
    · cases run
    rename_i hst
    cases run
    exact ok.startTransaction hst
  | newQueryNumber =>
    cases run
    have unwrapped : (manager.currentQueryNumber + 1) % (maximumQueryId + 1) =
        manager.currentQueryNumber + 1 := mod_eq_of_lt (lt_succ_of_lt alone)
    refine ⟨ok.startTime_lt, ok.uncommitted, fun t got => ?_, ok.lowest, ok.waiting⟩
    refine (ok.running_lt t got).imp_right fun lo => ?_
    simp only [unwrapped]
    omega
  | setActiveQuery transactionId query =>
    simp only [DuckTransactionManager.step] at run
    split_ifs at run with known
    cases run
    exact ok.modify transactionId (fun _ => rfl) (fun _ => rfl) (fun _ => rfl) fun _ _ => known
  | pushUndo transactionId _ | changeLocal transactionId =>
    cases run
    exact ok.modify transactionId (fun _ => rfl) (fun _ => rfl) (fun _ => rfl) ok.running_lt
  | commit transactionId hfl error =>
    simp only [DuckTransactionManager.step] at run
    split at run
    · cases run
    rename_i transaction got
    split_ifs at run with allowed
    cases run
    have hst : 0 < manager.currentStartTimestamp := by
      have := eq.active_le
      omega
    exact ok.commitTransaction got allowed.1 alone hst
  | rollback transactionId =>
    simp only [DuckTransactionManager.step] at run
    split at run
    · cases run
    rename_i transaction got
    cases run
    exact ok.rollbackTransaction got alone

/-- In every run whose unstored transactions end alone, all clean-ups and
releases so far were safe, the list of recent commits is ordered by commit
identifier, and the cached minimum is a lower bound of the active start times. -/
theorem collects_safely {manager : DuckTransactionManager}
    (reached : (managerMachine.guarded fun manager op => op.EndsAlone manager).Reachable
      manager) : manager.Safe := by
  suffices sound : manager.Sound from sound.safe
  refine reached.invariant ?_ ?_
  · rintro _ rfl
    exact sound_new
  · rintro _ _ earlier sound ⟨_, alone, stepped⟩
    exact sound.step (counted_of_reachable earlier) alone stepped

end DuckTransactionManager

/-- Two overlapping transactions, the second of which updates and commits, with a
third that keeps a query running: the update is cleaned up when the first ends,
and released when the query has ended. -/
def updateRun : List ManagerOp :=
  let first := transactionIdStart
  let second := transactionIdStart + 1
  let third := transactionIdStart + 2
  [.start, .start, .pushUndo second .updateTuple, .commit second 0 false, .start,
    .newQueryNumber, .setActiveQuery third 1, .commit first 0 false, .start,
    .setActiveQuery third maximumQueryId, .commit (transactionIdStart + 3) 0 false,
    .commit third 0 false]

theorem DuckTransactionManager.new_reachable : (managerMachine.guarded condition).Reachable .new :=
  .init rfl

/-- The run `updateRun` cleans up and releases. -/
theorem DuckTransactionManager.collects_safely_update : ∃ manager : DuckTransactionManager,
      (managerMachine.guarded fun manager op => op.EndsAlone manager).Reachable manager ∧
      manager.log.length = 5 ∧ manager.Safe := by
  obtain ⟨manager, reached, logged⟩ := managerMachine.exists_reachable_of_run
    (P := fun manager => manager.log.length = 5) (fun manager op => op.EndsAlone manager)
    updateRun DuckTransactionManager.new_reachable (by decide)
  exact ⟨manager, reached, logged, DuckTransactionManager.collects_safely reached⟩

/-- A transaction deletes a row and commits while an older one is active. It is not
stored, and its undo buffer is cleaned up at once. -/
theorem DuckTransactionManager.collects_safely_deleted : ∃ manager : DuckTransactionManager,
      managerMachine.system.Reachable manager ∧ ¬ manager.Safe := by
  obtain ⟨manager, reached, unsafely⟩ := managerMachine.exists_reachable_of_run
    (P := fun manager => ∃ record ∈ manager.log, ¬ record.Safe) (fun _ _ => True)
    [.start, .start, .pushUndo (transactionIdStart + 1) .deleteTuple,
      .commit (transactionIdStart + 1) 0 false]
    DuckTransactionManager.new_reachable (by decide)
  obtain ⟨record, logged, isUnsafe⟩ := unsafely
  exact ⟨manager, reached, fun safe => isUnsafe (safe.collected record logged)⟩

end AccessPath
