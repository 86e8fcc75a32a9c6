import AccessPath.Transaction.Header
import AccessPath.Version.Shortcuts

/-!
# Transactions over row groups

A transaction deletes rows while it runs. Its inserts stay in local storage
until it commits, when `LocalStorage::Flush` appends them to the row groups;
the undo buffer then replaces identifiers entry by entry (`commit_state.cpp`),
or takes them back entry by entry if anything fails (`rollback_state.cpp`).
Both hold `transaction_lock` from beginning to end; running transactions do
not take it, and read and delete between any two of the steps below.
-/

namespace AccessPath

open Library Function

/-! ## States -/

/-- A `DELETE_TUPLE` entry of an undo buffer, with the commit identifier that its
rows carry at the moment, if it is not the transaction's. -/
structure UndoDelete (γ : Type) where
  group : γ
  info : DeleteInfo
  stamp : Option Nat
  deriving DecidableEq

def UndoDelete.Covers {γ : Type} (entry : UndoDelete γ) (g : γ) (row : Nat) : Prop :=
  entry.group = g ∧ row / standardVectorSize = entry.info.vectorIdx ∧
    row % standardVectorSize ∈ entry.info.targets

/-- The transaction that holds `transaction_lock` to end: it is flushing its local
storage, replacing identifiers, or rolling back. `pieces` are the row groups it
has appended to. -/
structure TransactionEnd (γ : Type) where
  transaction : DuckTransaction
  commitId : Option Nat
  phase : Phase
  pieces : List γ

structure Database (γ : Type) where
  manager : DuckTransactionManager
  groups : γ → VersionState
  undo : Nat → List (UndoDelete γ)
  /-- Transactions that met a conflict; they can only be rolled back. -/
  failed : List Nat
  ending : Option (TransactionEnd γ)
  insertedBy : γ → Nat → Nat
  deletedBy : γ → Nat → List Nat
  committedAt : Nat → Option Nat

variable {γ : Type}

def Database.insertedAt (s : Database γ) (g : γ) (row : Nat) : Nat :=
  (s.groups g).group.versionInfo.insertedAt row

def Database.deletedAt (s : Database γ) (g : γ) (row : Nat) : Nat :=
  (s.groups g).group.versionInfo.deletedAt row

def Database.Active (s : Database γ) (transaction : TransactionData) : Prop :=
  ∃ t ∈ s.manager.activeTransactions,
    t.transactionId = transaction.transactionId ∧ t.startTime = transaction.startTime

instance (s : Database γ) (transaction : TransactionData) : Decidable (s.Active transaction) :=
  inferInstanceAs (Decidable (∃ t ∈ s.manager.activeTransactions, _))

def Database.endingId (s : Database γ) : Option Nat :=
  s.ending.map fun e => e.transaction.transactionId

/-- A row that the transaction has come across in a scan: it sees the row, or has
deleted it since. -/
def Database.Met (s : Database γ) (transaction : TransactionData) (g : γ) (row : Nat) : Prop :=
  (s.groups g).group.versionInfo.fetch transaction row = true ∨
    s.deletedAt g row = transaction.transactionId

instance (s : Database γ) (transaction : TransactionData) (g : γ) (row : Nat) :
    Decidable (s.Met transaction g row) :=
  inferInstanceAs (Decidable (_ ∨ _))

/-- The row is among those that `GetSelVector` selects for the transaction, asked
for all rows of its vector. -/
def Database.Sees (s : Database γ) (transaction : TransactionData) (g : γ) (row : Nat) : Prop :=
  let vectorIdx := row / standardVectorSize
  let maxCount := rowsInVector (s.groups g).group.count vectorIdx
  row % standardVectorSize ∈
    ((s.groups g).group.versionInfo.getSelVector transaction vectorIdx maxCount).rows maxCount

instance (s : Database γ) (transaction : TransactionData) (g : γ) (row : Nat) :
    Decidable (s.Sees transaction g row) :=
  inferInstanceAs (Decidable (_ ∈ _))

/-! ## Steps -/

inductive DatabaseOp (γ : Type) where
  | start
  | deleteRows (transaction : TransactionData) (g : γ) (vectorIdx : Nat) (rows : List Nat)
  | beginCommit (transactionId : Nat)
  | append (g : γ) (data : TransactionData) (count : Nat)
  | beginStamping
  | commitAppend (g : γ)
  | commitDelete (entry : UndoDelete γ)
  | endCommit
  | failCommit
  | beginRollback (transactionId : Nat)
  | revertAppend (g : γ)
  | revertDelete (entry : UndoDelete γ)
  | rollbackDelete (entry : UndoDelete γ)
  | endRollback

/-- A number is drawn from the counter of start times and commit identifiers. -/
def Database.draw (s : Database γ) (manager : DuckTransactionManager) : Database γ := { s with
    manager := manager
    groups := fun g => { s.groups g with clock := (s.groups g).clock + 1 } }

/-- The appends of the transaction that ends are over, in every row group. -/
def Database.settle (s : Database γ) : Database γ := { s with
    groups := fun g => { s.groups g with
        appendStart := (s.groups g).group.count
        appendCommitted := false }
    ending := none }

/-- What a delete leaves behind: an undo entry if it went through and deleted
anything, an invalidated transaction if it met a conflict. -/
def Database.pushDelete (s : Database γ) (transactionId : Nat) (g : γ) (vectorIdx : Nat) :
    Except String (List Nat) → Database γ
  | .ok [] => s
  | .ok (row :: rows) =>
    { s with
      undo := update s.undo transactionId
        (⟨g, DeleteInfo.push vectorIdx (row :: rows), none⟩ :: s.undo transactionId)
      manager := s.manager.modify transactionId fun t =>
        { t with undoBuffer := t.undoBuffer ++ [.deleteTuple] } }
  | .error _ => { s with failed := transactionId :: s.failed }

section

variable [DecidableEq γ]

def Database.setGroup (s : Database γ) (g : γ) (group : VersionState) : Database γ :=
  { s with groups := update s.groups g group }

/-- `DataTable::Delete` on the rows of one vector. -/
def Database.deleteRows (s : Database γ) (transaction : TransactionData) (g : γ)
    (vectorIdx : Nat) (rows : List Nat) (group : VersionState) : Database γ :=
  let before := s.deletedAt g
  let after := group.group.versionInfo.deletedAt
  ({ s.setGroup g group with
    deletedBy := fun g' row =>
      if g' = g ∧ after row ≠ before row then transaction.transactionId :: s.deletedBy g' row
      else s.deletedBy g' row }).pushDelete transaction.transactionId g vectorIdx
        ((s.groups g).group.versionInfo.deleteRows vectorIdx transaction.transactionId rows).2

/-- A row group receives rows of the transaction that commits. -/
def Database.append (s : Database γ) (e : TransactionEnd γ) (g : γ) (group : VersionState) :
    Database γ :=
  let isNew := fun g' row => g' = g ∧ (s.groups g).group.count ≤ row ∧ row < group.group.count
  { s.setGroup g group with
    ending := some { e with pieces := g :: e.pieces }
    insertedBy := fun g' row =>
      if isNew g' row then e.transaction.transactionId else s.insertedBy g' row
    deletedBy := fun g' row => if isNew g' row then [] else s.deletedBy g' row }

/-- The rows of an undo entry now carry another identifier. -/
def Database.restamp (s : Database γ) (transactionId : Nat) (entry : UndoDelete γ)
    (stamp : Option Nat) (group : VersionState) : Database γ :=
  { s.setGroup entry.group group with
    undo := update s.undo transactionId ((s.undo transactionId).map fun other =>
        if other = entry then { entry with stamp := stamp } else other) }

/-- One step. What a row group does is a step of its own machine; it is not taken
if that one refuses it. -/
def Database.step (s : Database γ) : DatabaseOp γ → Option (Database γ)
  | .start =>
    match s.ending, s.manager.startTransaction with
    | none, .ok (manager, _) => some (s.draw manager)
    | _, _ => none
  | .deleteRows transaction g vectorIdx rows =>
    if s.Active transaction ∧ s.endingId ≠ some transaction.transactionId ∧ rows ≠ [] ∧
        ∀ row ∈ rows, s.Met transaction g (vectorIdx * standardVectorSize + row) then
      ((s.groups g).step (.deleteRows vectorIdx transaction rows)).map
        (s.deleteRows transaction g vectorIdx rows)
    else none
  | .beginCommit transactionId =>
    match s.ending, s.manager.find transactionId with
    | none, some transaction =>
      if transactionId ∈ s.failed then none
      else
        let (manager, commitId) := s.manager.getCommitTimestamp
        some { s.draw manager with ending := some ⟨transaction, some commitId, .working, []⟩ }
    | _, _ => none
  | .append g data count =>
    s.ending.bind fun e =>
      if e.phase = .working ∧
          (data.transactionId = e.transaction.transactionId ∨ data.transactionId = 0) then
        ((s.groups g).step (.append data count)).map (s.append e g)
      else none
  | .beginStamping =>
    s.ending.bind fun e =>
      if e.phase = .working then some { s with ending := some { e with phase := .stamping } }
      else none
  | .commitAppend g =>
    s.ending.bind fun e =>
      if e.phase = .stamping ∧ g ∈ e.pieces then
        e.commitId.bind fun commitId =>
          ((s.groups g).step (.commitAppend commitId)).map (s.setGroup g)
      else none
  | .commitDelete entry =>
    s.ending.bind fun e =>
      let transactionId := e.transaction.transactionId
      if e.phase = .stamping ∧ entry ∈ s.undo transactionId ∧ entry.stamp = none then
        e.commitId.bind fun commitId =>
          ((s.groups entry.group).step (.commitDelete entry.info commitId)).map
            (s.restamp transactionId entry (some commitId))
      else none
  | .endCommit =>
    s.ending.bind fun e =>
      let transactionId := e.transaction.transactionId
      if e.phase = .stamping ∧ (∀ entry ∈ s.undo transactionId, entry.stamp ≠ none) ∧
          ∀ g ∈ e.pieces, (s.groups g).appendCommitted = true then
        e.commitId.map fun commitId => { s.settle with
            manager := s.manager.endCommit e.transaction commitId e.pieces.length false
            undo := update s.undo transactionId []
            committedAt := update s.committedAt transactionId (some commitId) }
      else none
  | .failCommit =>
    s.ending.bind fun e =>
      if e.phase ≠ .undoing then some { s with ending := some { e with phase := .undoing } }
      else none
  | .beginRollback transactionId =>
    match s.ending, s.manager.find transactionId with
    | none, some transaction =>
      some { s with ending := some ⟨transaction, none, .undoing, []⟩ }
    | _, _ => none
  | .revertAppend g =>
    s.ending.bind fun e =>
      if e.phase = .undoing ∧ g ∈ e.pieces then
        ((s.groups g).step .revertAppend).map (s.setGroup g)
      else none
  | .revertDelete entry =>
    s.ending.bind fun e =>
      let transactionId := e.transaction.transactionId
      if e.phase = .undoing ∧ entry ∈ s.undo transactionId ∧ entry.stamp ≠ none then
        ((s.groups entry.group).step (.commitDelete entry.info transactionId)).map
          (s.restamp transactionId entry none)
      else none
  | .rollbackDelete entry =>
    s.ending.bind fun e =>
      let transactionId := e.transaction.transactionId
      if e.phase = .undoing ∧ entry ∈ s.undo transactionId ∧ entry.stamp = none then
        ((s.groups entry.group).step (.commitDelete entry.info notDeletedId)).map fun group =>
          { s.setGroup entry.group group with
            undo := update s.undo transactionId ((s.undo transactionId).erase entry) }
      else none
  | .endRollback =>
    s.ending.bind fun e =>
      if e.phase = .undoing ∧ s.undo e.transaction.transactionId = [] ∧
          ∀ g ∈ e.pieces, (s.groups g).group.count = (s.groups g).appendStart then
        some { s.settle with
          manager := match e.commitId with
            | some commitId =>
              s.manager.endCommit e.transaction commitId e.pieces.length true
            | none => s.manager.rollbackTransaction e.transaction }
      else none

/-- A row group as it is opened: stored rows, some of which may have been deleted
before the last checkpoint. -/
def VersionState.Opened (group : VersionState) : Prop :=
  (∀ v info, group.group.versionInfo.vectorInfo v = some info → info.Loaded) ∧
    group.group.count ≤ rowGroupSize ∧
    (∀ row, group.group.count ≤ row → group.group.versionInfo.deletedAt row = notDeletedId) ∧
    group.appendStart = group.group.count ∧ group.appendCommitted = false ∧
    group.records = [] ∧ group.clock = DuckTransactionManager.new.currentStartTimestamp

/-- The database is opened and no transaction has started. Stored rows count as
inserted, and their stored deletes as made, by a transaction zero that
committed at time zero. -/
def Database.opened (groups : γ → VersionState) : Database γ where
  manager := .new
  groups := groups
  undo := fun _ => []
  failed := []
  ending := none
  insertedBy := fun _ _ => 0
  deletedBy := fun g row => if (groups g).group.versionInfo.deletedAt row = 0 then [0] else []
  committedAt := fun id => if id = 0 then some 0 else none

def databaseMachine (γ : Type) [DecidableEq γ] : Machine (Database γ) (DatabaseOp γ) where
  init := fun s => ∃ groups : γ → VersionState, (∀ g, (groups g).Opened) ∧ s = .opened groups
  step := Database.step

end

/-! ## The snapshot of a transaction -/

def Database.CommittedBefore (s : Database γ) (transactionId start : Nat) : Prop :=
  ∃ time, s.committedAt transactionId = some time ∧ time < start

/-- What a transaction should see: the rows whose insert committed before it
started and its own inserts, without the rows whose delete committed before it
started and its own deletes. -/
def Database.Snapshot (s : Database γ) (transaction : TransactionData) (g : γ) (row : Nat) : Prop :=
  row < (s.groups g).group.count ∧ (s.insertedBy g row = transaction.transactionId ∨
      s.CommittedBefore (s.insertedBy g row) transaction.startTime) ∧
    ∀ deleter ∈ s.deletedBy g row, deleter ≠ transaction.transactionId ∧
      ¬ s.CommittedBefore deleter transaction.startTime

/-- A transaction reads from its start until it begins to replace or take back the
identifiers it has written. -/
def Database.Reading (s : Database γ) (transaction : TransactionData) : Prop :=
  s.Active transaction ∧
    ∀ e ∈ s.ending, e.transaction.transactionId = transaction.transactionId → e.phase = .working

instance (s : Database γ) (transaction : TransactionData) : Decidable (s.Reading transaction) :=
  inferInstanceAs (Decidable (_ ∧ ∀ e ∈ s.ending, _))

/-- The transaction that takes a step. -/
def DatabaseOp.actor (s : Database γ) : DatabaseOp γ → Option Nat
  | .start => none
  | .deleteRows transaction _ _ _ => some transaction.transactionId
  | .beginCommit transactionId => some transactionId
  | .beginRollback transactionId => some transactionId
  | _ => s.endingId

/-- Appended rows carry the identifier of the transaction that appends them, and
commit identifiers are drawn below `TRANSACTION_ID_START`. -/
def DatabaseOp.OwnIdentifiers (s : Database γ) : DatabaseOp γ → Prop
  | .append _ data _ => ∀ e ∈ s.ending, data.transactionId = e.transaction.transactionId
  | .beginCommit _ => s.manager.currentStartTimestamp < transactionIdStart
  | _ => True

instance (s : Database γ) (op : DatabaseOp γ) : Decidable (op.OwnIdentifiers s) := by
  unfold DatabaseOp.OwnIdentifiers
  split <;> infer_instance

/-! ## The ledger of a database -/

/-- Each row has two keys: its insert and its delete. -/
inductive RowKey (γ : Type) where
  | insert (g : γ) (row : Nat)
  | delete (g : γ) (row : Nat)

def TransactionEnd.ending (e : TransactionEnd γ) : Ending :=
  ⟨e.transaction.transactionId, e.commitId, e.phase⟩

def Database.header (s : Database γ) : Header :=
  s.manager.header (s.ending.map TransactionEnd.ending) s.committedAt

def Database.mark (s : Database γ) : RowKey γ → Option Nat
  | .insert g row =>
    if row < (s.groups g).group.count then some (s.insertedAt g row) else none
  | .delete g row =>
    if s.deletedAt g row = notDeletedId then none else some (s.deletedAt g row)

def Database.authors (s : Database γ) : RowKey γ → Set Nat
  | .insert g row => {id | row < (s.groups g).group.count ∧ id = s.insertedBy g row}
  | .delete g row => {id | id ∈ s.deletedBy g row}

def Database.ledger (s : Database γ) : Ledger (RowKey γ) where
  header := s.header
  mark := s.mark
  authors := s.authors

end AccessPath
