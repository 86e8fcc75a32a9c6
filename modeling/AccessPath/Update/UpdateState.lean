import AccessPath.Library.Overwrites
import AccessPath.Update.UpdateSegment

/-!
# Runs of transactions on an update segment

Every interleaving of transactions that start, update rows of a column, commit,
fail to commit or roll back, together with the clean-up of committed ones.
`snapshotValue` says, in terms of a record of what happened, what a transaction
should read.
-/

namespace AccessPath

open Library

variable {T : Type} {kind : UpdateKind}

/-! ## States -/

/-- A value that a transaction has given to a row. -/
structure Write (T : Type) where
  author : Nat
  value : Option T

structure UpdateState (kind : UpdateKind) (T : Type) where
  manager : DuckTransactionManager
  ending : Option Ending
  segment : UpdateSegment kind T
  /-- Transactions that met a conflict; they can only be rolled back. -/
  failed : List Nat
  startedAt : Nat → Option Nat
  committedAt : Nat → Option Nat
  /-- By vector and row within the vector, newest first. -/
  writes : Nat → Nat → List (Write T)

def UpdateState.header (s : UpdateState kind T) : Header :=
  s.manager.header s.ending s.committedAt

def UpdateState.Active (s : UpdateState kind T) (transaction : TransactionData) : Prop :=
  ∃ t ∈ s.manager.activeTransactions,
    t.transactionId = transaction.transactionId ∧ t.startTime = transaction.startTime

instance UpdateState.decidableActive (s : UpdateState kind T) (transaction : TransactionData) :
    Decidable (s.Active transaction) :=
  inferInstanceAs (Decidable (∃ t ∈ s.manager.activeTransactions, _))

def UpdateState.endingId (s : UpdateState kind T) : Option Nat := s.ending.map Ending.id

/-- The rows are those of one vector of the row group. -/
def UpdateCall.OneVector (call : UpdateCall kind T) (vectorIndex : Nat) : Prop :=
  call.ids ≠ [] ∧ vectorIndex < rowGroupVectorCount ∧
    ∀ id ∈ call.ids, id / standardVectorSize = vectorIndex

instance UpdateCall.decidableOneVector (call : UpdateCall kind T) (vectorIndex : Nat) :
    Decidable (call.OneVector vectorIndex) :=
  inferInstanceAs (Decidable (_ ∧ _ ∧ ∀ id ∈ call.ids, _))

/-- The value that a call gives to a row: NULL, unless a position with another value
is selected. -/
def UpdateCall.valueFor (call : UpdateCall kind T) (σ : SortByIds) (id : Nat) : Option T :=
  match (call.selected σ).find? (call.idAt · = id) with
  | none => none
  | some i => call.update.get i

/-! ## Steps -/

inductive UpdateOp (kind : UpdateKind) (T : Type) where
  | start
  | update (transaction : TransactionData) (vectorIndex : Nat) (call : UpdateCall kind T)
  | beginCommit (transactionId : Nat)
  | beginStamping
  | commitUpdate (vectorIndex : Nat)
  | endCommit
  | failCommit
  | beginRollback (transactionId : Nat)
  | revertUpdate (vectorIndex : Nat)
  | rollbackUpdate (vectorIndex : Nat)
  | endRollback
  | cleanupUpdate (transactionId vectorIndex : Nat)

/-- `CreateUpdateInfo` makes an entry in the undo buffer if the transaction has no
info for the vector yet. -/
def UpdateState.pushUndo (s : UpdateState kind T) (transactionId vectorIndex : Nat) :
    DuckTransactionManager :=
  if ∃ chain ∈ s.segment vectorIndex, chain.HasOwner transactionId then s.manager
  else s.manager.modify transactionId fun t =>
    { t with undoBuffer := t.undoBuffer ++ [.updateTuple] }

/-- What an update leaves behind: its infos and its record, or an invalidated
transaction if it met a conflict. -/
def UpdateState.pushUpdate (σ : SortByIds) (s : UpdateState kind T)
    (transaction : TransactionData) (vectorIndex : Nat) (call : UpdateCall kind T) :
    Except String (UpdateSegment kind T) → UpdateState kind T
  | .error _ => { s with failed := transaction.transactionId :: s.failed }
  | .ok segment =>
    { s with
      manager := s.pushUndo transaction.transactionId vectorIndex
      segment := segment
      writes := fun v row =>
        let id := v * standardVectorSize + row
        if v = vectorIndex ∧ id ∈ call.ids then
          ⟨transaction.transactionId, call.valueFor σ id⟩ :: s.writes v row
        else s.writes v row }

/-- Change the chain of a vector in which a transaction has an info. -/
def UpdateState.changeChain (s : UpdateState kind T) (owner vectorIndex : Nat)
    (change : UpdateChain (kind.Value T) → UpdateChain (kind.Value T)) :
    Option (UpdateState kind T) :=
  match s.segment vectorIndex with
  | none => none
  | some chain =>
    if chain.HasOwner owner then
      some { s with segment := Function.update s.segment vectorIndex (some (change chain)) }
    else none

def UpdateState.step (σ : SortByIds) (stored : Nat → FlatVector T) (s : UpdateState kind T) :
    UpdateOp kind T → Option (UpdateState kind T)
  | .start =>
    match s.ending, s.manager.startTransaction with
    | none, .ok (manager, t) =>
      some { s with
        manager := manager
        startedAt := Function.update s.startedAt t.transactionId (some t.startTime) }
    | _, _ => none
  | .update transaction vectorIndex call =>
    if s.Active transaction ∧ s.endingId ≠ some transaction.transactionId ∧
        transaction.transactionId ∉ s.failed ∧ call.OneVector vectorIndex then
      some (s.pushUpdate σ transaction vectorIndex call
        (s.segment.update σ stored transaction true call))
    else none
  | .beginCommit transactionId =>
    match s.ending, s.manager.find transactionId with
    | none, some _ =>
      if transactionId ∈ s.failed then none
      else
        let (manager, commitId) := s.manager.getCommitTimestamp
        some { s with
          manager := manager
          ending := some ⟨transactionId, some commitId, .working⟩ }
    | _, _ => none
  | .beginStamping =>
    s.ending.bind fun e =>
      if e.phase = .working then some { s with ending := some { e with phase := .stamping } }
      else none
  | .commitUpdate vectorIndex =>
    s.ending.bind fun e =>
      if e.phase = .stamping then
        e.commitTime.bind fun commitId =>
          s.changeChain e.id vectorIndex (·.setVersion e.id commitId)
      else none
  | .endCommit =>
    s.ending.bind fun e =>
      if e.phase = .stamping ∧ ∀ v < rowGroupVectorCount, ∀ chain ∈ s.segment v,
          ∀ node ∈ chain.nodes, node.owner = e.id → some node.versionNumber = e.commitTime then
        match e.commitTime, s.manager.find e.id with
        | some commitId, some transaction =>
          some { s with
            manager := s.manager.endCommit transaction commitId 0 false
            ending := none
            committedAt := Function.update s.committedAt e.id (some commitId) }
        | _, _ => none
      else none
  | .failCommit =>
    s.ending.bind fun e =>
      if e.phase ≠ .undoing then some { s with ending := some { e with phase := .undoing } }
      else none
  | .beginRollback transactionId =>
    match s.ending, s.manager.find transactionId with
    | none, some _ => some { s with ending := some ⟨transactionId, none, .undoing⟩ }
    | _, _ => none
  | .revertUpdate vectorIndex =>
    s.ending.bind fun e =>
      if e.phase = .undoing then s.changeChain e.id vectorIndex (·.setVersion e.id e.id)
      else none
  | .rollbackUpdate vectorIndex =>
    s.ending.bind fun e =>
      if e.phase = .undoing then s.changeChain e.id vectorIndex (·.rollback e.id)
      else none
  | .endRollback =>
    s.ending.bind fun e =>
      if e.phase = .undoing ∧ ∀ v < rowGroupVectorCount, ∀ chain ∈ s.segment v,
          ¬ chain.HasOwner e.id then
        (s.manager.find e.id).map fun transaction =>
          { s with
            manager := match e.commitTime with
              | some commitId => s.manager.endCommit transaction commitId 0 true
              | none => s.manager.rollbackTransaction transaction
            ending := none }
      else none
  | .cleanupUpdate transactionId vectorIndex =>
    match s.committedAt transactionId with
    | none => none
    | some commitId =>
      if ∀ t ∈ s.manager.activeTransactions, commitId < t.startTime then
        s.changeChain transactionId vectorIndex (·.cleanup transactionId)
      else none

/-- Nothing has been updated and no transaction has started. -/
def UpdateState.new : UpdateState kind T where
  manager := .new
  ending := none
  segment := fun _ => none
  failed := []
  startedAt := fun _ => none
  committedAt := fun _ => none
  writes := fun _ _ => []

/-- The runs on a column with the given stored values. -/
def updateMachine (σ : SortByIds) (kind : UpdateKind) (stored : Nat → FlatVector T) :
    Machine (UpdateState kind T) (UpdateOp kind T) where
  init := fun s => s = .new
  step := UpdateState.step σ stored

/-! ## What a transaction should read -/

/-- The last value that a transaction has given to a row. -/
def latestBy (writes : List (Write T)) (author : Nat) : Option (Option T) :=
  (writes.find? (·.author = author)).map Write.value

/-- The transaction that committed last before a start time, among those that have
written to a row. -/
def lastCommitted (committedAt : Nat → Option Nat) (writes : List (Write T)) (start : Nat) :
    Option Nat :=
  ((writes.map Write.author).filter fun id => ∃ time ∈ committedAt id, time < start).argmax
    fun id => (committedAt id).getD 0

/-- The transaction's own last value if it has written to the row, otherwise that of
the last transaction that committed before it started, otherwise the stored
value. -/
def UpdateState.snapshotValue (s : UpdateState kind T) (stored : Nat → FlatVector T)
    (transaction : TransactionData) (vectorIndex row : Nat) : Option T :=
  let writes := s.writes vectorIndex row
  match latestBy writes transaction.transactionId with
  | some value => value
  | none =>
    match lastCommitted s.committedAt writes transaction.startTime with
    | some id => (latestBy writes id).getD ((stored vectorIndex).get row)
    | none => (stored vectorIndex).get row

/-- A transaction reads from its start until it begins to replace version numbers
or to roll back. -/
def UpdateState.Reading (s : UpdateState kind T) (transaction : TransactionData) : Prop :=
  s.Active transaction ∧
    ∀ e ∈ s.ending, e.id = transaction.transactionId → e.phase = .working

instance UpdateState.decidableReading (s : UpdateState kind T) (transaction : TransactionData) :
    Decidable (s.Reading transaction) :=
  inferInstanceAs (Decidable (_ ∧ ∀ e ∈ s.ending, _))

/-- Start times stay below the version number of base infos, and commit identifiers
below the first transaction identifier. -/
def UpdateOp.InRange (s : UpdateState kind T) : UpdateOp kind T → Prop
  | .start => s.manager.currentStartTimestamp < transactionIdStart - 1
  | .beginCommit _ => s.manager.currentStartTimestamp < transactionIdStart
  | _ => True

instance UpdateOp.decidableInRange (s : UpdateState kind T) (op : UpdateOp kind T) :
    Decidable (op.InRange s) := by
  unfold UpdateOp.InRange
  split <;> infer_instance

end AccessPath
