import Mathlib.Tactic
import AccessPath.Constants

/-!
# Version information of one vector

`chunk_info.cpp`. A `ChunkConstantInfo` gives one insert and one delete
identifier for all rows of a vector; a `ChunkVectorInfo` gives an array of
each, shadowed by three summary fields that let `GetSelVector` skip the arrays.
Arrays of `STANDARD_VECTOR_SIZE` identifiers are functions of the row.
-/

namespace AccessPath

open List Function

/-! ## Visibility rules -/

/-- The `OP` template argument of `TemplatedGetSelVector`: how an insert and a
delete identifier are judged, each from a start time and a transaction
identifier. -/
structure VersionOperator where
  useInsertedVersion : Nat → Nat → Nat → Bool
  useDeletedVersion : Nat → Nat → Nat → Bool

/-- `TransactionVersionOperator::UseInsertedVersion`. -/
def useInsertedVersion (startTime transactionId id : Nat) : Bool :=
  id < startTime || id == transactionId

/-- `TransactionVersionOperator::UseDeletedVersion`. -/
def useDeletedVersion (startTime transactionId id : Nat) : Bool :=
  !useInsertedVersion startTime transactionId id

def transactionVersionOperator : VersionOperator := ⟨useInsertedVersion, useDeletedVersion⟩

/-- `CommittedVersionOperator`: every insert counts, and a row is kept if it is
not deleted or its delete is committed, and not before `minStartTime`. -/
def committedVersionOperator : VersionOperator where
  useInsertedVersion := fun _ _ _ => true
  useDeletedVersion := fun minStartTime _ id =>
    (minStartTime ≤ id && id < transactionIdStart) || id == notDeletedId

/-- `UseVersion`: the identifier is part of the transaction's snapshot. -/
def useVersion (transaction : TransactionData) (id : Nat) : Bool :=
  useInsertedVersion transaction.startTime transaction.transactionId id

theorem useVersion_iff {tx : TransactionData} {id : Nat} : useVersion tx id = true ↔
      id < tx.startTime ∨ id = tx.transactionId := by
  simp [useVersion, useInsertedVersion]

/-- Nobody's snapshot contains the mark of an undeleted row. -/
theorem useVersion_notDeletedId (tx : TransactionData) : useVersion tx notDeletedId = false := by
  have start := tx.startTime_lt_notDeleted
  have id := tx.id_lt
  simp only [useVersion, useInsertedVersion, Bool.or_eq_false_iff,
    decide_eq_false_iff_not, beq_eq_false_iff_ne]
  omega

/-! ## Selection results -/

/-- What a visibility check gives back: the returned count and the row indexes
it wrote into `sel_vector`. -/
structure SelResult where
  count : Nat
  sel : List Nat
  deriving DecidableEq, Repr

/-- The rows the caller goes on with. A count of `max_count` stands for the
identity selection whether or not `sel_vector` was written. -/
def SelResult.rows (result : SelResult) (maxCount : Nat) : List Nat :=
  if result.count = maxCount then range maxCount
  else result.sel.take result.count

/-- The selection loop: write each index below `maxCount` that `keep` accepts. -/
def selLoop (keep : Nat → Bool) (maxCount : Nat) : SelResult :=
  let sel := (range maxCount).filter keep
  ⟨sel.length, sel⟩

theorem selLoop_rows (keep : Nat → Bool) (maxCount : Nat) :
    (selLoop keep maxCount).rows maxCount = (range maxCount).filter keep := by
  simp only [selLoop, SelResult.rows, take_length]
  split_ifs with full
  · have all : ((range maxCount).filter keep).length = (range maxCount).length := by
      rw [full, length_range]
    exact (List.Sublist.eq_of_length filter_sublist all).symm
  · rfl

theorem selResult_rows_full (maxCount : Nat) (sel : List Nat) :
    (SelResult.mk maxCount sel).rows maxCount = range maxCount := by
  simp [SelResult.rows]

theorem selResult_rows_zero (maxCount : Nat) (sel : List Nat) :
    (SelResult.mk 0 sel).rows maxCount = [] := by
  simp only [SelResult.rows, take_zero]
  split_ifs with zero
  · rw [← zero]
    rfl
  · rfl

/-! ## Constant info -/

structure ChunkConstantInfo where
  start : Nat
  insertId : Nat
  deleteId : Nat
  deriving DecidableEq, Repr

namespace ChunkConstantInfo

def templatedGetSelVector (op : VersionOperator)
    (info : ChunkConstantInfo) (startTime transactionId maxCount : Nat) : SelResult :=
  if op.useInsertedVersion startTime transactionId info.insertId &&
      op.useDeletedVersion startTime transactionId info.deleteId then
    ⟨maxCount, []⟩
  else
    ⟨0, []⟩

def fetch (info : ChunkConstantInfo) (transaction : TransactionData) (_row : Nat) : Bool :=
  useVersion transaction info.insertId && !useVersion transaction info.deleteId

def commitAppend (info : ChunkConstantInfo) (commitId _start _end : Nat) : ChunkConstantInfo :=
  { info with insertId := commitId }

def hasDeletes (info : ChunkConstantInfo) : Bool :=
  transactionIdStart ≤ info.insertId || info.deleteId < transactionIdStart

def getCommittedDeletedCount (info : ChunkConstantInfo) (maxCount : Nat) : Nat :=
  if info.deleteId < transactionIdStart then maxCount else 0

end ChunkConstantInfo

/-! ## Vector info -/

structure ChunkVectorInfo where
  start : Nat
  /-- The transactions that inserted the rows. -/
  inserted : Nat → Nat
  insertId : Nat
  sameInsertedId : Bool
  /-- The transactions that deleted the rows. -/
  deleted : Nat → Nat
  anyDeleted : Bool

namespace ChunkVectorInfo

def new (start : Nat) : ChunkVectorInfo where
  start := start
  inserted := fun _ => 0
  insertId := 0
  sameInsertedId := true
  deleted := fun _ => notDeletedId
  anyDeleted := false

def templatedGetSelVector (op : VersionOperator)
    (info : ChunkVectorInfo) (startTime transactionId maxCount : Nat) : SelResult :=
  if info.sameInsertedId && !info.anyDeleted then
    -- all tuples have the same inserted id and no tuples were deleted
    if op.useInsertedVersion startTime transactionId info.insertId then
      ⟨maxCount, []⟩
    else
      ⟨0, []⟩
  else if info.sameInsertedId then
    if !op.useInsertedVersion startTime transactionId info.insertId then
      ⟨0, []⟩
    else
      selLoop (fun i => op.useDeletedVersion startTime transactionId (info.deleted i)) maxCount
  else if !info.anyDeleted then
    selLoop (fun i => op.useInsertedVersion startTime transactionId (info.inserted i)) maxCount
  else
    selLoop (fun i => op.useInsertedVersion startTime transactionId (info.inserted i) &&
      op.useDeletedVersion startTime transactionId (info.deleted i)) maxCount

def fetch (info : ChunkVectorInfo) (transaction : TransactionData) (row : Nat) : Bool :=
  useVersion transaction (info.inserted row) && !useVersion transaction (info.deleted row)

/-- The loop of `ChunkVectorInfo::Delete`. It marks rows one at a time and keeps
the newly deleted ones; a row held by another transaction stops it with the
rows before it already marked. -/
def deleteLoop (transactionId : Nat) :
    ChunkVectorInfo → List Nat → List Nat → ChunkVectorInfo × Except String (List Nat)
  | info, kept, [] => (info, .ok kept)
  | info, kept, row :: rows =>
    if info.deleted row = transactionId then
      deleteLoop transactionId info kept rows
    else if info.deleted row ≠ notDeletedId then
      (info, .error "Conflict on tuple deletion!")
    else
      deleteLoop transactionId { info with deleted := update info.deleted row transactionId }
        (kept ++ [row]) rows

def delete (info : ChunkVectorInfo) (transactionId : Nat) (rows : List Nat) :
    ChunkVectorInfo × Except String (List Nat) :=
  deleteLoop transactionId { info with anyDeleted := true } [] rows

/-- The rows before the first one that another transaction has deleted. -/
def uncontested (info : ChunkVectorInfo) (transactionId : Nat) (rows : List Nat) : List Nat :=
  rows.takeWhile fun row => info.deleted row = transactionId ∨ info.deleted row = notDeletedId

/-- Whether or not there is a conflict, exactly the rows before it that nobody had deleted are
marked. -/
theorem deleted_deleteLoop (tid : Nat) (inf : ChunkVectorInfo) (kept rows : List Nat) (row : Nat) :
    (deleteLoop tid inf kept rows).1.deleted row =
      if row ∈ inf.uncontested tid rows ∧ inf.deleted row = notDeletedId
      then tid else inf.deleted row := by
  induction rows generalizing inf kept with
  | nil => rfl
  | cons next rows ih =>
    rw [deleteLoop, uncontested, takeWhile_cons]
    split
    · rename_i own
      rw [ih, if_pos (decide_eq_true (.inl own))]
      by_cases here : row = next
      · simp [here, own]
      · simp only [mem_cons, here, false_or]
        rfl
    · rename_i o
      split
      · rename_i conflict
        simp [o, conflict]
      · rename_i free
        have free := not_not.mp free
        have same : uncontested { inf with
            deleted := update inf.deleted next tid } tid rows =
            inf.uncontested tid rows := by
          refine congrArg (rows.takeWhile ·) (funext fun r => ?_)
          by_cases here : r = next
          · simp [here, free]
          · simp [here]
        rw [ih, same, if_pos (decide_eq_true (.inr free))]
        by_cases here : row = next
        · simp [here, free]
        · simp only [mem_cons, here, update_of_ne here, false_or]
          rfl

/-- The loop touches only the delete array, and there only rows that nobody had
deleted. -/
theorem deleteLoop_fields (tid : Nat) (inf : ChunkVectorInfo) (kept rows : List Nat) :
    (deleteLoop tid inf kept rows).1 =
        { inf with deleted := (deleteLoop tid inf kept rows).1.deleted } ∧
      ∀ i, (deleteLoop tid inf kept rows).1.deleted i = inf.deleted i ∨
        (i ∈ rows ∧ inf.deleted i = notDeletedId ∧
          (deleteLoop tid inf kept rows).1.deleted i = tid) := by
  constructor
  · induction rows generalizing inf kept with
    | nil => rfl
    | cons r rows ih =>
      unfold deleteLoop
      split
      · exact ih inf kept
      · split
        · rfl
        · exact ih _ _
  · intro i
    rw [deleted_deleteLoop]
    split_ifs with hm
    · exact .inr ⟨(takeWhile_sublist _).mem hm.1, hm.2, rfl⟩
    · exact .inl rfl

/-- A loop that meets no conflict returns exactly the rows it has marked. -/
theorem deleteLoop_ok {tid : Nat} {inf : ChunkVectorInfo} {kept rows out : List Nat}
    (ok : (deleteLoop tid inf kept rows).2 = .ok out) :
    ∃ hm, out = kept ++ hm ∧ (∀ i ∈ hm, i ∈ rows ∧ inf.deleted i = notDeletedId) ∧
      hm.Nodup ∧ ∀ i, (deleteLoop tid inf kept rows).1.deleted i =
        if i ∈ hm then tid else inf.deleted i := by
  induction rows generalizing inf kept with
  | nil =>
    cases ok
    exact ⟨[], by simp, by simp, nodup_nil, fun _ => rfl⟩
  | cons r rows ih =>
    unfold deleteLoop at ok ⊢
    split at ok
    · rename_i own
      obtain ⟨hm, eq, fresh, nd, res⟩ := ih ok
      rw [if_pos own]
      exact ⟨hm, eq, fun i mem => ⟨mem_cons_of_mem _ (fresh i mem).1, (fresh i mem).2⟩,
        nd, res⟩
    · rename_i o
      split_ifs at ok with free
      obtain ⟨hm, eq, fresh, nd, res⟩ := ih ok
      rw [if_neg o, if_neg free]
      have new : r ∉ hm := fun mem => o (by simpa [not_not.mp free] using
        ((fresh r mem).2.symm : notDeletedId = _))
      refine ⟨r :: hm, by simp [eq], fun i mem => ?_, nd.cons new, fun i => ?_⟩
      · rcases mem_cons.mp mem with rfl | hl
        · exact ⟨by simp, not_not.mp free⟩
        · obtain ⟨inRows, unmarked⟩ := fresh i hl
          refine ⟨mem_cons_of_mem _ inRows, ?_⟩
          by_cases here : i = r
          · rw [here]
            exact not_not.mp free
          · simpa [here] using unmarked
      · rw [res i]
        by_cases hl : i ∈ hm
        · simp [hl]
        · by_cases here : i = r <;> simp [hl, here]

end ChunkVectorInfo

/-- The record `PushDelete` leaves in the undo buffer. Consecutive rows
`0, 1, ..., count - 1` are recorded by their count alone. -/
structure DeleteInfo where
  vectorIdx : Nat
  count : Nat
  isConsecutive : Bool
  rows : List Nat
  deriving DecidableEq, Repr

/-- `DuckTransaction::PushDelete`. -/
def DeleteInfo.push (vectorIdx : Nat) (rows : List Nat) : DeleteInfo :=
  if rows = range rows.length then
    ⟨vectorIdx, rows.length, true, []⟩
  else
    ⟨vectorIdx, rows.length, false, rows⟩

/-- The rows a delete record stands for. -/
def DeleteInfo.targets (info : DeleteInfo) : List Nat :=
  if info.isConsecutive then range info.count else info.rows.take info.count

@[simp] theorem DeleteInfo.vectorIdx_push (v : Nat) (rows : List Nat) :
    (DeleteInfo.push v rows).vectorIdx = v := by
  unfold DeleteInfo.push
  split <;> rfl

@[simp] theorem DeleteInfo.targets_push (v : Nat) (rows : List Nat) :
    (DeleteInfo.push v rows).targets = rows := by
  unfold DeleteInfo.push DeleteInfo.targets
  split
  · rename_i consecutive
    simpa using consecutive.symm
  · simp

/-- Write one identifier into an array at each of a list of rows. -/
def stampRows (ids : Nat → Nat) (rows : List Nat) (id : Nat) : Nat → Nat :=
  rows.foldl (fun array row => update array row id) ids

theorem stampRows_apply (ids : Nat → Nat) (rows : List Nat) (id r : Nat) :
    stampRows ids rows id r = if r ∈ rows then id else ids r := by
  unfold stampRows
  induction rows generalizing ids with
  | nil => simp
  | cons head rest ih =>
    rw [foldl_cons, ih]
    by_cases hl : r ∈ rest
    · simp [hl]
    · by_cases here : r = head
      · simp [here]
      · simp [hl, here]

def ChunkVectorInfo.commitDelete (info : ChunkVectorInfo) (commitId : Nat)
    (record : DeleteInfo) : ChunkVectorInfo :=
  { info with deleted := stampRows info.deleted record.targets commitId }

/-- Write one identifier into an array over a range of rows. -/
def stampRange (ids : Nat → Nat) (first last id : Nat) : Nat → Nat :=
  fun row => if first ≤ row ∧ row < last then id else ids row

def ChunkVectorInfo.append (info : ChunkVectorInfo) (first last commitId : Nat) : ChunkVectorInfo :=
  let summary : ChunkVectorInfo := if first = 0 then
      { info with insertId := commitId }
    else if info.insertId ≠ commitId then
      { info with sameInsertedId := false, insertId := notDeletedId }
    else
      info
  { summary with inserted := stampRange info.inserted first last commitId }

def ChunkVectorInfo.commitAppend (info : ChunkVectorInfo) (commitId first last : Nat) :
    ChunkVectorInfo :=
  { info with
    insertId := if info.sameInsertedId then commitId else info.insertId
    inserted := stampRange info.inserted first last commitId }

def ChunkVectorInfo.hasDeletes (info : ChunkVectorInfo) : Bool := info.anyDeleted

def ChunkVectorInfo.getCommittedDeletedCount (info : ChunkVectorInfo) (maxCount : Nat) : Nat :=
  if !info.anyDeleted then 0
  else ((range maxCount).filter fun i => info.deleted i < transactionIdStart).length

/-! ## Dispatch over the two kinds -/

inductive ChunkInfo where
  | constant (info : ChunkConstantInfo)
  | vector (info : ChunkVectorInfo)

def ChunkInfo.templatedGetSelVector (op : VersionOperator) : ChunkInfo → Nat → Nat → Nat → SelResult
  | .constant info => info.templatedGetSelVector op
  | .vector info => info.templatedGetSelVector op

def ChunkInfo.getSelVector (info : ChunkInfo) (transaction : TransactionData)
    (maxCount : Nat) : SelResult :=
  info.templatedGetSelVector transactionVersionOperator transaction.startTime
    transaction.transactionId maxCount

def ChunkInfo.getCommittedSelVector (info : ChunkInfo)
    (minStartId minTransactionId maxCount : Nat) : SelResult :=
  info.templatedGetSelVector committedVersionOperator minStartId minTransactionId maxCount

def ChunkInfo.fetch : ChunkInfo → TransactionData → Nat → Bool
  | .constant info => info.fetch
  | .vector info => info.fetch

def ChunkInfo.commitAppend : ChunkInfo → Nat → Nat → Nat → ChunkInfo
  | .constant info, commitId, first, last => .constant (info.commitAppend commitId first last)
  | .vector info, commitId, first, last => .vector (info.commitAppend commitId first last)

def ChunkInfo.hasDeletes : ChunkInfo → Bool
  | .constant info => info.hasDeletes
  | .vector info => info.hasDeletes

def ChunkInfo.getCommittedDeletedCount : ChunkInfo → Nat → Nat
  | .constant info => info.getCommittedDeletedCount
  | .vector info => info.getCommittedDeletedCount

end AccessPath
