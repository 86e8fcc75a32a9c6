import Mathlib.Order.Basic

/-!
# Identifiers and sizes of the storage layer

The constants of `common/constants.cpp`, `vector_size.hpp`, `string_type.hpp`
and `storage_info.hpp`. Start times and commit identifiers come from a counter
that starts at two, transaction identifiers from one that starts at
`transactionIdStart`.
-/

namespace AccessPath

/-- `TRANSACTION_ID_START`: the first transaction identifier. -/
def transactionIdStart : Nat := 4611686018427388000

def maxTransactionId : Nat := 18446744073709551615

/-- `NOT_DELETED_ID`: the mark of a row that nobody has deleted. -/
def notDeletedId : Nat := 18446744073709551614

/-- `MAXIMUM_QUERY_ID`: the query number of a transaction that runs no query. -/
def maximumQueryId : Nat := 18446744073709551615

/-- `DConstants::INVALID_INDEX`. -/
def invalidIndex : Nat := 18446744073709551615

def standardVectorSize : Nat := 2048

/-- `string_t::PREFIX_LENGTH`. -/
def prefixLength : Nat := 4

/-- `string_t::INLINE_LENGTH`. -/
def inlineLength : Nat := 12

/-- `Storage::ROW_GROUP_SIZE`. -/
def rowGroupSize : Nat := 122880

/-- `Storage::ROW_GROUP_VECTOR_COUNT`. -/
def rowGroupVectorCount : Nat := rowGroupSize / standardVectorSize

/-- `Storage::BLOCK_SIZE`. -/
def blockSize : Nat := 262136

theorem standardVectorSize_pos : 0 < standardVectorSize := by decide

theorem rowGroupVectorCount_mul :
    rowGroupVectorCount * standardVectorSize = rowGroupSize := by decide

/-- The start time and the identifier under which the storage layer is read or written. The pair
`(0, 0)` stands in for a transaction while bulk data is prepared. -/
structure TransactionData where
  transactionId : Nat
  startTime : Nat
  startTime_lt : startTime < transactionIdStart
  id_range : transactionId = 0 ∨ transactionIdStart ≤ transactionId
  id_lt : transactionId < notDeletedId

theorem transactionIdStart_pos : 0 < transactionIdStart := by decide

theorem transactionIdStart_lt_notDeletedId : transactionIdStart < notDeletedId := by decide

theorem TransactionData.startTime_lt_notDeleted (t : TransactionData) :
    t.startTime < notDeletedId :=
  Nat.lt_trans t.startTime_lt transactionIdStart_lt_notDeletedId

/-- The `n`-th transaction that a manager starts when no commit comes between. -/
def nthTransaction (n : Nat) (small : n + 2 < transactionIdStart := by decide) :
    TransactionData where
  transactionId := transactionIdStart + n
  startTime := n + 2
  startTime_lt := small
  id_range := .inr (Nat.le_add_right _ _)
  id_lt := by
    simp only [transactionIdStart, notDeletedId] at small ⊢
    omega

end AccessPath
