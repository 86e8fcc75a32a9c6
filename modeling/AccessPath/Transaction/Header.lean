import AccessPath.Library.Snapshot
import AccessPath.Transaction.Manager

/-!
# The transaction manager as the header of a ledger

The counters and the active transactions of `DuckTransactionManager`, together
with the transaction that holds `transaction_lock` to end and the commits so
far, in the form in which the protocol of `Library.Snapshot` speaks of them.
-/

namespace AccessPath

open Library

namespace DuckTransactionManager

variable {m m' : DuckTransactionManager} {ending : Option Ending} {done : Nat → Option Nat}

def header (manager : DuckTransactionManager) (ending : Option Ending)
    (committed : Nat → Option Nat) : Header where
  clock := manager.currentStartTimestamp
  nextId := manager.currentTransactionId
  active := fun id start => ∃ t ∈ manager.activeTransactions,
    t.transactionId = id ∧ t.startTime = start
  ending := ending
  committed := committed

theorem header_startTransaction {t : DuckTransaction}
    (started : m.startTransaction = .ok (m', t)) : m'.header ending done =
      { m.header ending done with
        clock := m.currentStartTimestamp + 1
        nextId := m.currentTransactionId + 1
        active := fun id lo => (m.header ending done).active id lo ∨
          id = m.currentTransactionId ∧ lo = m.currentStartTimestamp } := by
  obtain ⟨-, clock, nextId, active⟩ := m.startTransaction_ok started
  simp only [header, clock, nextId, active, Header.mk.injEq, true_and, and_true]
  funext id lo
  simp only [List.mem_append, List.mem_singleton, or_and_right, exists_or, exists_eq_left,
    DuckTransaction.new, eq_iff_iff]
  exact or_congr_right (and_congr eq_comm eq_comm)

/-- A change of a transaction that keeps its identifier and start time. -/
theorem header_modify (tid : Nat) {change : DuckTransaction → DuckTransaction}
    (sameId : ∀ t, (change t).transactionId = t.transactionId)
    (sameStart : ∀ t, (change t).startTime = t.startTime) :
    (m.modify tid change).header ending done = m.header ending done := by
  simp only [header, modify, Header.mk.injEq, true_and, and_true]
  funext other lo
  refine propext ⟨?_, ?_⟩
  · rintro ⟨t, got, same, began⟩
    obtain ⟨old, act, rfl⟩ := List.mem_map.mp got
    refine ⟨old, act, ?_, ?_⟩
    · rw [← same]
      split
      · exact (sameId old).symm
      · rfl
    · rw [← began]
      split
      · exact (sameStart old).symm
      · rfl
  · rintro ⟨t, got, same, began⟩
    refine ⟨_, List.mem_map_of_mem got, ?_, ?_⟩
    · split
      · exact (sameId t).trans same
      · exact same
    · split
      · exact (sameStart t).trans began
      · exact began

theorem header_others (id : Nat) (clock : m'.currentStartTimestamp = m.currentStartTimestamp)
    (nextId : m'.currentTransactionId = m.currentTransactionId)
    (eq : m'.activeTransactions = m.others id) :
    m'.header none done = { m.header none done with
        active := fun o lo =>
          (m.header none done).active o lo ∧ o ≠ id } := by
  simp only [header, clock, nextId, eq, Header.mk.injEq, true_and, and_true]
  funext o lo
  refine propext ⟨?_, ?_⟩
  · rintro ⟨t, got, rfl, began⟩
    obtain ⟨act, hne⟩ := List.mem_filter.mp got
    exact ⟨⟨t, act, rfl, began⟩, by simpa using hne⟩
  · rintro ⟨⟨t, act, rfl, began⟩, hne⟩
    exact ⟨t, List.mem_filter.mpr ⟨act, by simpa using hne⟩, rfl, began⟩

theorem active_of_find {tid : Nat} {t : DuckTransaction} (got : m.find tid = some t) :
    (m.header ending done).Active t.transactionId ∧ t.transactionId = tid := by
  obtain ⟨act, same⟩ := mem_of_find got
  exact ⟨⟨t.startTime, t, act, rfl, rfl⟩, same⟩

end DuckTransactionManager

end AccessPath
