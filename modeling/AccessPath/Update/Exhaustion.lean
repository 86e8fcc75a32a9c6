import AccessPath.Update.UpdateState

/-!
# Drawing timestamps

A transaction that starts and rolls back leaves the column as it was but has
drawn a start time and an identifier. So a run can bring the clock to any point
up to the one at which `StartTransaction` refuses.
-/

namespace AccessPath

open Library

variable {T : Type} {kind : UpdateKind}

/-- A state before the first update. -/
structure UpdateState.Unused (s : UpdateState kind T) (active : List DuckTransaction)
    (clock nextId : Nat) : Prop where
  ending : s.ending = none
  segment : s.segment = fun _ => none
  failed : s.failed = []
  committedAt : s.committedAt = fun _ => none
  writes : s.writes = fun _ _ => []
  active : s.manager.activeTransactions = active
  clock : s.manager.currentStartTimestamp = clock
  nextId : s.manager.currentTransactionId = nextId

theorem UpdateState.unused_new :
    (UpdateState.new : UpdateState kind T).Unused [] 2 transactionIdStart :=
  ⟨rfl, rfl, rfl, rfl, rfl, rfl, rfl, rfl⟩

section

variable (σ : SortByIds) (st : Nat → FlatVector T) {s : UpdateState kind T}
  {act : List DuckTransaction} {clock nid : Nat}

theorem UpdateState.Unused.start (free : s.Unused act clock nid)
    (room : clock < transactionIdStart) : ∃ s', s.step σ st .start = some s' ∧
      s'.Unused (act ++ [.new clock nid]) (clock + 1) (nid + 1) := by
  obtain ⟨ending, seg, hfa, committedAt, writes, rfl, rfl, rfl⟩ := free
  simp only [UpdateState.step, ending, DuckTransactionManager.startTransaction,
    if_neg (Nat.not_le.mpr room)]
  exact ⟨_, rfl, rfl, seg, hfa, committedAt, writes, rfl, rfl, rfl⟩

theorem UpdateState.Unused.rollback
    (free : s.Unused (act ++ [.new clock nid]) (clock + 1) (nid + 1))
    (older : ∀ t ∈ act, t.transactionId < nid) :
    ∃ s' s'', s.step σ st (.beginRollback nid) = some s' ∧
      s'.step σ st .endRollback = some s'' ∧ s''.Unused act (clock + 1) (nid + 1) := by
  obtain ⟨ending, seg, hfa, committedAt, writes, actives, clocks, ids⟩ := free
  have got : s.manager.find nid = some (.new clock nid) := by
    unfold DuckTransactionManager.find
    rw [actives, List.find?_append, List.find?_eq_none.mpr, Option.none_or]
    · exact List.find?_cons_of_pos (decide_eq_true rfl)
    · intro t isIn same
      exact (older t isIn).ne (of_decide_eq_true same)
  have ho : s.manager.others nid = act := by
    unfold DuckTransactionManager.others
    rw [actives, List.filter_append, List.filter_eq_self.mpr,
      List.filter_cons_of_neg (by simp [DuckTransaction.new])]
    · exact List.append_nil act
    · intro t isIn
      simpa using (older t isIn).ne
  have begun : s.step σ st (.beginRollback nid) =
      some { s with ending := some ⟨nid, none, .undoing⟩ } := by
    simp only [UpdateState.step, ending, got]
  have ended : UpdateState.step σ st { s with ending := some ⟨nid, none, .undoing⟩ }
      .endRollback = some { s with
        manager := s.manager.rollbackTransaction (.new clock nid)
        ending := none } := by
    simp only [UpdateState.step, Option.bind_some, got, seg, Option.map_some]
    rw [if_pos ⟨trivial, fun v fit chain isIn => by cases isIn⟩]
  exact ⟨_, _, begun, ended, rfl, seg, hfa, committedAt, writes, ho, clocks, ids⟩

variable {σ st}

/-- Any number of transactions start and roll back, one after the other. -/
theorem UpdateState.Unused.wait (ran : (updateMachine σ kind st).system.Reachable s)
    (free : s.Unused act clock nid) (older : ∀ t ∈ act, t.transactionId < nid)
    (n : Nat) (room : clock + n ≤ transactionIdStart) :
    ∃ s', (updateMachine σ kind st).system.Reachable s' ∧
      s'.Unused act (clock + n) (nid + n) := by
  induction n with
  | zero => exact ⟨s, ran, free⟩
  | succ n ih =>
    obtain ⟨_, ran, free⟩ := ih (Nat.le_of_succ_le room)
    obtain ⟨_, started, free⟩ := free.start σ st room
    obtain ⟨_, s₄, begun, ended, free⟩ := free.rollback σ st
      fun t isIn => (older t isIn).trans_le (Nat.le_add_right _ _)
    have ran := System.Reachable.step ran ⟨.start, trivial, started⟩
    have ran := System.Reachable.step ran ⟨.beginRollback (nid + n), trivial, begun⟩
    exact ⟨s₄, .step ran ⟨.endRollback, trivial, ended⟩, free⟩

end

end AccessPath
