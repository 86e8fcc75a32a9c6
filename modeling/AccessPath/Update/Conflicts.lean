import AccessPath.Update.SnapshotReads

/-!
# No lost updates

`CheckForConflicts` throws exactly if another transaction that is uncommitted, or
that committed after the updating one started, has an info with a row of the
update. So two transactions whose updates of a row are both committed did not
overlap.
-/

namespace AccessPath

open Library List Option

variable {T : Type} {kind : UpdateKind}

/-- A transaction that is uncommitted or committed after a start time. -/
def UpdateState.Concurrent (s : UpdateState kind T) (start other : Nat) : Prop :=
  s.committedAt other = none ∨ ∃ time, s.committedAt other = some time ∧ start < time

/-- Another transaction whose info in the chain of the vector has a row of the
update. -/
def UpdateState.Conflict (s : UpdateState kind T) (σ : SortByIds) (transaction : TransactionData)
    (v : Nat) (call : UpdateCall kind T) : Prop :=
  ∃ chain ∈ s.segment v, ∃ node ∈ chain.nodes, node.owner ≠ transaction.transactionId ∧
    s.Concurrent transaction.startTime node.owner ∧
      ∃ i ∈ call.selected σ, node.tuples.lookup (call.idAt i - v * standardVectorSize) ≠ none

section

variable {stored : Nat → FlatVector T} {s : UpdateState kind T} {σ : SortByIds}
  {tx : TransactionData} {v : Nat} {call : UpdateCall kind T}

theorem checkForConflicts_nil {V : Type} (tx : TransactionData)
    (ns : List (UpdateInfo V)) : checkForConflicts tx [] ns = false := by
  induction ns with
  | nil => rfl
  | cons node ns ih =>
    rw [checkForConflicts, ih]
    split
    · rfl
    · split <;> rfl

theorem UpdateSegment.update_error_iff {seg : UpdateSegment kind T}
    (oneVector : call.OneVector v) :
    (∃ message, seg.update σ stored tx true call = .error message) ↔
      ∃ c ∈ seg v, checkForConflicts tx
        ((call.updates (v * standardVectorSize) (call.selected σ)).map Prod.fst) c.nodes =
          true := by
  unfold UpdateSegment.update
  split
  · rename_i emp
    rw [emp]
    constructor
    · intro ⟨message, hfa⟩
      cases hfa
    · intro ⟨c, _, throws⟩
      rw [UpdateCall.updates, map_nil, map_nil, checkForConflicts_nil] at throws
      cases throws
  · rename_i fst rest selected
    have here := oneVector.idAt_div σ (selected ▸ mem_cons_self)
    dsimp only
    rw [here, ← selected]
    cases got : seg v with
    | none =>
      constructor
      · intro ⟨message, hfa⟩
        cases hfa
      · intro ⟨c, isChain, _⟩
        cases isChain
    | some c =>
      simp only [UpdateChain.update, mem_some_iff, exists_eq_left']
      split
      · rename_i throws
        exact ⟨fun _ => throws, fun _ => ⟨_, rfl⟩⟩
      · rename_i passes
        refine ⟨fun ⟨message, hfa⟩ => ?_, fun throws => absurd throws passes⟩
        split at hfa <;> cases hfa

variable (conf : s.Conforms stored)
include conf

/-- The check tells concurrent transactions by their version numbers. -/
theorem UpdateState.Conforms.concurrent_iff (act : s.Active tx)
    (running : s.endingId ≠ some tx.transactionId) {own version : Nat}
    (accounts : s.header.Accounts own version) :
    version ≠ tx.transactionId ∧ tx.startTime < version ↔
      own ≠ tx.transactionId ∧ s.Concurrent tx.startTime own := by
  have reads : s.header.Reading tx.transactionId tx.startTime := by
    refine ⟨act, fun e isEnding same => absurd ?_ running⟩
    exact map_eq_some_iff.mpr ⟨e, isEnding, same⟩
  have hidden := accounts.hidden_iff conf.header reads
    fun done => conf.apart _ _ done _ _ reads.1
  rw [and_comm, ← hidden, Header.Hidden, not_or]
  refine and_congr_right fun hne => ?_
  unfold UpdateState.Concurrent
  constructor
  · intro hl
    cases done : s.committedAt own with
    | none => exact .inl rfl
    | some t =>
      have unequal := conf.apart own t done _ _ reads.1
      have : ¬ t < tx.startTime := fun old => hl ⟨t, done, old⟩
      exact .inr ⟨t, rfl, by omega⟩
  · intro concurrent old
    obtain ⟨t, done, _⟩ := old
    have done : s.committedAt own = some t := done
    rcases concurrent with live | ⟨_, done', _⟩
    · cases live.symm.trans done
    · cases done.symm.trans done'
      omega

theorem UpdateState.Conforms.conflict_iff (act : s.Active tx)
    (running : s.endingId ≠ some tx.transactionId) (oneVector : call.OneVector v) :
    (∃ message, s.segment.update σ stored tx true call = .error message) ↔
      s.Conflict σ tx v call := by
  rw [UpdateSegment.update_error_iff oneVector]
  refine exists_congr fun c => and_congr_right fun got => ?_
  have got : s.segment v = some c := got
  obtain ⟨_, lay, -⟩ := conf.explained v
  rw [got] at lay
  rw [checkForConflicts_iff (pairwise_map.mpr (oneVector.ascending σ)) lay.1.verified]
  refine exists_congr fun node => and_congr_right fun hno => ?_
  rw [← and_assoc, conf.concurrent_iff act running (lay.1.accounted node hno),
    and_assoc]
  refine and_congr_right fun _ => and_congr_right fun _ => ?_
  simp only [UpdateCall.updates, List.map_map, List.mem_map, Function.comp_apply,
    exists_exists_and_eq_and]

/-- Of two transactions that are not on one side of each other, at most one has
committed what it wrote to a row. -/
theorem UpdateState.Conforms.serial {row : Nat} {fst snd : Write T}
    (firstIn : fst ∈ s.writes v row) (secondIn : snd ∈ s.writes v row)
    (ne : fst.author ≠ snd.author) (firstKept : ¬ kind.Drops fst.value)
    (secondKept : ¬ kind.Drops snd.value) {firstTime secondTime : Nat}
    (firstCommitted : s.committedAt fst.author = some firstTime)
    (secondCommitted : s.committedAt snd.author = some secondTime) :
    (∃ lo, s.startedAt snd.author = some lo ∧ firstTime < lo) ∨
      ∃ lo, s.startedAt fst.author = some lo ∧ secondTime < lo := by
  obtain ⟨ls, lay, explains⟩ := conf.explained v
  have hos {w : Write T} {t : Nat} (isIn : w ∈ s.writes v row)
      (kept : ¬ kind.Drops w.value) (done : s.committedAt w.author = some t) :
      w.author ∈ authors (ls row) := by
    by_contra missing
    refine kept ((explains row).missing w isIn (.inl ?_) missing)
    intro live
    cases done.symm.trans live
  obtain ⟨o, isIn, au⟩ := List.mem_map.mp (hos firstIn firstKept firstCommitted)
  obtain ⟨o', isIn', au'⟩ := List.mem_map.mp (hos secondIn secondKept secondCommitted)
  have unequal : o ≠ o' := by
    intro same
    exact ne (au.symm.trans ((congrArg Overwrite.author same).trans au'))
  have either : s.header.Succeeds s.startedAt o.author o'.author ∨
      s.header.Succeeds s.startedAt o'.author o.author := by
    have symmetric : Std.Symm fun a b : Overwrite (kind.Value T) =>
        s.header.Succeeds s.startedAt a.author b.author ∨
          s.header.Succeeds s.startedAt b.author a.author := ⟨fun _ _ => Or.symm⟩
    have ord := (lay.succession row).imp fun {a b} succeeds =>
      Or.inl (b := s.header.Succeeds s.startedAt b.author a.author) succeeds
    exact ord.forall isIn isIn' unequal
  rw [au, au'] at either
  rcases either with ⟨t, lo, done, began, he⟩ | ⟨_, lo, done, began, he⟩
  · cases secondCommitted.symm.trans done
    exact .inr ⟨lo, began, he⟩
  · cases firstCommitted.symm.trans done
    exact .inl ⟨lo, began, he⟩

end

/-- No lost update: an update throws exactly if it conflicts, and two transactions
that have both committed what they wrote to a row did not overlap. -/
theorem UpdateState.update_conflicts {σ : SortByIds} {stored : Nat → FlatVector T}
    {s : UpdateState kind T}
    (reached : ((updateMachine σ kind stored).guarded fun s op => op.InRange s).Reachable s) :
    (∀ transaction v (call : UpdateCall kind T), s.Active transaction →
      s.endingId ≠ some transaction.transactionId → call.OneVector v →
        ((∃ message, s.segment.update σ stored transaction true call = .error message) ↔
          s.Conflict σ transaction v call)) ∧
      ∀ v row, ∀ first ∈ s.writes v row, ∀ second ∈ s.writes v row,
        first.author ≠ second.author → ¬ kind.Drops first.value → ¬ kind.Drops second.value →
          ∀ firstTime secondTime, s.committedAt first.author = some firstTime →
            s.committedAt second.author = some secondTime →
              (∃ start, s.startedAt second.author = some start ∧ firstTime < start) ∨
                ∃ start, s.startedAt first.author = some start ∧ secondTime < start := by
  have conforms := conforms_of_reachable reached
  constructor
  · intro transaction v call isActive running oneVector
    exact conforms.conflict_iff isActive running oneVector
  · intro v row first firstIn second secondIn differ firstKept secondKept firstTime secondTime
      firstCommitted secondCommitted
    exact conforms.serial firstIn secondIn differ firstKept secondKept firstCommitted
      secondCommitted

/-- Two transactions start and the first one updates a row and commits; the update
of the second one is then refused. -/
theorem UpdateState.update_conflicts_concurrent :
    ∃ s : UpdateState .standard Nat,
      ((updateMachine .insertion .standard zeros).guarded fun s op => op.InRange s).Reachable s ∧
        s.Active (nthTransaction 1) ∧
          s.Conflict .insertion (nthTransaction 1) 0 setFirst := by
  obtain ⟨s, reached, active, running, refused⟩ :=
    (updateMachine .insertion .standard zeros).exists_reachable_of_run
      (P := fun s => s.Active (nthTransaction 1) ∧ s.endingId = none ∧
        (s.segment.update .insertion zeros (nthTransaction 1) true setFirst).isOk = false)
      (fun s op => op.InRange s)
      [.start, .start, .update (nthTransaction 0) 0 setFirst,
        .beginCommit transactionIdStart, .beginStamping, .commitUpdate 0, .endCommit]
      (.init rfl) (by decide)
  refine ⟨s, reached, active, ?_⟩
  apply ((UpdateState.update_conflicts reached).1 _ 0 setFirst active _ (by decide)).mp
  · cases attempt : s.segment.update .insertion zeros (nthTransaction 1) true setFirst with
    | error message => exact ⟨message, rfl⟩
    | ok segment =>
      rw [attempt] at refused
      cases refused
  · rw [running]
    exact some_ne_none _ |>.symm

/-- A transaction commits with an identifier that is that of an older one, which then
takes the other's info for its own: both update the same row. -/
theorem UpdateState.update_conflicts_exhausted : ∃ s : UpdateState .standard Nat,
      (updateMachine .insertion .standard zeros).system.Reachable s ∧
        s.Active (nthTransaction 0) ∧ s.endingId = none ∧
          s.Conflict .insertion (nthTransaction 0) 0 setFirst ∧
            ¬ ∃ message, s.segment.update .insertion zeros (nthTransaction 0) true
              setFirst = .error message := by
  have reached : (updateMachine .insertion .standard zeros).system.Reachable .new := .init rfl
  obtain ⟨_, started, unused⟩ := UpdateState.unused_new.start .insertion zeros (by decide)
  have reached := System.Reachable.step reached ⟨.start, trivial, started⟩
  obtain ⟨s, reached, unused⟩ := unused.wait reached
    (fun t isIn => by cases mem_singleton.mp isIn; decide) (transactionIdStart - 4) (by decide)
  obtain ⟨s', reached', active, idle, ⟨chain, found, node, isNode, owner, present⟩, committed,
      accepted⟩ :=
    (updateMachine .insertion .standard zeros).exists_reachable_of_run
      (P := fun s => s.Active (nthTransaction 0) ∧ s.endingId = none ∧
        (∃ chain ∈ s.segment 0, ∃ node ∈ chain.nodes,
          node.owner = transactionIdStart + (transactionIdStart - 3) ∧
            node.tuples.lookup 0 = some (0 : Nat)) ∧
        s.committedAt (transactionIdStart + (transactionIdStart - 3)) = some transactionIdStart ∧
        (s.segment.update .insertion zeros (nthTransaction 0) true setFirst).isOk = true)
      (fun _ _ => True)
      [.start, .update (nthTransaction (transactionIdStart - 3)) 0 setFirst,
        .beginCommit (transactionIdStart + (transactionIdStart - 3)), .beginStamping,
        .commitUpdate 0, .endCommit]
      reached (by
        obtain ⟨⟨_, _, _, _, _, _, _, _, _, _⟩, _, _, _, _, _, _⟩ := s
        obtain ⟨rfl, rfl, rfl, rfl, rfl, active, clock, nextId⟩ := unused
        subst active clock nextId
        rfl)
  refine ⟨s', reached', active, idle, ⟨chain, found, node, isNode, ?_, ?_, ?_⟩, ?_⟩
  · rw [owner]
    decide
  · right
    rw [owner, committed]
    exact ⟨_, rfl, by decide⟩
  · refine ⟨0, by decide, ?_⟩
    rw [show setFirst.idAt 0 - 0 * standardVectorSize = 0 from rfl, present]
    exact some_ne_none _
  · intro ⟨message, refused⟩
    rw [refused] at accepted
    cases accepted

end AccessPath
