import AccessPath.Update.Exhaustion
import AccessPath.Update.Invariant

/-!
# Snapshot reads of updated columns

`FetchUpdates` takes back whatever the reading transaction must not see. In
every run whose timestamps stay in range this gives its own last value, or that
of the last transaction that committed before it started, or the stored one. A
transaction may also start at the version number of base infos, and then it
misses every update.
-/

namespace AccessPath

open Library List

variable {author : Nat} {T V : Type} {kind : UpdateKind}

/-! ## Fetching is reading back -/

theorem updatesForTransaction_eq_readBack (kind : UpdateKind) {hidden : Nat → Prop}
    [DecidablePred hidden] {lo id : Nat} {ns : List (UpdateInfo V)} (verified : ∀ n ∈ ns,
      n.Verified)
    (hides : ∀ n ∈ ns, hidden n.owner ↔ lo < n.versionNumber ∧ n.versionNumber ≠ id)
    (res : Nat → V) (r : Nat) : updatesForTransaction kind lo id ns res r =
      readBack hidden (overwrites r ns) (res r) := by
  unfold updatesForTransaction
  induction ns generalizing res with
  | nil => rfl
  | cons n ns ih =>
    rw [foldl_cons, ih (fun o got => verified o (mem_cons_of_mem _ got))
      fun o got => hides o (mem_cons_of_mem _ got), overwrites_cons]
    have applied := (verified n mem_cons_self).mergeUpdateInfo_apply kind res r
    cases v : n.tuples.lookup r with
    | none =>
      rw [v] at applied
      split
      · exact congrArg _ applied
      · rfl
    | some old =>
      rw [v] at applied
      refine Eq.trans ?_ (readBack.eq_2 hidden (res r) ⟨n.owner, old⟩ _).symm
      rw [← if_congr (hides n mem_cons_self) rfl rfl]
      split
      · exact congrArg _ applied
      · rfl

theorem mem_of_latestBy {ws : List (Write T)} {v : Option T}
    (latest : latestBy ws author = some v) : ⟨author, v⟩ ∈ ws := by
  obtain ⟨w, got, rfl⟩ := Option.map_eq_some_iff.mp latest
  have same : w.author = author := by simpa using find?_some got
  rw [← same]
  exact mem_of_find?_eq_some got

theorem exists_latestBy {ws : List (Write T)} {w : Write T} (isIn : w ∈ ws) :
    ∃ v, latestBy ws w.author = some v := by
  unfold latestBy
  cases got : ws.find? (·.author = w.author) with
  | none => exact absurd (decide_eq_true rfl) (find?_eq_none.mp got w isIn)
  | some last => exact ⟨last.value, rfl⟩

section

variable {committedAt : Nat → Option Nat} {ws : List (Write T)} {lo : Nat}

theorem mem_committed_iff {id : Nat} :
    id ∈ (ws.map Write.author).filter (fun id => ∃ t ∈ committedAt id, t < lo) ↔
      id ∈ ws.map Write.author ∧ ∃ t, committedAt id = some t ∧ t < lo := by
  rw [mem_filter, decide_eq_true_iff]
  rfl

theorem lastCommitted_some (last : lastCommitted committedAt ws lo = some author) :
    author ∈ ws.map Write.author ∧ ∃ t, committedAt author = some t ∧ t < lo ∧
        ∀ o ∈ ws.map Write.author, ∀ t', committedAt o = some t' → t' < lo → t' ≤ t := by
  obtain ⟨wrote, t, done, he⟩ := mem_committed_iff.mp (argmax_mem last)
  refine ⟨wrote, t, done, he, fun o isIn t' done' he' => ?_⟩
  have hl := le_of_mem_argmax (mem_committed_iff.mpr ⟨isIn, t', done', he'⟩) last
  rwa [done, done'] at hl

theorem lastCommitted_none (nobody : lastCommitted committedAt ws lo = none) {o : Nat}
    (isIn : o ∈ ws.map Write.author) : ¬ ∃ t, committedAt o = some t ∧ t < lo := by
  intro old
  have got := mem_committed_iff.mpr ⟨isIn, old⟩
  rw [argmax_eq_none.mp nobody] at got
  cases got

end

section

variable {stored : Nat → FlatVector T} {s : UpdateState kind T} {tx : TransactionData}
  (conf : s.Conforms stored) (hr : s.Reading tx)
include conf hr

theorem UpdateState.Conforms.fetchUpdates_eq
    [DecidablePred (s.header.Hidden tx.transactionId tx.startTime)] {v : Nat}
    {layers : Nat → List (Overwrite (kind.Value T))}
    (lay : LayeredBy s.header s.startedAt layers (s.segment v)) (r : Nat) :
    s.segment.fetchUpdates tx v (kind.extract (stored v)) r =
      readBack (s.header.Hidden tx.transactionId tx.startTime) (layers r)
        (currentOf (kind.extract (stored v)) (s.segment v) r) := by
  have reads : s.header.Reading tx.transactionId tx.startTime := hr
  unfold UpdateSegment.fetchUpdates
  cases got : s.segment v with
  | none =>
    rw [got] at lay
    rw [lay r]
    rfl
  | some c =>
    rw [got] at lay
    obtain ⟨sound, lay⟩ := lay
    have early := conf.starts _ _ reads.1
    have large := (conf.header.active_lt reads.1).2.2.1
    -- every reader takes the base info
    have base : tx.startTime < c.base.versionNumber ∧ c.base.versionNumber ≠ tx.transactionId := by
      rw [sound.version]
      omega
    have hides (n : UpdateInfo (kind.Value T)) (isIn : n ∈ c.nodes) :=
      (sound.accounted n isIn).hidden_iff conf.header reads
        fun done => conf.apart _ _ done _ _ reads.1
    have nodes := updatesForTransaction_eq_readBack kind sound.verified hides
      (kind.mergeUpdateInfo c.base (kind.extract (stored v))) r
    rw [sound.base.mergeUpdateInfo_apply, lay.shown r, readBack_filter] at nodes
    · refine Eq.trans ?_ nodes
      dsimp only
      unfold updatesForTransaction
      rw [foldl_cons, if_pos base]
    · intro o isIn cleaned
      exact (lay.settled r o isIn (of_decide_eq_false cleaned)).visible reads

variable {stk : List (Overwrite (kind.Value T))} (succession : stk.Pairwise fun newer older =>
    s.header.Succeeds s.startedAt newer.author older.author)
  [DecidablePred (s.header.Hidden tx.transactionId tx.startTime)]
include succession

/-- What the latest visible transaction on the stack left is what a fetch gives. -/
theorem UpdateState.Conforms.valueOf_eq_readBack (mem : author ∈ authors stk)
    (visible : ¬ s.header.Hidden tx.transactionId tx.startTime author)
    (latest : ∀ newer ∈ authors stk, s.header.Succeeds s.startedAt newer author →
      s.header.Hidden tx.transactionId tx.startTime newer)
    (cur : kind.Value T) : valueOf author stk cur =
      some (readBack (s.header.Hidden tx.transactionId tx.startTime) stk cur) := by
  have reads : s.header.Reading tx.transactionId tx.startTime := hr
  apply readBack_eq_valueOf
  · exact succession.imp fun succeeds => succeeds.visible reads conf.timed
  · refine succession.imp_of_mem fun {newer older} newerIn olderIn succeeds same => ?_
    exact latest newer.author (List.mem_map_of_mem newerIn) (same ▸ succeeds)
  · exact mem
  · exact visible

variable {ws : List (Write T)} {v : Option T} {cur : kind.Value T}
  (expl : Explains s.header kind v ws stk cur)
include expl

theorem UpdateState.Conforms.represents_own {own : Option T}
    (wrote : latestBy ws tx.transactionId = some own) :
    kind.Represents (readBack (s.header.Hidden tx.transactionId tx.startTime) stk cur) own := by
  have reads : s.header.Reading tx.transactionId tx.startTime := hr
  obtain ⟨-, -, -, -, uncommitted⟩ := conf.header.active_lt reads.1
  by_cases hos : tx.transactionId ∈ authors stk
  · have left := conf.valueOf_eq_readBack hr succession hos (not_not.mpr (.inl rfl))
      (fun newer _ succeeds => ?_) cur
    · obtain ⟨_, latest, hrep⟩ := expl.written _ hos
      cases wrote.symm.trans latest
      exact hrep _ left
    · obtain ⟨_, -, done, -⟩ := succeeds
      cases uncommitted.symm.trans done
  · refine (expl.missing _ (mem_of_latestBy wrote) ?_ hos).represents _
    refine .inr ⟨⟨_, reads.1⟩, ?_⟩
    intro ⟨e, isEnding, same, hun⟩
    rw [reads.2 e isEnding same] at hun
    cases hun

omit conf hr succession [DecidablePred _] in
theorem Explains.wrote (mem : author ∈ authors stk) : author ∈ ws.map Write.author := by
  obtain ⟨_, latest, -⟩ := expl.written author mem
  exact List.mem_map_of_mem (f := Write.author) (mem_of_latestBy latest)

variable (foreign : latestBy ws tx.transactionId = none)
include foreign

omit conf hr succession [DecidablePred _] in
theorem Explains.not_own : tx.transactionId ∉ authors stk := by
  intro hos
  obtain ⟨_, latest, -⟩ := expl.written _ hos
  cases foreign.symm.trans latest

/-- The last transaction that wrote to the row and committed before the start. -/
theorem UpdateState.Conforms.represents_committed
    (last : lastCommitted s.committedAt ws tx.startTime = some author) :
    ∃ left, latestBy ws author = some left ∧
      kind.Represents (readBack (s.header.Hidden tx.transactionId tx.startTime) stk cur) left := by
  obtain ⟨wrote, t, done, he, latest⟩ := lastCommitted_some last
  obtain ⟨write, isIn, rfl⟩ := List.mem_map.mp wrote
  obtain ⟨left, isLeft⟩ := exists_latestBy isIn
  refine ⟨left, isLeft, ?_⟩
  by_cases hos : write.author ∈ authors stk
  · have got := conf.valueOf_eq_readBack hr succession hos
      (not_not.mpr (.inr ⟨t, done, he⟩)) (fun newer newerIn succeeds => ?_) cur
    · obtain ⟨_, isOther, hrep⟩ := expl.written _ hos
      cases isLeft.symm.trans isOther
      exact hrep _ got
    · -- a later one that is visible would have committed after the last
      rintro (rfl | ⟨t', done', he'⟩)
      · exact expl.not_own foreign newerIn
      · obtain ⟨_, _, committed'', began, _⟩ := succeeds
        obtain ⟨_, began', _⟩ := conf.timed.committed done'
        have order := latest newer (expl.wrote newerIn) t' done' he'
        cases Option.some.inj (done.symm.trans committed'')
        cases Option.some.inj (began.symm.trans began')
        omega
  · have live : s.header.Live write.author := by
      left
      rw [show s.header.committed write.author = _ from done]
      exact Option.some_ne_none _
    exact (expl.missing _ (mem_of_latestBy isLeft) live hos).represents _

omit conf hr succession in
/-- Nobody who wrote to the row had committed before the start. -/
theorem Explains.represents_stored (nobody : lastCommitted s.committedAt ws tx.startTime = none) :
    kind.Represents (readBack (s.header.Hidden tx.transactionId tx.startTime) stk cur) v := by
  rw [readBack_of_hidden]
  · exact expl.oldest
  · intro o isIn
    have hos : o.author ∈ authors stk := List.mem_map_of_mem isIn
    rintro (own | old)
    · exact expl.not_own foreign (own ▸ hos)
    · exact lastCommitted_none nobody (expl.wrote hos) old

end

/-- Snapshot reads: what a transaction fetches represents its own last value of the
row, or that of the last transaction that committed before it started, or the
stored value. -/
theorem UpdateState.fetchUpdates_snapshot {σ : SortByIds} {stored : Nat → FlatVector T}
    {s : UpdateState kind T}
    (reached : ((updateMachine σ kind stored).guarded fun s op => op.InRange s).Reachable s)
    {transaction : TransactionData} (reading : s.Reading transaction) (v row : Nat) :
    kind.Represents (s.segment.fetchUpdates transaction v (kind.extract (stored v)) row)
      (s.snapshotValue stored transaction v row) := by
  classical
  have conforms := conforms_of_reachable reached
  obtain ⟨_, layered, explains⟩ := conforms.explained v
  have succession := layered.succession row
  rw [conforms.fetchUpdates_eq reading layered row]
  unfold UpdateState.snapshotValue
  dsimp only
  split
  · rename_i own wrote
    exact conforms.represents_own reading succession (explains row) wrote
  · rename_i foreign
    split
    · rename_i author last
      obtain ⟨_, isLeft, represents⟩ :=
        conforms.represents_committed reading succession (explains row) foreign last
      rw [isLeft]
      exact represents
    · rename_i nobody
      exact (explains row).represents_stored foreign nobody

/-- A column of zeros. -/
def zeros : Nat → FlatVector Nat := fun _ => ⟨fun _ => 0, fun _ => true⟩

/-- The update of the first row to one. -/
def setFirst : UpdateCall .standard Nat := ⟨[0], ⟨fun _ => 1, fun _ => true⟩, fun _ => 0⟩

/-- Two transactions start; the first one updates a row and commits, which the
second one does not see. -/
theorem UpdateState.fetchUpdates_snapshot_concurrent : ∃ s : UpdateState .standard Nat,
      ((updateMachine .insertion .standard zeros).guarded fun s op => op.InRange s).Reachable s ∧
        s.Reading (nthTransaction 1) ∧
          s.committedAt transactionIdStart = some 4 ∧ s.writes 0 0 ≠ [] ∧
            UpdateKind.standard.Represents (s.segment.fetchUpdates (nthTransaction 1) 0
                (UpdateKind.standard.extract (zeros 0)) 0)
              (s.snapshotValue zeros (nthTransaction 1) 0 0) := by
  obtain ⟨s, reached, reading, committed, written⟩ :=
    (updateMachine .insertion .standard zeros).exists_reachable_of_run
      (P := fun s => s.Reading (nthTransaction 1) ∧
        s.committedAt transactionIdStart = some 4 ∧ (s.writes 0 0).length = 1)
      (fun s op => op.InRange s)
      [.start, .start, .update (nthTransaction 0) 0 setFirst,
        .beginCommit transactionIdStart, .beginStamping, .commitUpdate 0, .endCommit]
      (.init rfl) (by decide)
  exact ⟨s, reached, reading, committed, ne_nil_of_length_pos (by rw [written]; decide),
    UpdateState.fetchUpdates_snapshot reached reading 0 0⟩

/-- The last transaction that can be started. -/
def lastTransaction : TransactionData where
  transactionId := transactionIdStart + (transactionIdStart - 4)
  startTime := transactionIdStart - 1
  startTime_lt := by decide
  id_range := .inr (Nat.le_add_right _ _)
  id_lt := by decide

/-- The last transaction that can be started reads the stored value of a row that has
been updated by a transaction that committed before. -/
theorem UpdateState.fetchUpdates_exhausted : ∃ s : UpdateState .standard Nat,
      (updateMachine .insertion .standard zeros).system.Reachable s ∧ s.Reading lastTransaction ∧
        ¬ UpdateKind.standard.Represents
          (s.segment.fetchUpdates lastTransaction 0 (UpdateKind.standard.extract (zeros 0)) 0)
          (s.snapshotValue zeros lastTransaction 0 0) := by
  have reached : (updateMachine .insertion .standard zeros).system.Reachable .new := .init rfl
  obtain ⟨s, reached, unused⟩ := UpdateState.unused_new.wait reached
    (fun t isIn => by cases isIn) (transactionIdStart - 5) (by decide)
  obtain ⟨s', reached', reading, fetched, snapshot⟩ :=
    (updateMachine .insertion .standard zeros).exists_reachable_of_run
      (P := fun s => s.Reading lastTransaction ∧
        s.segment.fetchUpdates lastTransaction 0 (UpdateKind.standard.extract (zeros 0)) 0 =
          (0 : Nat) ∧ s.snapshotValue zeros lastTransaction 0 0 = some 1)
      (fun _ _ => True)
      [.start, .update (nthTransaction (transactionIdStart - 5)) 0 setFirst,
        .beginCommit (transactionIdStart + (transactionIdStart - 5)), .beginStamping,
        .commitUpdate 0, .endCommit, .start]
      reached (by
        obtain ⟨⟨_, _, _, _, _, _, _, _, _, _⟩, _, _, _, _, _, _⟩ := s
        obtain ⟨rfl, rfl, rfl, rfl, rfl, active, clock, nextId⟩ := unused
        subst active clock nextId
        rfl)
  refine ⟨s', reached', reading, fun represents => ?_⟩
  rw [fetched, snapshot] at represents
  exact absurd (represents 1 rfl) Nat.zero_ne_one

end AccessPath
