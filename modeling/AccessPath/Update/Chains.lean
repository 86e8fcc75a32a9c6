import AccessPath.Update.UpdateState

/-!
# Chains as stacks of overwritten values

For every row, the infos of a chain that have a tuple for it are a stack of
overwrites in the sense of `Library.Overwrites`. `UpdateChain.Sound` is what
holds of a chain by itself, `UpdateChain.Layered` relates it to those stacks,
and `Explains` relates them to the record of what was written.
-/

namespace AccessPath

open Library DuckTransactionManager Function
open List hiding lookup_eq_none_iff

variable {t : DuckTransaction} {m : DuckTransactionManager} {e : Ending} {owner row v version : Nat}

variable {T V : Type} {kind : UpdateKind}

/-! ## The invariant -/

def UpdateChain.owners (chain : UpdateChain V) : List Nat := chain.nodes.map UpdateInfo.owner

/-- What the infos of a chain have overwritten in a row, newest first. -/
def overwrites (row : Nat) (nodes : List (UpdateInfo V)) : List (Overwrite V) :=
  nodes.filterMap fun node => (node.tuples.lookup row).map (Overwrite.mk node.owner)

/-- The newest value of a row. -/
def UpdateChain.current (chain : UpdateChain V) (table : Nat → V) (row : Nat) : V :=
  (chain.base.tuples.lookup row).getD (table row)

structure UpdateChain.Sound (h : Header) (chain : UpdateChain V) : Prop where
  version : chain.base.versionNumber = transactionIdStart - 1
  base : chain.base.Verified
  verified : ∀ node ∈ chain.nodes, node.Verified
  covered : ∀ node ∈ chain.nodes, ∀ tuple ∈ node.tuples, chain.base.tuples.lookup tuple.1 ≠ none
  owners : chain.owners.Nodup
  accounted : ∀ node ∈ chain.nodes, h.Accounts node.owner node.versionNumber
  /-- Whatever comes before the info of an active transaction is hidden from it. -/
  placed : chain.nodes.Pairwise fun newer older =>
    ∀ start, h.active older.owner start → start < newer.versionNumber

structure UpdateChain.Layered (h : Header) (started : Nat → Option Nat) (chain : UpdateChain V)
    (layers : Nat → List (Overwrite V)) : Prop where
  shown : ∀ row, overwrites row chain.nodes = (layers row).filter fun o => o.author ∈ chain.owners
  settled : ∀ row, ∀ o ∈ layers row, o.author ∉ chain.owners → h.Settled o.author
  succession : ∀ row, (layers row).Pairwise fun newer older =>
    h.Succeeds started newer.author older.author

/-- A value that the segment does not store. -/
def UpdateKind.Drops (kind : UpdateKind) (value : Option T) : Prop :=
  kind = .standard ∧ value = none

theorem UpdateKind.Drops.represents {v : Option T} (drops : kind.Drops v)
    (x : kind.Value T) : kind.Represents x v := by
  obtain ⟨rfl, rfl⟩ := drops
  intro t got
  cases got

/-- The stack of a row against its record: a transaction on the stack left its
last value, and one that is not on the stack has stored nothing. -/
structure Explains (h : Header) (kind : UpdateKind) (stored : Option T) (writes : List (Write T))
    (stack : List (Overwrite (kind.Value T))) (current : kind.Value T) : Prop where
  oldest : kind.Represents (oldestValue stack current) stored
  written : ∀ author ∈ authors stack, ∃ value, latestBy writes author = some value ∧
    ∀ x, valueOf author stack current = some x → kind.Represents x value
  missing : ∀ write ∈ writes, h.Live write.author → write.author ∉ authors stack →
    kind.Drops write.value
  known : ∀ write ∈ writes, write.author < h.nextId

/-- The stacks of one vector, which may have no infos yet. -/
def LayeredBy (h : Header) (started : Nat → Option Nat) (layers : Nat → List (Overwrite V)) :
    Option (UpdateChain V) → Prop
  | none => ∀ row, layers row = []
  | some chain => chain.Sound h ∧ chain.Layered h started layers

def currentOf (table : Nat → V) : Option (UpdateChain V) → Nat → V
  | none, row => table row
  | some chain, row => chain.current table row

structure UpdateState.Conforms (stored : Nat → FlatVector T) (s : UpdateState kind T) : Prop where
  header : s.header.Sound transactionIdStart
  nextId : transactionIdStart ≤ s.header.nextId
  timed : s.header.Timed s.startedAt
  starts : ∀ id start, s.header.active id start → start < transactionIdStart - 1
  apart : ∀ id time, s.header.committed id = some time →
    ∀ other start, s.header.active other start → time ≠ start
  vectors : ∀ v, s.segment v ≠ none → v < rowGroupVectorCount
  explained : ∀ v, ∃ layers, LayeredBy s.header s.startedAt layers (s.segment v) ∧
    ∀ row, Explains s.header kind ((stored v).get row) (s.writes v row) (layers row)
      (currentOf (kind.extract (stored v)) (s.segment v) row)

/-! ## Facts about chains -/

variable {nodes : List (UpdateInfo V)}

theorem mem_overwrites {o : Overwrite V} : o ∈ overwrites row nodes ↔
      ∃ n ∈ nodes, n.owner = o.author ∧ n.tuples.lookup row = some o.old := by
  unfold overwrites
  rw [mem_filterMap]
  refine exists_congr fun n => and_congr_right fun _ => ?_
  rw [Option.map_eq_some_iff]
  constructor
  · rintro ⟨_, got, rfl⟩
    exact ⟨rfl, got⟩
  · rintro ⟨owner, got⟩
    exact ⟨o.old, got, by rw [owner]⟩

section

variable {h : Header} {hst : Nat → Option Nat} {c : UpdateChain V}
  {layers : Nat → List (Overwrite V)}

theorem UpdateChain.Sound.node_unique (ok : c.Sound h) {n o : UpdateInfo V}
    (mem : n ∈ c.nodes) (foundOther : o ∈ c.nodes)
    (eq : n.owner = o.owner) : n = o :=
  inj_on_of_nodup_map ok.owners mem foundOther eq

/-- A transaction whose info is in the chain is on the stack exactly where that has
a tuple. -/
theorem UpdateChain.Layered.mem_authors_iff (lay : c.Layered h hst layers)
    (ok : c.Sound h) {n : UpdateInfo V} (mem : n ∈ c.nodes) (r : Nat) :
    n.owner ∈ authors (layers r) ↔ n.tuples.lookup r ≠ none := by
  have onChain : n.owner ∈ c.owners := List.mem_map_of_mem mem
  constructor
  · intro hos
    obtain ⟨o, isIn, eq⟩ := List.mem_map.mp hos
    have kept : o ∈ overwrites r c.nodes := by
      rw [lay.shown r]
      exact mem_filter.mpr ⟨isIn, decide_eq_true (eq ▸ onChain)⟩
    obtain ⟨_, foundOther, owner, v⟩ := mem_overwrites.mp kept
    rw [ok.node_unique mem foundOther (owner.trans eq).symm, v]
    exact Option.some_ne_none _
  · intro hp
    obtain ⟨old, v⟩ := Option.ne_none_iff_exists'.mp hp
    have shown : ⟨n.owner, old⟩ ∈ overwrites r c.nodes := mem_overwrites.mpr ⟨n, mem, rfl, v⟩
    rw [lay.shown r] at shown
    exact List.mem_map_of_mem (f := Overwrite.author) (mem_filter.mp shown).1

theorem UpdateChain.Layered.alive (lay : c.Layered h hst layers) (ok : c.Sound h)
    {a : Nat} (mem : a ∈ authors (layers row)) :
    h.committed a ≠ none ∨ h.Active a ∧ a ∈ c.owners := by
  obtain ⟨o, isIn, rfl⟩ := List.mem_map.mp mem
  by_cases onChain : o.author ∈ c.owners
  · obtain ⟨n, got, owner⟩ := List.mem_map.mp onChain
    rcases ok.accounted n got with done | ⟨act, -⟩
    · left
      rw [← owner, done]
      exact Option.some_ne_none _
    · exact .inr ⟨owner ▸ act, onChain⟩
  · obtain ⟨_, done, -⟩ := lay.settled row o isIn onChain
    left
    rw [done]
    exact Option.some_ne_none _

theorem LayeredBy.succession {c : Option (UpdateChain V)}
    (lay : LayeredBy h hst layers c) (r : Nat) :
    (layers r).Pairwise fun newer older => h.Succeeds hst newer.author older.author := by
  cases c with
  | none =>
    rw [lay r]
    exact List.Pairwise.nil
  | some c => exact lay.2.succession r

end

/-! ## Steps that leave the infos alone -/

section

variable {h h' : Header} {hst hst' : Nat → Option Nat} (ok : h.Sound transactionIdStart)
  (step : h.Follows h')
include ok step

theorem UpdateChain.Sound.follow {c : UpdateChain V} (chainSound : c.Sound h)
    (accounted : ∀ n ∈ c.nodes, h'.Accounts n.owner n.versionNumber) :
    c.Sound h' := by
  refine { chainSound with accounted := accounted, placed := ?_ }
  refine chainSound.placed.imp_of_mem fun newerIn olderIn hpl lo act => ?_
  have hk := (chainSound.accounted _ olderIn).known ok
  exact hpl lo (step.active act hk)

theorem LayeredBy.follow (kept : ∀ id lo, hst id = some lo → hst' id = some lo)
    {ls : Nat → List (Overwrite V)} {chain : Option (UpdateChain V)}
    (lay : LayeredBy h hst ls chain)
    (accounted : ∀ c ∈ chain, ∀ n ∈ c.nodes, h'.Accounts n.owner n.versionNumber) :
    LayeredBy h' hst' ls chain := by
  cases chain with
  | none => exact lay
  | some chain =>
    obtain ⟨chainSound, lay⟩ := lay
    refine ⟨chainSound.follow ok step (accounted chain rfl), lay.shown, ?_, ?_⟩
    · intro row o isIn cleaned
      exact (lay.settled row o isIn cleaned).follow ok step
    · intro row
      exact (lay.succession row).imp fun succeeds => succeeds.follow step kept

end

variable {stack : List (Overwrite (kind.Value T))}

theorem Explains.follow {h h' : Header} {st : Option T} {ws : List (Write T)} {cur : kind.Value T}
    (expl : Explains h kind st ws stack cur)
    (live : ∀ id < h.nextId, h'.Live id → h.Live id) (nextId : h.nextId ≤ h'.nextId) :
    Explains h' kind st ws stack cur where
  oldest := expl.oldest
  written := expl.written
  missing := fun w isIn alive => expl.missing w isIn (live _ (expl.known w isIn) alive)
  known := fun w isIn => (expl.known w isIn).trans_le nextId

namespace UpdateState.Conforms

section

variable {st : Nat → FlatVector T} {s s' : UpdateState kind T} (conf : s.Conforms st)
include conf

theorem of_header (seg : s'.segment = s.segment)
    (ws : s'.writes = s.writes) (head : s'.header.Sound transactionIdStart)
    (step : s.header.Follows s'.header) (nextId : s.header.nextId ≤ s'.header.nextId)
    (accounted : ∀ v, ∀ c ∈ s.segment v, ∀ n ∈ c.nodes, s'.header.Accounts n.owner n.versionNumber)
    (live : ∀ id < s.header.nextId, s'.header.Live id → s.header.Live id)
    (timed : s'.header.Timed s'.startedAt)
    (kept : ∀ id lo, s.startedAt id = some lo → s'.startedAt id = some lo)
    (starts : ∀ id lo, s'.header.active id lo → lo < transactionIdStart - 1)
    (apart : ∀ id t, s'.header.committed id = some t →
      ∀ o lo, s'.header.active o lo → t ≠ lo) : s'.Conforms st where
  header := head
  nextId := conf.nextId.trans nextId
  timed := timed
  starts := starts
  apart := apart
  vectors := seg ▸ conf.vectors
  explained := by
    intro v
    obtain ⟨layers, lay, expl⟩ := conf.explained v
    rw [seg, ws]
    exact ⟨layers, lay.follow conf.header step kept (accounted v),
      fun row => (expl row).follow live nextId⟩

theorem accounted {c : UpdateChain (kind.Value T)} (got : s.segment v = some c)
    {n : UpdateInfo (kind.Value T)} (mem : n ∈ c.nodes) :
    s.header.Accounts n.owner n.versionNumber := by
  obtain ⟨_, lay, -⟩ := conf.explained v
  rw [got] at lay
  exact lay.1.accounted n mem

/-- The ending transaction changes, but neither the active ones nor the commits. -/
theorem of_ending (seg : s'.segment = s.segment)
    (ws : s'.writes = s.writes) (startedAt : s'.startedAt = s.startedAt)
    (head : s'.header.Sound transactionIdStart) (active : s'.header.active = s.header.active)
    (done : s'.header.committed = s.header.committed)
    (nextId : s'.header.nextId = s.header.nextId)
    (pos : ∀ id x, s.header.Stands id x → s'.header.Stands id x)
    (back : ∀ id, s.header.Undoing id → s'.header.Undoing id) : s'.Conforms st := by
  have sameActive (id : Nat) : s'.header.Active id ↔ s.header.Active id := by
    simp only [Header.Active, active]
  refine conf.of_header seg ws head ?_ nextId.ge ?_ ?_ ?_ ?_ ?_ ?_
  · apply Header.Follows.of_fewer conf.header
    · intro id lo now
      rwa [active] at now
    · exact done
  · intro v c got n hno
    rcases conf.accounted got hno with pre | ⟨act, standing⟩
    · exact .inl (done ▸ pre)
    · exact .inr ⟨(sameActive _).mpr act, pos _ _ standing⟩
  · intro id _ live
    rcases live with pre | ⟨act, standing⟩
    · exact .inl (done ▸ pre)
    · exact .inr ⟨(sameActive id).mp act, fun pre => standing (back id pre)⟩
  · have timed := conf.timed
    rw [startedAt]
    refine ⟨?_, ?_, ?_⟩
    · intro id lo now
      exact timed.active (active ▸ now)
    · intro id t now
      exact timed.committed (done ▸ now)
    · intro id lo began
      exact nextId ▸ timed.known began
  · intro id lo began
    exact startedAt ▸ began
  · intro id lo now
    exact conf.starts id lo (active ▸ now)
  · intro id t now o lo act
    exact conf.apart id t (done ▸ now) o lo (active ▸ act)

theorem advance {phase : Phase} (ends : s.ending = some e) (steady : e.phase ≠ .undoing)
    (ne : phase ≠ .working) :
    UpdateState.Conforms st { s with ending := some { e with phase := phase } } := by
  refine conf.of_ending rfl rfl rfl (conf.header.advance ends phase) rfl rfl rfl ?_ ?_
  · intro id x pos
    rcases pos with own | ⟨e', ends', eq, -, drew⟩
    · exact .inl own
    · cases ends.symm.trans ends'
      exact .inr ⟨_, rfl, eq, ne, drew⟩
  · intro id hun
    obtain ⟨_, ends', -, phase⟩ := hun
    cases ends.symm.trans ends'
    exact absurd phase steady

theorem beginRollback {tid : Nat} (idle : s.ending = none) (got : s.manager.find tid = some t) :
    UpdateState.Conforms st { s with ending := some ⟨tid, none, .undoing⟩ } := by
  obtain ⟨act, rfl⟩ := active_of_find got
  refine conf.of_ending rfl rfl rfl (conf.header.rollback act) rfl rfl rfl ?_ ?_
  · intro id x pos
    rcases pos with own | ⟨e, ends, -⟩
    · exact .inl own
    · cases idle.symm.trans ends
  · intro id hun
    obtain ⟨_, ends, -⟩ := hun
    cases idle.symm.trans ends

theorem beginCommit {tid : Nat} (idle : s.ending = none) (got : s.manager.find tid = some t)
    (room : s.manager.currentStartTimestamp < transactionIdStart) :
    UpdateState.Conforms st { s with
      manager := s.manager.getCommitTimestamp.1
      ending := some ⟨tid, some s.manager.getCommitTimestamp.2, .working⟩ } := by
  obtain ⟨act, rfl⟩ := active_of_find got
  refine conf.of_ending rfl rfl rfl (conf.header.commit room act) rfl rfl rfl ?_ ?_
  · intro id x pos
    rcases pos with own | ⟨e, ends, -⟩
    · exact .inl own
    · cases idle.symm.trans ends
  · intro id hun
    obtain ⟨_, ends, -⟩ := hun
    cases idle.symm.trans ends

theorem start (idle : s.ending = none) (hst : s.manager.startTransaction = .ok (m, t))
    (room : s.manager.currentStartTimestamp < transactionIdStart - 1) :
    UpdateState.Conforms st { s with
      manager := m
      startedAt := update s.startedAt t.transactionId (some t.startTime) } := by
  obtain ⟨blo, -⟩ := s.manager.startTransaction_ok hst
  have drew : t.transactionId = s.header.nextId ∧ t.startTime = s.header.clock := by
    unfold startTransaction at hst
    split at hst
    · cases hst
    · cases hst
      exact ⟨rfl, rfl⟩
  set s' : UpdateState kind T := { s with
    manager := m
    startedAt := update s.startedAt t.transactionId (some t.startTime) }
  have heq : s'.header = { s.header with
      clock := s.header.clock + 1
      nextId := s.header.nextId + 1
      active := fun id lo => s.header.active id lo ∨ id = s.header.nextId ∧ lo = s.header.clock } :=
    header_startTransaction hst
  have hsd := conf.header
  have timed := conf.timed
  have ho {id : Nat} (hk : id < s.header.nextId) : s'.startedAt id = s.startedAt id := by
    refine update_of_ne ?_ _ _
    rw [drew.1]
    exact hk.ne
  have grown (id lo : Nat) (began : s.startedAt id = some lo) : s'.startedAt id = some lo :=
    (ho (timed.known began)).trans began
  refine conf.of_header rfl rfl ?_ ?_ ?_ ?_ ?_ ?_ grown ?_ ?_
  · rw [heq]
    exact hsd.start idle blo conf.nextId
  · rw [heq]
    exact .start hsd
  · rw [heq]
    exact Nat.le_succ _
  · intro v c got n hno
    rw [heq]
    rcases conf.accounted got hno with done | ⟨⟨lo, act⟩, pos⟩
    · exact .inl done
    · exact .inr ⟨⟨lo, .inl act⟩, pos⟩
  · intro id hk live
    rw [heq] at live
    rcases live with done | ⟨⟨lo, act | ⟨rfl, -⟩⟩, standing⟩
    · exact .inl done
    · exact .inr ⟨⟨lo, act⟩, standing⟩
    · omega
  · rw [heq]
    refine ⟨?_, ?_, ?_⟩
    · rintro id lo (act | ⟨rfl, rfl⟩)
      · exact grown id lo (timed.active act)
      · rw [← drew.1, ← drew.2]
        exact update_self ..
    · intro id tm done
      obtain ⟨lo, began, he⟩ := timed.committed done
      exact ⟨lo, grown id lo began, he⟩
    · intro id lo began
      by_cases eq : id = t.transactionId
      · rw [eq, drew.1]
        exact Nat.lt_succ_self _
      · have pre := (update_of_ne eq ..).symm.trans began
        exact Nat.lt_succ_of_lt (timed.known pre)
  · rw [heq]
    rintro id lo (act | ⟨-, rfl⟩)
    · exact conf.starts id lo act
    · exact room
  · rw [heq]
    rintro id tm done o lo (act | ⟨-, rfl⟩)
    · exact conf.apart id tm done o lo act
    · exact (hsd.committed_lt done).1.ne

theorem of_removed {e : Ending} {m : DuckTransactionManager}
    {committedAt : Nat → Option Nat} (ends : s.ending = some e)
    (clock : m.currentStartTimestamp = s.manager.currentStartTimestamp)
    (nextId : m.currentTransactionId = s.manager.currentTransactionId)
    (same : m.activeTransactions = s.manager.others e.id)
    (head : Header.Sound transactionIdStart { s.header with
      active := fun id lo => s.header.active id lo ∧ id ≠ e.id
      ending := none
      committed := committedAt })
    (step : s.header.Follows { s.header with
      active := fun id lo => s.header.active id lo ∧ id ≠ e.id
      ending := none
      committed := committedAt })
    (ended : ∀ id, committedAt id = s.header.committed id ∨
      id = e.id ∧ e.phase ≠ .undoing ∧ committedAt id = e.commitTime)
    (accounted : ∀ v, ∀ c ∈ s.segment v, ∀ n ∈ c.nodes, n.owner = e.id →
      committedAt n.owner = some n.versionNumber) :
    UpdateState.Conforms st { s with
      manager := m
      ending := none
      committedAt := committedAt } := by
  set s' : UpdateState kind T := { s with
    manager := m
    ending := none
    committedAt := committedAt }
  have heq : s'.header = { s.header with
      active := fun id lo => s.header.active id lo ∧ id ≠ e.id
      ending := none
      committed := committedAt } :=
    header_others e.id clock nextId same
  have hsd := conf.header
  have timed := conf.timed
  have pre : s.header.ending = some e := ends
  refine conf.of_header rfl rfl (heq ▸ head) (heq ▸ step) ?_ ?_ ?_ ?_ (fun _ _ began => began) ?_ ?_
  · rw [heq]
  · intro v c got n hno
    rw [heq]
    by_cases mine : n.owner = e.id
    · exact .inl (accounted v c got n hno mine)
    · rcases conf.accounted got hno with done | ⟨⟨lo, act⟩, pos⟩
      · exact .inl (step.committed done)
      · exact .inr ⟨⟨lo, act, mine⟩, .inl (pos.of_other pre mine)⟩
  · intro id _ live
    rw [heq] at live
    rcases live with done | ⟨⟨lo, act, ne⟩, -⟩
    · rcases ended id with eq | ⟨rfl, steady, -⟩
      · exact .inl (eq ▸ done)
      · refine .inr ⟨hsd.ending_active pre, ?_⟩
        rintro ⟨e', ends', -, hun⟩
        cases pre.symm.trans ends'
        exact steady hun
    · refine .inr ⟨⟨lo, act⟩, ?_⟩
      rintro ⟨_, ends', eq, -⟩
      cases pre.symm.trans ends'
      exact ne eq.symm
  · rw [heq]
    refine ⟨fun act => timed.active act.1, ?_, timed.known⟩
    intro id t done
    rcases ended id with eq | ⟨rfl, -, now⟩
    · exact timed.committed (eq ▸ done)
    · obtain ⟨lo, act⟩ := hsd.ending_active pre
      have late := (hsd.ending_lt pre (now.symm.trans done)).2.2.1
      exact ⟨lo, timed.active act, late e.id lo act⟩
  · rw [heq]
    exact fun id lo act => conf.starts id lo act.1
  · rw [heq]
    intro id t done o lo act
    rcases ended id with eq | ⟨rfl, -, now⟩
    · exact conf.apart id t (eq ▸ done) o lo act.1
    · exact ((hsd.ending_lt pre (now.symm.trans done)).2.2.1 o lo act.1).ne'

theorem vector_lt {c : UpdateChain (kind.Value T)} (got : s.segment v = some c) :
    v < rowGroupVectorCount :=
  conf.vectors v (by rw [got]; exact Option.some_ne_none _)

theorem endCommit {cid : Nat} (ends : s.ending = some e) (stamping : e.phase = .stamping)
    (stamped : ∀ v < rowGroupVectorCount, ∀ c ∈ s.segment v, ∀ n ∈ c.nodes, n.owner = e.id →
      some n.versionNumber = e.commitTime)
    (got : e.commitTime = some cid) (found : s.manager.find e.id = some t) :
    UpdateState.Conforms st { s with
      manager := s.manager.endCommit t cid 0 false
      ending := none
      committedAt := update s.committedAt e.id (some cid) } := by
  have ho : (s.manager.endCommit t cid 0 false).activeTransactions = s.manager.others e.id := by
    rw [← (mem_of_find found).2]
    rfl
  refine conf.of_removed ends rfl rfl ho (conf.header.committed ends got)
    (.committed_step conf.header ends got) ?_ ?_
  · intro id
    by_cases eq : id = e.id
    · refine .inr ⟨eq, by rw [stamping]; decide, ?_⟩
      rw [eq, update_self, got]
    · exact .inl (update_of_ne eq ..)
  · intro v c found n hno mine
    have version := stamped v (conf.vector_lt found) c found n hno mine
    rw [mine, update_self, version, got]

theorem endRollback (ends : s.ending = some e)
    (undone : ∀ v < rowGroupVectorCount, ∀ c ∈ s.segment v, ¬ c.HasOwner e.id)
    (clock : m.currentStartTimestamp = s.manager.currentStartTimestamp)
    (nextId : m.currentTransactionId = s.manager.currentTransactionId)
    (eq : m.activeTransactions = s.manager.others e.id) :
    UpdateState.Conforms st { s with manager := m, ending := none } := by
  refine conf.of_removed ends clock nextId eq (conf.header.undone e.id)
    (.of_fewer conf.header (fun _ _ act => act.1) rfl) (fun _ => .inl rfl) ?_
  intro v c got n hno mine
  exact absurd ⟨n, hno, mine⟩ (undone v (conf.vector_lt got) c got)

end

/-! ## Steps that change one chain -/

theorem of_vector {st : Nat → FlatVector T} {s s' : UpdateState kind T}
    (conf : s.Conforms st) (head : s'.header = s.header)
    (startedAt : s'.startedAt = s.startedAt) {v : Nat} (lt : v < rowGroupVectorCount)
    (same : ∀ w, w ≠ v → s'.segment w = s.segment w ∧ s'.writes w = s.writes w)
    (here : ∃ layers, LayeredBy s.header s.startedAt layers (s'.segment v) ∧
      ∀ row, Explains s.header kind ((st v).get row) (s'.writes v row) (layers row)
        (currentOf (kind.extract (st v)) (s'.segment v) row)) : s'.Conforms st where
  header := head ▸ conf.header
  nextId := head ▸ conf.nextId
  timed := by
    rw [head, startedAt]
    exact conf.timed
  starts := head ▸ conf.starts
  apart := head ▸ conf.apart
  vectors := by
    intro w hp
    by_cases eq : w = v
    · exact eq ▸ lt
    · exact conf.vectors w ((same w eq).1 ▸ hp)
  explained := by
    intro w
    rw [head, startedAt]
    by_cases eq : w = v
    · exact eq ▸ here
    · rw [(same w eq).1, (same w eq).2]
      exact conf.explained w

end UpdateState.Conforms

section

variable {h : Header} {hst : Nat → Option Nat} {c : UpdateChain V}
  {layers : Nat → List (Overwrite V)} {owner : Nat}

theorem overwrites_map {change : UpdateInfo V → UpdateInfo V}
    (sameOwner : ∀ n, (change n).owner = n.owner)
    (sameTuples : ∀ n, (change n).tuples = n.tuples) (r : Nat)
    (ns : List (UpdateInfo V)) : overwrites r (ns.map change) = overwrites r ns := by
  unfold overwrites
  rw [filterMap_map]
  refine filterMap_congr fun n _ => ?_
  simp only [Function.comp_apply, sameOwner, sameTuples]

theorem overwrites_filter (r : Nat) (ns : List (UpdateInfo V)) :
    overwrites r (ns.filter (·.owner ≠ owner)) = (overwrites r ns).filter (·.author ≠ owner) := by
  unfold overwrites
  induction ns with
  | nil => rfl
  | cons n ns ih =>
    by_cases mine : n.owner = owner
    · rw [filter_cons_of_neg (by simpa using mine), ih, filterMap_cons]
      cases n.tuples.lookup r with
      | none => rfl
      | some old => exact (filter_cons_of_neg (by simpa using mine)).symm
    · rw [filter_cons_of_pos (by simpa using mine), filterMap_cons, filterMap_cons]
      cases n.tuples.lookup r with
      | none => exact ih
      | some old => exact (congrArg _ ih).trans (filter_cons_of_pos (by simpa using mine)).symm

theorem eraseP_owner (nd : (nodes.map UpdateInfo.owner).Nodup) :
    nodes.eraseP (·.owner = owner) = nodes.filter (·.owner ≠ owner) := by
  induction nodes with
  | nil => rfl
  | cons n nodes ih =>
    obtain ⟨hno, nd⟩ := nodup_cons.mp nd
    by_cases mine : n.owner = owner
    · rw [eraseP_cons_of_pos (by simpa using mine), filter_cons_of_neg (by simpa using mine)]
      symm
      apply filter_eq_self.mpr
      intro o got
      have ne : o.owner ≠ owner := fun eq => hno (mine.trans eq.symm ▸ List.mem_map_of_mem got)
      simpa using ne
    · rw [eraseP_cons_of_neg (by simpa using mine), filter_cons_of_pos (by simpa using mine), ih nd]

namespace UpdateChain

theorem owners_setVersion : (c.setVersion owner version).owners = c.owners := by
  unfold owners setVersion
  rw [List.map_map]
  refine map_congr_left fun n _ => ?_
  simp only [Function.comp_apply]
  split <;> rfl

/-- A version number is replaced by another one of the same transaction that is
hidden from every active one. -/
theorem Sound.setVersion (ok : c.Sound h) (accounts : h.Accounts owner version)
    (late : ∀ id lo, h.active id lo → lo < version) :
    (c.setVersion owner version).Sound h := by
  have change (n : UpdateInfo V) (mem : n ∈ (c.setVersion owner version).nodes) :
      ∃ pre ∈ c.nodes, n.owner = pre.owner ∧ n.tuples = pre.tuples ∧
        (n.versionNumber = pre.versionNumber ∨ n.owner = owner ∧ n.versionNumber = version) := by
    obtain ⟨pre, hno, rfl⟩ := List.mem_map.mp mem
    refine ⟨pre, hno, ?_⟩
    split_ifs with mine
    · exact ⟨rfl, rfl, .inr ⟨mine, rfl⟩⟩
    · exact ⟨rfl, rfl, .inl rfl⟩
  refine ⟨ok.version, ok.base, ?_, ?_, ?_, ?_, ?_⟩
  · intro n mem
    obtain ⟨pre, hno, -, ts, -⟩ := change n mem
    have verified := ok.verified pre hno
    exact ⟨ts ▸ verified.ascending, ts ▸ verified.inside⟩
  · intro n mem
    obtain ⟨pre, hno, -, ts, -⟩ := change n mem
    exact ts ▸ ok.covered pre hno
  · rw [owners_setVersion]
    exact ok.owners
  · intro n mem
    obtain ⟨pre, hno, sameOwner, -, kept | ⟨mine, hrp⟩⟩ := change n mem
    · rw [sameOwner, kept]
      exact ok.accounted pre hno
    · rw [mine, hrp]
      exact accounts
  · refine pairwise_map.mpr (ok.placed.imp fun {newer older} hpl lo act => ?_)
    have pre : h.active older.owner lo := by
      revert act
      split <;> exact id
    split
    · exact late _ lo pre
    · exact hpl lo pre

theorem Layered.setVersion (lay : c.Layered h hst layers) (version : Nat) :
    (c.setVersion owner version).Layered h hst layers := by
  refine ⟨fun row => ?_, by rw [owners_setVersion]; exact lay.settled, lay.succession⟩
  rw [owners_setVersion, ← lay.shown row]
  apply overwrites_map
  · intro n
    split <;> rfl
  · intro n
    split <;> rfl

variable {base : UpdateInfo V}

theorem owners_filter :
    (mk base (c.nodes.filter (·.owner ≠ owner))).owners = c.owners.filter (· ≠ owner) := by
  unfold owners
  rw [List.filter_map]
  rfl

/-- A chain from which the info of one transaction has been taken, while the base
info has kept its rows. -/
theorem Sound.remove (ok : c.Sound h) (version : base.versionNumber = c.base.versionNumber)
    (keys : base.tuples.map Prod.fst = c.base.tuples.map Prod.fst) :
    (UpdateChain.mk base (c.nodes.eraseP (·.owner = owner))).Sound h := by
  rw [eraseP_owner ok.owners]
  have hp (id : Nat) : base.tuples.lookup id ≠ none ↔ c.base.tuples.lookup id ≠ none := by
    rw [ne_eq, ne_eq, lookup_eq_none_iff, lookup_eq_none_iff, keys]
  refine ⟨version.trans ok.version, ⟨?_, ?_⟩, ?_, ?_, ?_, ?_, ?_⟩
  · have asc : (c.base.tuples.map Prod.fst).Pairwise (· < ·) := pairwise_map.mpr ok.base.ascending
    rw [← keys] at asc
    exact pairwise_map.mp asc
  · intro tp got
    have isKey : tp.1 ∈ base.tuples.map Prod.fst := List.mem_map_of_mem got
    rw [keys] at isKey
    obtain ⟨o, htp, eq⟩ := List.mem_map.mp isKey
    exact eq ▸ ok.base.inside o htp
  · intro n got
    exact ok.verified n (mem_of_mem_filter got)
  · intro n got tp htp
    exact (hp tp.1).mpr (ok.covered n (mem_of_mem_filter got) tp htp)
  · rw [owners_filter]
    exact ok.owners.filter _
  · intro n got
    exact ok.accounted n (mem_of_mem_filter got)
  · exact ok.placed.filter _

theorem Layered.shown_remove (lay : c.Layered h hst layers) (r : Nat) :
    overwrites r (c.nodes.filter (·.owner ≠ owner)) =
      (layers r).filter fun o => o.author ∈ c.owners.filter (· ≠ owner) := by
  rw [overwrites_filter, lay.shown r, List.filter_filter]
  refine filter_congr fun o _ => ?_
  simp only [mem_filter, decide_not, Bool.decide_and, Bool.not_eq_true', decide_eq_false_iff_not]
  exact Bool.and_comm _ _

/-- The info of a transaction that everybody's snapshot contains may be cleaned
up. -/
theorem Layered.cleanup (lay : c.Layered h hst layers) (ok : c.Sound h) (still : h.Settled owner) :
    (c.cleanup owner).Layered h hst layers := by
  unfold UpdateChain.cleanup
  rw [eraseP_owner ok.owners]
  refine ⟨fun row => ?_, fun row o isIn cleaned => ?_, lay.succession⟩
  · rw [owners_filter]
    exact lay.shown_remove row
  · by_cases mine : o.author = owner
    · exact mine ▸ still
    · refine lay.settled row o isIn fun onChain => cleaned ?_
      rw [owners_filter]
      exact mem_filter.mpr ⟨onChain, by simpa using mine⟩

/-- The info of a transaction is undone: its overwrites are gone. -/
theorem Layered.remove (lay : c.Layered h hst layers) (ok : c.Sound h) :
    (UpdateChain.mk base (c.nodes.eraseP (·.owner = owner))).Layered h hst
      fun row => (layers row).filter (·.author ≠ owner) := by
  rw [eraseP_owner ok.owners]
  refine ⟨fun row => ?_, fun row o isIn cleaned => ?_, fun row => ?_⟩
  · rw [owners_filter, List.filter_filter]
    refine (lay.shown_remove row).trans (filter_congr fun o _ => ?_)
    cases decide (o.author = owner) <;> simp
  · obtain ⟨hos, ne⟩ := mem_filter.mp isIn
    refine lay.settled row o hos fun onChain => cleaned ?_
    rw [owners_filter]
    exact mem_filter.mpr ⟨onChain, ne⟩
  · exact (lay.succession row).filter _

/-- Where the transaction is on the stack, its info has the value below. -/
theorem Layered.lookup_of_top (lay : c.Layered h hst layers) (ok : c.Sound h)
    {n : UpdateInfo V} (mem : n ∈ c.nodes) {old : V} {xs : List (Overwrite V)}
    (top : layers row = ⟨n.owner, old⟩ :: xs) : n.tuples.lookup row = some old := by
  have shown : ⟨n.owner, old⟩ ∈ overwrites row c.nodes := by
    rw [lay.shown row, top]
    refine mem_filter.mpr ⟨mem_cons_self, decide_eq_true ?_⟩
    exact List.mem_map_of_mem mem
  obtain ⟨_, foundOther, owner, _⟩ := mem_overwrites.mp shown
  rwa [ok.node_unique mem foundOther owner.symm]

end UpdateChain

end

/-- What the record explains after a transaction has been undone. -/
theorem Explains.remove {h : Header} {st : Option T} {ws : List (Write T)}
    {cur : kind.Value T} {owner : Nat}
    (expl : Explains h kind st ws stack cur) (undone : ¬ h.Live owner)
    {cur' : kind.Value T}
    (restored : (∃ old xs, stack = ⟨owner, old⟩ :: xs ∧ owner ∉ authors xs ∧ cur' = old) ∨
      owner ∉ authors stack ∧ cur' = cur) :
    Explains h kind st ws (stack.filter (·.author ≠ owner)) cur' := by
  have kept {xs : List (Overwrite (kind.Value T))} (out : owner ∉ authors xs) :
      xs.filter (·.author ≠ owner) = xs := by
    apply filter_eq_self.mpr
    intro o isIn
    have ne : o.author ≠ owner := fun eq => out (eq ▸ List.mem_map_of_mem isIn)
    simpa using ne
  rcases restored with ⟨_, _, rfl, out, rfl⟩ | ⟨out, rfl⟩
  · rw [filter_cons_of_neg (by simp), kept out]
    refine ⟨expl.oldest, fun author hos => ?_, fun write isIn live hm => ?_, expl.known⟩
    · have ne : owner ≠ author := by
        rintro rfl
        exact out hos
      obtain ⟨v, latest, represents⟩ := expl.written author (mem_cons_of_mem _ hos)
      refine ⟨v, latest, fun x isValue => represents x ?_⟩
      rwa [valueOf, if_neg ne]
    · refine expl.missing write isIn live fun hos => ?_
      rcases mem_cons.mp hos with eq | onRest
      · have mine : write.author = owner := eq
        exact undone (mine ▸ live)
      · exact hm onRest
  · rw [kept out]
    exact expl

section

variable {st : Nat → FlatVector T} {s : UpdateState kind T} (conf : s.Conforms st)
include conf

variable {s' : UpdateState kind T}

theorem UpdateState.Conforms.of_changeChain {own v : Nat}
    {change : UpdateChain (kind.Value T) → UpdateChain (kind.Value T)}
    (got : s.changeChain own v change = some s')
    (ok : ∀ c layers, s.segment v = some c → c.HasOwner own →
      c.Sound s.header → c.Layered s.header s.startedAt layers →
      (change c).Sound s.header ∧ (change c).Layered s.header s.startedAt layers ∧
        (change c).base = c.base) : s'.Conforms st := by
  unfold UpdateState.changeChain at got
  split at got
  · cases got
  · rename_i c found
    split_ifs at got with hasOwner
    cases got
    refine conf.of_vector rfl rfl (conf.vector_lt found) (fun w o => ?_) ?_
    · exact ⟨update_of_ne o .., rfl⟩
    · obtain ⟨layers, lay, expl⟩ := conf.explained v
      rw [found] at lay expl
      obtain ⟨chainSound, chainLayered, base⟩ := ok c layers found hasOwner lay.1 lay.2
      refine ⟨layers, ?_, fun row => ?_⟩
      · simp only [update_self]
        exact ⟨chainSound, chainLayered⟩
      · have eq : currentOf (kind.extract (st v)) (some (change c)) row =
            currentOf (kind.extract (st v)) (some c) row := by
          simp only [currentOf, UpdateChain.current, base]
        simp only [update_self]
        exact eq ▸ expl row

theorem UpdateState.Conforms.setVersion (ends : s.ending = some e)
    (pos : s.header.Stands e.id version)
    (late : ∀ id lo, s.header.active id lo → lo < version)
    (got : s.changeChain e.id v (·.setVersion e.id version) = some s') :
    s'.Conforms st := by
  have act := conf.header.ending_active ends
  apply conf.of_changeChain got
  intro c layers _ _ hsd lay
  exact ⟨hsd.setVersion (.inr ⟨act, pos⟩) late, lay.setVersion version, rfl⟩

theorem UpdateState.Conforms.cleanupUpdate {cid : Nat} (done : s.committedAt owner = some cid)
    (old : ∀ t ∈ s.manager.activeTransactions, cid < t.startTime)
    (got : s.changeChain owner v (·.cleanup owner) = some s') : s'.Conforms st := by
  have hse : s.header.Settled owner := by
    refine ⟨cid, done, ?_⟩
    rintro _ _ ⟨t, act, -, rfl⟩
    exact old t act
  apply conf.of_changeChain got
  intro c layers _ _ ok lay
  exact ⟨ok.remove rfl rfl, lay.cleanup ok hse, rfl⟩

theorem UpdateState.Conforms.rollbackUpdate (ends : s.ending = some e)
    (eq : e.phase = .undoing) (got : s.changeChain e.id v (·.rollback e.id) = some s') :
    s'.Conforms st := by
  have pre : s.header.ending = some e := ends
  have live := (conf.header.uncommitted (conf.header.ending_active pre)).2
  have undone : ¬ s.header.Live e.id := by
    rintro (done | ⟨-, standing⟩)
    · exact done live
    · exact standing ⟨e, pre, rfl, eq⟩
  unfold UpdateState.changeChain at got
  split at got
  · cases got
  · rename_i c found
    split_ifs at got with hasOwner
    cases got
    obtain ⟨layers, lay, expl⟩ := conf.explained v
    rw [found] at lay expl
    obtain ⟨ok, lay⟩ := lay
    obtain ⟨n, isNode, owner, search⟩ : ∃ n ∈ c.nodes, n.owner = e.id ∧
          c.nodes.find? (·.owner = e.id) = some n := by
      obtain ⟨n, isNode, owner⟩ := hasOwner
      cases search : c.nodes.find? (·.owner = e.id) with
      | none =>
        have := find?_eq_none.mp search n isNode
        exact absurd (decide_eq_true owner) this
      | some first =>
        have isFirst : first.owner = e.id := by simpa using find?_some search
        exact ⟨first, mem_of_find?_eq_some search, isFirst, rfl⟩
    have hcv : ∀ tuple ∈ n.tuples, c.base.tuples.lookup tuple.1 ≠ none := ok.covered n isNode
    obtain ⟨keys, values⟩ := rollbackUpdate_spec (ok.verified n isNode).ascending
      ok.base.ascending hcv
    have rolled : c.rollback e.id =
        { base := { c.base with tuples := AccessPath.rollbackUpdate n.tuples c.base.tuples }
          nodes := c.nodes.eraseP (·.owner = e.id) } := by
      unfold UpdateChain.rollback
      rw [search]
    refine conf.of_vector rfl rfl (conf.vector_lt found) (fun w other => ?_) ?_
    · exact ⟨update_of_ne other .., rfl⟩
    · refine ⟨fun row => (layers row).filter (·.author ≠ e.id), ?_, fun row => ?_⟩
      · simp only [update_self, rolled]
        exact ⟨ok.remove rfl keys, lay.remove ok⟩
      · simp only [update_self, rolled]
        apply (expl row).remove undone
        simp only [currentOf, UpdateChain.current, values row]
        by_cases hos : e.id ∈ authors (layers row)
        · left
          obtain ⟨old, xs, top, hno⟩ := on_top_of_succession (lay.succession row) live hos
          have x := lay.lookup_of_top ok isNode (owner.symm ▸ top)
          exact ⟨old, xs, top, hno, by rw [x]; rfl⟩
        · right
          have hno := mt (lay.mem_authors_iff ok isNode row).mpr (owner.symm ▸ hos)
          rw [not_not] at hno
          exact ⟨hos, by rw [hno]; rfl⟩

end

/-! ## Updates -/

theorem latestBy_cons (w : Write T) (ws : List (Write T)) (a : Nat) : latestBy (w :: ws) a =
      if w.author = a then some w.value else latestBy ws a := by
  unfold latestBy
  by_cases eq : w.author = a
  · rw [find?_cons_of_pos (by simpa using eq), if_pos eq]
    rfl
  · rw [find?_cons_of_neg (by simpa using eq), if_neg eq]

section

variable {h : Header} {st : Option T} {ws : List (Write T)}
  {stack : List (Overwrite (kind.Value T))} {cur x : kind.Value T} {author : Nat}
  {v : Option T} (hk : author < h.nextId)
include hk

/-- A transaction writes to a row: only its own part of the stack changes. -/
theorem Explains.write {stack' : List (Overwrite (kind.Value T))}
    (expl : Explains h kind st ws stack cur)
    (oldest : oldestValue stack' x = oldestValue stack cur)
    (own : ∀ y, valueOf author stack' x = some y → kind.Represents y v)
    (stored : author ∉ authors stack' → kind.Drops v) (more : authors stack ⊆ authors stack')
    (others : ∀ o, author ≠ o → (o ∈ authors stack' → o ∈ authors stack) ∧
      valueOf o stack' x = valueOf o stack cur) :
    Explains h kind st (⟨author, v⟩ :: ws) stack' x := by
  refine ⟨oldest ▸ expl.oldest, fun o hos => ?_, fun w isIn live hm => ?_, fun w isIn => ?_⟩
  · rw [latestBy_cons]
    by_cases eq : author = o
    · rw [if_pos eq]
      exact ⟨v, rfl, eq ▸ own⟩
    · rw [if_neg eq, (others o eq).2]
      exact expl.written o ((others o eq).1 hos)
  · rcases mem_cons.mp isIn with rfl | isIn
    · exact stored hm
    · exact expl.missing w isIn live fun hos => hm (more hos)
  · rcases mem_cons.mp isIn with rfl | isIn
    · exact hk
    · exact expl.known w isIn

section

variable {old : kind.Value T} (represents : kind.Represents x v)
include represents

theorem Explains.push (expl : Explains h kind st ws stack old) :
    Explains h kind st (⟨author, v⟩ :: ws) (⟨author, old⟩ :: stack) x := by
  refine expl.write hk rfl (fun y isValue => ?_) (absurd mem_cons_self) (subset_cons_self _ _)
    fun o ne => ⟨fun hos => (mem_cons.mp hos).resolve_left ne.symm, if_neg ne⟩
  exact Option.some.inj ((if_pos rfl).symm.trans isValue) ▸ represents

theorem Explains.rewrite (expl : Explains h kind st ws (⟨author, old⟩ :: stack) cur) :
    Explains h kind st (⟨author, v⟩ :: ws) (⟨author, old⟩ :: stack) x := by
  refine expl.write hk rfl (fun y isValue => ?_) (absurd mem_cons_self) (Subset.refl _)
    fun o ne => ⟨id, (if_neg ne).trans (if_neg ne).symm⟩
  exact Option.some.inj ((if_pos rfl).symm.trans isValue) ▸ represents

end

/-- A transaction writes a value that the segment does not store. -/
theorem Explains.drop (explains : Explains h kind st ws stack cur) (drops : kind.Drops v) :
    Explains h kind st (⟨author, v⟩ :: ws) stack cur :=
  explains.write hk rfl (fun y _ => drops.represents y) (fun _ => drops) (Subset.refl _)
    fun _ _ => ⟨id, rfl⟩

end

theorem checkForConflicts_iff {tx : TransactionData} {ids : List Nat} (asc : ids.Pairwise (· < ·))
    (verified : ∀ n ∈ nodes, n.Verified) : checkForConflicts tx ids nodes = true ↔
      ∃ n ∈ nodes, n.versionNumber ≠ tx.transactionId ∧
        tx.startTime < n.versionNumber ∧ ∃ id ∈ ids, n.tuples.lookup id ≠ none := by
  induction nodes with
  | nil => simp [checkForConflicts]
  | cons n nodes ih =>
    have ih := ih fun o got => verified o (mem_cons_of_mem _ got)
    have srt : (n.tuples.map Prod.fst).Pairwise (· < ·) :=
      pairwise_map.mpr (verified n mem_cons_self).ascending
    have join := conflictLoop_iff asc srt
    rw [checkForConflicts, exists_mem_cons_iff, ← ih]
    split
    · rename_i mine
      rw [or_iff_right fun met => met.1 mine]
    · rename_i ne
      split
      · rename_i hl
        rw [Bool.or_eq_true, join]
        simp [ne_eq, ne, hl, not_false_eq_true, true_and]
      · rename_i he
        rw [or_iff_right fun met => he met.2.1]

theorem mergeIntoOwn_spec (id : Nat) (merge : UpdateInfo V → UpdateInfo V)
    (ns : List (UpdateInfo V)) :
    (mergeIntoOwn id merge ns = none ∧ ∀ n ∈ ns, n.versionNumber ≠ id) ∨
      ∃ newer n older, ns = newer ++ n :: older ∧
        (∀ o ∈ newer, o.versionNumber ≠ id) ∧ n.versionNumber = id ∧
          mergeIntoOwn id merge ns = some (newer ++ merge n :: older) := by
  induction ns with
  | nil => exact .inl ⟨rfl, fun n got => (by cases got)⟩
  | cons n ns ih =>
    rw [mergeIntoOwn]
    by_cases mine : n.versionNumber = id
    · rw [if_pos mine]
      exact .inr ⟨[], n, ns, rfl, fun o got => (by cases got), mine, rfl⟩
    · rw [if_neg mine]
      rcases ih with ⟨hfa, ho⟩ | ⟨newer, own, older, rfl, ho, isOwn, merged⟩
      · left
        rw [hfa]
        refine ⟨rfl, fun o got => ?_⟩
        rcases mem_cons.mp got with rfl | got
        · exact mine
        · exact ho o got
      · right
        rw [merged]
        refine ⟨n :: newer, own, older, rfl, fun o got => ?_, isOwn, rfl⟩
        rcases mem_cons.mp got with rfl | got
        · exact mine
        · exact ho o got

end AccessPath
