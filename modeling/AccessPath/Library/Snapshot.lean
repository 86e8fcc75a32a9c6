import Mathlib.Tactic

/-!
# Snapshot isolation by marks

A transaction marks a key with its identifier; when it commits, its marks are
replaced one by one by the commit time, and when it is undone they are removed
one by one. A reader takes a mark to be in its snapshot if it is smaller than
the reader's start time or is the reader's identifier. As times stay below the
identifiers and only one transaction at a time is ending, these are exactly the
keys that it has marked itself or that were marked by a transaction which
committed before it started (`Ledger.Sound.visible_iff`).
-/

namespace AccessPath.Library

open Function Nat

universe u

variable {time : Nat} {actor : Option Nat} {authors' : Set Nat} {id o x : Nat} {authors : Set Nat}

/-- How far the transaction that is ending has come: it may still be marking
keys, it replaces its marks, or it takes them back. -/
inductive Phase where
  | working
  | stamping
  | undoing
  deriving DecidableEq, Repr

/-- The transaction that is ending. One that is rolled back from the outset has
drawn no commit time. -/
structure Ending where
  id : Nat
  commitTime : Option Nat
  phase : Phase

/-- Everything but the keys: the two counters, the active transactions with their
start times, the one that is ending, and the commit times so far. -/
structure Header where
  clock : Nat
  nextId : Nat
  active : Nat → Nat → Prop
  ending : Option Ending
  committed : Nat → Option Nat

def Header.Active (h : Header) (id : Nat) : Prop := ∃ start, h.active id start

def Header.Undoing (h : Header) (id : Nat) : Prop := ∃ e ∈ h.ending, e.id = id ∧ e.phase = .undoing

/-- A mark that an active transaction may have left: its identifier or, once it
replaces its marks, its commit time. -/
def Header.Stands (h : Header) (id mark : Nat) : Prop :=
  mark = id ∨ ∃ e ∈ h.ending, e.id = id ∧ e.phase ≠ .working ∧ e.commitTime = some mark

/-- Readers are the active transactions that have not begun to replace or remove
their marks. -/
def Header.Reading (h : Header) (id start : Nat) : Prop :=
  h.active id start ∧ ∀ e ∈ h.ending, e.id = id → e.phase = .working

def Header.CommittedBefore (h : Header) (id start : Nat) : Prop :=
  ∃ time, h.committed id = some time ∧ time < start

/-- The keys carry at most one mark each; `authors` are the transactions that have
marked the key, whatever became of them. -/
structure Ledger (κ : Type u) where
  header : Header
  mark : κ → Option Nat
  authors : κ → Set Nat

variable {κ : Type u}

/-- The test that readers make. -/
def Visible (id start : Nat) (mark : Option Nat) : Prop := ∃ x, mark = some x ∧ (x < start ∨ x = id)

/-- What should be in a reader's snapshot. -/
def Ledger.InSnapshot (a : Ledger κ) (id start : Nat) (k : κ) : Prop :=
  ∃ author ∈ a.authors k, author = id ∨ a.header.CommittedBefore author start

/-! ## Steps -/

/-- A key that a step leaves alone. Authors may be forgotten where there is no
mark. -/
def Ledger.Untouched (a a' : Ledger κ) (k : κ) : Prop := a'.mark k = a.mark k ∧
    (a'.authors k = a.authors k ∨ a.mark k = none ∧ a'.authors k ⊆ a.authors k)

/-- The steps, each with the transaction that takes it. A step may touch any
number of keys at once. -/
inductive Ledger.Step (firstId : Nat) (a a' : Ledger κ) : Option Nat → Prop
  | start :
    a.header.ending = none → a.header.clock < firstId →
    a'.header = { a.header with
      clock := a.header.clock + 1
      nextId := a.header.nextId + 1
      active := fun id start => a.header.active id start ∨
        id = a.header.nextId ∧ start = a.header.clock } →
    (∀ k, a.Untouched a' k) → Step firstId a a' none
  | mark {id start : Nat} :
    a.header.Reading id start → a'.header = a.header →
    (∀ k, a.Untouched a' k ∨ a.mark k = none ∧ a'.mark k = some id ∧ id ∈ a'.authors k ∧
        a'.authors k ⊆ insert id (a.authors k)) → Step firstId a a' (some id)
  | commit {id : Nat} :
    a.header.ending = none → a.header.Active id → a.header.clock < firstId →
    a'.header = { a.header with
      clock := a.header.clock + 1
      ending := some ⟨id, some a.header.clock, .working⟩ } →
    (∀ k, a.Untouched a' k) → Step firstId a a' (some id)
  | rollback {id : Nat} :
    a.header.ending = none → a.header.Active id →
    a'.header = { a.header with ending := some ⟨id, none, .undoing⟩ } →
    (∀ k, a.Untouched a' k) → Step firstId a a' (some id)
  | advance {e : Ending} {phase : Phase} :
    a.header.ending = some e → e.phase ≠ .undoing → phase ≠ .working →
    a'.header = { a.header with ending := some { e with phase := phase } } →
    (∀ k, a.Untouched a' k) → Step firstId a a' (some e.id)
  | stamp {e : Ending} {time : Nat} :
    a.header.ending = some e → e.phase = .stamping → e.commitTime = some time →
    a'.header = a.header →
    (∀ k, a.Untouched a' k ∨ a.mark k = some e.id ∧ a'.mark k = some time ∧
      a'.authors k = a.authors k) → Step firstId a a' (some e.id)
  | undo {e : Ending} :
    a.header.ending = some e → e.phase = .undoing → a'.header = a.header →
    (∀ k, a.Untouched a' k ∨ (∃ x, a.mark k = some x ∧ a.header.Stands e.id x) ∧
        (a'.mark k = none ∨ a'.mark k = some e.id ∧ a'.authors k = a.authors k) ∧
        a'.authors k ⊆ a.authors k) → Step firstId a a' (some e.id)
  | committed {e : Ending} {time : Nat} :
    a.header.ending = some e → e.phase = .stamping → e.commitTime = some time →
    (∀ k, a.mark k ≠ some e.id) →
    a'.header = { a.header with
      active := fun id start => a.header.active id start ∧ id ≠ e.id
      ending := none
      committed := Function.update a.header.committed e.id (some time) } →
    (∀ k, a.Untouched a' k) → Step firstId a a' (some e.id)
  | undone {e : Ending} :
    a.header.ending = some e → e.phase = .undoing →
    (∀ k x, a.mark k = some x → a.header.Stands e.id x → x = e.id) →
    a'.header = { a.header with
      active := fun id start => a.header.active id start ∧ id ≠ e.id
      ending := none } →
    (∀ k, a.Untouched a' k) → Step firstId a a' (some e.id)

/-! ## The invariant -/

/-- Counters are ahead of everything drawn from them, and a commit time that is
being given out is later than every active start. -/
structure Header.Sound (firstId : Nat) (h : Header) : Prop where
  active_lt {id start : Nat} : h.active id start →
    start < h.clock ∧ start < firstId ∧ firstId ≤ id ∧ id < h.nextId ∧ h.committed id = none
  committed_lt {id time : Nat} : h.committed id = some time →
    time < h.clock ∧ time < firstId ∧ id < h.nextId
  ending_active {e : Ending} : h.ending = some e → h.Active e.id
  ending_lt {e : Ending} {time : Nat} : h.ending = some e → e.commitTime = some time →
    time < h.clock ∧ time < firstId ∧ (∀ id start, h.active id start → start < time) ∧
      ∀ id, h.committed id ≠ some time

/-- A transaction that has not committed, whether or not it is still active. -/
def Header.Uncommitted (firstId : Nat) (h : Header) (id : Nat) : Prop :=
  firstId ≤ id ∧ h.committed id = none

/-- A key whose mark is accounted for by one of its authors. -/
structure Header.Explains (firstId : Nat) (h : Header) (mark : Option Nat)
    (authors : Set Nat) : Prop where
  author {x : Nat} : mark = some x →
    ∃ id ∈ authors, h.committed id = some x ∨ h.Uncommitted firstId id ∧ h.Stands id x
  committed {id time : Nat} : id ∈ authors → h.committed id = some time → mark = some time
  active {id : Nat} : id ∈ authors → h.Active id → ¬ h.Undoing id →
    ∃ x, mark = some x ∧ h.Stands id x
  known {id : Nat} : id ∈ authors → id < h.nextId

structure Ledger.Sound (firstId : Nat) (a : Ledger κ) : Prop where
  header : a.header.Sound firstId
  explained : ∀ k, a.header.Explains firstId (a.mark k) (a.authors k)

variable {e : Ending}

namespace Header

section

variable {fid : Nat} {h : Header}

theorem Sound.uncommitted (ok : h.Sound fid) (act : h.Active id) : h.Uncommitted fid id := by
  obtain ⟨_, activeAt⟩ := act
  obtain ⟨-, -, large, -, live⟩ := ok.active_lt activeAt
  exact ⟨large, live⟩

/-- Among uncommitted transactions a mark stands for one only, and for no committed
one. -/
theorem Sound.stands_unique (ok : h.Sound fid) (live : h.Uncommitted fid id)
    (uncommittedOther : h.Uncommitted fid o) (pos : h.Stands id x)
    (standsOther : h.Stands o x) : id = o := by
  obtain ⟨_, -⟩ := live
  obtain ⟨_, -⟩ := uncommittedOther
  rcases pos with rfl | ⟨e, ends, rfl, -, time⟩
  · rcases standsOther with eq | ⟨_, ends, -, -, time⟩
    · exact eq
    · have := (ok.ending_lt ends time).2.1
      omega
  · rcases standsOther with rfl | ⟨_, ends', rfl, -, -⟩
    · have := (ok.ending_lt ends time).2.1
      omega
    · rw [Option.some.inj (ends.symm.trans ends')]

theorem Sound.stands_uncommitted (ok : h.Sound fid) (live : h.Uncommitted fid id)
    (pos : h.Stands id x) : h.committed o ≠ some x := by
  intro done
  obtain ⟨_, -⟩ := live
  rcases pos with rfl | ⟨_, ends, rfl, -, time⟩
  · have := (ok.committed_lt done).2.1
    omega
  · exact (ok.ending_lt ends time).2.2.2 o done

/-- A mark that stands for another transaction is not part of a snapshot. -/
theorem Sound.not_visible_of_stands (ok : h.Sound fid) {start : Nat}
    (see : h.Reading id start) (live : h.Uncommitted fid o)
    (pos : h.Stands o x) (ne : o ≠ id) : ¬ Visible id start (some x) := by
  rintro ⟨_, eq, seen⟩
  cases eq
  obtain ⟨-, _, _, -, -⟩ := ok.active_lt see.1
  obtain ⟨_, -⟩ := live
  rcases pos with rfl | ⟨_, ends, rfl, -, time⟩
  · rcases seen with _ | eq
    · omega
    · exact ne eq
  · obtain ⟨-, _, hl, -⟩ := ok.ending_lt ends time
    have := hl id start see.1
    omega

variable {authors : Set Nat}

/-- If the mark of a key stands for an uncommitted transaction, that is its only
author that counts. -/
theorem Explains.of_stands (ok : h.Sound fid) {mark : Option Nat}
    (expl : h.Explains fid mark authors) (got : mark = some x)
    (live : h.Uncommitted fid id) (pos : h.Stands id x) :
    id ∈ authors ∧ (∀ o ∈ authors, h.committed o = none) ∧
      ∀ o ∈ authors, h.Active o → ¬ h.Undoing o → o = id := by
  refine ⟨?_, ?_, ?_⟩
  · obtain ⟨_, auth, done | ⟨pend, standsAuthor⟩⟩ := expl.author got
    · exact absurd done (ok.stands_uncommitted live pos)
    · rwa [ok.stands_unique live pend pos standsAuthor]
  · intro o auth
    cases done : h.committed o with
    | none => rfl
    | some time =>
      cases got.symm.trans (expl.committed auth done)
      exact absurd done (ok.stands_uncommitted live pos)
  · intro o auth activeOther hst
    obtain ⟨_, markedOther, standsOther⟩ := expl.active auth activeOther hst
    cases got.symm.trans markedOther
    exact ok.stands_unique (ok.uncommitted activeOther) live standsOther pos

/-- An unmarked key has no author that counts, so authors may be forgotten. -/
theorem Explains.forget {mark : Option Nat} {fewer : Set Nat}
    (expl : h.Explains fid mark authors) (unmarked : mark = none) (le : fewer ⊆ authors) :
    h.Explains fid mark fewer where
  author hm := by rw [unmarked] at hm; cases hm
  committed auth := expl.committed (le auth)
  active auth := expl.active (le auth)
  known auth := expl.known (le auth)

theorem Explains.untouched {a a' : Ledger κ} {k : κ}
    (expl : h.Explains fid (a.mark k) (a.authors k)) (untouched : a.Untouched a' k) :
    h.Explains fid (a'.mark k) (a'.authors k) := by
  obtain ⟨mark, authors | ⟨unmarked, fewer⟩⟩ := untouched
  · rwa [mark, authors]
  · rw [mark]
    exact expl.forget unmarked fewer

theorem Explains.mark (ok : h.Sound fid) (expl : h.Explains fid none authors)
    (act : h.Active id) (auth : id ∈ authors') (le : authors' ⊆ insert id authors) :
    h.Explains fid (some id) authors' := by
  obtain ⟨_, activeAt⟩ := act
  obtain ⟨-, -, large, known, live⟩ := ok.active_lt activeAt
  refine ⟨?_, ?_, ?_, ?_⟩
  · rintro x eq
    cases eq
    exact ⟨id, auth, .inr ⟨⟨large, live⟩, .inl rfl⟩⟩
  · intro o _ isOther done
    rcases le isOther with rfl | old
    · cases live.symm.trans done
    · cases expl.committed old done
  · intro o isOther activeOther hst
    rcases le isOther with rfl | old
    · exact ⟨o, rfl, .inl rfl⟩
    · obtain ⟨_, hm, -⟩ := expl.active old activeOther hst
      cases hm
  · intro o isOther
    rcases le isOther with rfl | old
    · exact known
    · exact expl.known old

theorem Explains.replace (ok : h.Sound fid) {y : Nat}
    (expl : h.Explains fid (some x) authors) (act : h.Active id) (pos : h.Stands id x)
    (standsNew : h.Stands id y) : h.Explains fid (some y) authors := by
  have pend := ok.uncommitted act
  obtain ⟨auth, live, only⟩ := expl.of_stands ok rfl pend pos
  refine ⟨?_, ?_, ?_, expl.known⟩
  · rintro _ eq
    cases eq
    exact ⟨id, auth, .inr ⟨pend, standsNew⟩⟩
  · intro o _ isOther done
    cases (live o isOther).symm.trans done
  · intro o isOther activeOther hst
    rw [only o isOther activeOther hst]
    exact ⟨y, rfl, standsNew⟩

theorem Explains.remove (ok : h.Sound fid) (expl : h.Explains fid (some x) authors)
    (act : h.Active id) (pos : h.Stands id x) (back : h.Undoing id)
    (le : authors' ⊆ authors) : h.Explains fid none authors' := by
  obtain ⟨-, live, only⟩ := expl.of_stands ok rfl (ok.uncommitted act) pos
  refine ⟨?_, ?_, ?_, fun isOther => expl.known (le isOther)⟩
  · intro _ hm
    cases hm
  · intro o _ isOther done
    cases (live o (le isOther)).symm.trans done
  · intro o isOther activeOther hst
    rw [only o (le isOther) activeOther hst] at hst
    exact absurd back hst

/-- A change of the header that moves the ending transaction on. -/
theorem Explains.advance {h' : Header} {mark : Option Nat}
    (expl : h.Explains fid mark authors) (nextId : h'.nextId = h.nextId)
    (act : h'.active = h.active) (done : h'.committed = h.committed)
    (pos : ∀ id x, h.Stands id x → h'.Stands id x)
    (back : ∀ id, h.Undoing id → h'.Undoing id) : h'.Explains fid mark authors := by
  have eq (id : Nat) : h'.Active id ↔ h.Active id := by
    simp only [Active, act]
  refine ⟨?_, ?_, ?_, ?_⟩
  · intro x hm
    obtain ⟨id, auth, accounted⟩ := expl.author hm
    refine ⟨id, auth, accounted.imp (done ▸ ·) fun hst => ?_⟩
    exact ⟨⟨hst.1.1, done ▸ hst.1.2⟩, pos id x hst.2⟩
  · intro id time auth committedAt
    exact expl.committed auth (done ▸ committedAt)
  · intro id auth activeNow hst
    obtain ⟨x, hm, standsAt⟩ := expl.active auth ((eq id).mp activeNow)
      fun old => hst (back id old)
    exact ⟨x, hm, pos id x standsAt⟩
  · intro id auth
    exact nextId ▸ expl.known auth

theorem Explains.begin {mark : Option Nat} {clock : Nat} {ending : Option Ending}
    (expl : h.Explains fid mark authors) (idle : h.ending = none) :
    ({ h with clock := clock, ending := ending } : Header).Explains fid mark authors := by
  refine expl.advance rfl rfl rfl ?_ ?_
  · rintro id _ (own | ⟨e, ends, -⟩)
    · exact .inl own
    · cases idle.symm.trans ends
  · rintro _ ⟨_, ends, -⟩
    cases idle.symm.trans ends

theorem Explains.start {mark : Option Nat}
    (expl : h.Explains fid mark authors) {clock : Nat} : ({ h with
      clock := clock
      nextId := h.nextId + 1
      active := fun id start => h.active id start ∨
        id = h.nextId ∧ start = h.clock } : Header).Explains fid mark authors := by
  refine ⟨expl.author, expl.committed, ?_, fun auth => lt_succ_of_lt (expl.known auth)⟩
  · rintro _ auth ⟨start, act | ⟨rfl, -⟩⟩ hst
    · exact expl.active auth ⟨start, act⟩ hst
    · exact absurd (expl.known auth) (Nat.lt_irrefl _)

/-- The marks of other uncommitted transactions are their identifiers. -/
theorem Stands.of_other {id x : Nat} (ends : h.ending = some e)
    (pos : h.Stands id x) (ne : id ≠ e.id) : x = id := by
  rcases pos with eq | ⟨_, ends', eq, -, -⟩
  · exact eq
  · cases ends.symm.trans ends'
    omega

theorem Explains.marked_of_other {mark : Option Nat} (expl : h.Explains fid mark authors)
    (ends : h.ending = some e) (auth : id ∈ authors) (act : h.Active id)
    (ne : id ≠ e.id) : mark = some id := by
  have hst : ¬ h.Undoing id := by
    rintro ⟨_, ends', eq, -⟩
    cases ends.symm.trans ends'
    exact ne eq.symm
  obtain ⟨_, hm, pos⟩ := expl.active auth act hst
  rwa [pos.of_other ends ne] at hm

theorem Explains.committed_of_stamped (ok : h.Sound fid) {mark : Option Nat}
    (expl : h.Explains fid mark authors) (ends : h.ending = some e)
    (phase : e.phase = .stamping) (got : e.commitTime = some time) (stamped : mark ≠ some e.id) :
    ({ h with
      active := fun id start => h.active id start ∧ id ≠ e.id
      ending := none
      committed := Function.update h.committed e.id (some time) } : Header).Explains fid
        mark authors := by
  obtain ⟨start, activeEnding⟩ := ok.ending_active ends
  have live := (ok.active_lt activeEnding).2.2.2.2
  have steady : ¬ h.Undoing e.id := by
    rintro ⟨e', ends', -, hun⟩
    cases ends.symm.trans ends'
    cases phase.symm.trans hun
  have hrp {x : Nat} (marked : mark = some x) (pos : h.Stands e.id x) : x = time := by
    rcases pos with rfl | ⟨_, ends', -, -, drew'⟩
    · exact absurd marked stamped
    · cases ends.symm.trans ends'
      exact Option.some.inj (drew'.symm.trans got)
  refine ⟨?_, ?_, ?_, expl.known⟩
  · intro x marked
    obtain ⟨id, auth, done | ⟨pend, pos⟩⟩ := expl.author marked
    · have ne : id ≠ e.id := by
        rintro rfl
        cases live.symm.trans done
      exact ⟨id, auth, .inl ((update_of_ne ne _ _).trans done)⟩
    · by_cases eq : id = e.id
      · subst eq
        refine ⟨e.id, auth, .inl ?_⟩
        simp only [update_self, hrp marked pos]
      · refine ⟨id, auth, .inr ⟨⟨pend.1, ?_⟩, .inl (pos.of_other ends eq)⟩⟩
        exact (update_of_ne eq _ _).trans pend.2
  · intro id _ auth done
    by_cases eq : id = e.id
    · subst eq
      obtain ⟨_, marked, pos⟩ := expl.active auth ⟨start, activeEnding⟩ steady
      simp only [update_self] at done
      rw [marked, hrp marked pos, done]
    · exact expl.committed auth ((update_of_ne eq _ _).symm.trans done)
  · rintro id auth ⟨began, act, ne⟩ -
    exact ⟨id, expl.marked_of_other ends auth ⟨began, act⟩ ne, .inl rfl⟩

theorem Explains.undone {mark : Option Nat}
    (expl : h.Explains fid mark authors) (ends : h.ending = some e)
    (removed : ∀ x, mark = some x → h.Stands e.id x → x = e.id) :
    ({ h with
      active := fun id start => h.active id start ∧ id ≠ e.id
      ending := none } : Header).Explains fid mark authors := by
  refine ⟨?_, expl.committed, ?_, expl.known⟩
  · intro x hm
    obtain ⟨id, auth, done | ⟨pend, pos⟩⟩ := expl.author hm
    · exact ⟨id, auth, .inl done⟩
    · refine ⟨id, auth, .inr ⟨pend, .inl ?_⟩⟩
      by_cases eq : id = e.id
      · subst eq
        exact removed x hm pos
      · exact pos.of_other ends eq
  · rintro id auth ⟨began, act, ne⟩ -
    exact ⟨id, expl.marked_of_other ends auth ⟨began, act⟩ ne, .inl rfl⟩

end

/-! ## Every step keeps the invariant -/

section

variable {fid : Nat} {h : Header} (ok : h.Sound fid)

include ok

theorem Sound.start (idle : h.ending = none) (room : h.clock < fid)
    (large : fid ≤ h.nextId) : ({ h with
      clock := h.clock + 1
      nextId := h.nextId + 1
      active := fun id start => h.active id start ∨
        id = h.nextId ∧ start = h.clock } : Header).Sound fid := by
  refine ⟨?_, ?_, ?_, ?_⟩
  · rintro id _ (act | ⟨rfl, rfl⟩)
    · obtain ⟨clock, hsm, big, known, live⟩ := ok.active_lt act
      exact ⟨lt_succ_of_lt clock, hsm, big, lt_succ_of_lt known, live⟩
    · refine ⟨lt_succ_self _, room, large, lt_succ_self _, ?_⟩
      cases done : h.committed h.nextId with
      | none => rfl
      | some time => exact absurd (ok.committed_lt done).2.2 (Nat.lt_irrefl _)
  · intro id time done
    obtain ⟨clock, hsm, known⟩ := ok.committed_lt done
    exact ⟨lt_succ_of_lt clock, hsm, lt_succ_of_lt known⟩
  · intro e ends
    cases idle.symm.trans ends
  · intro e _ ends
    cases idle.symm.trans ends

theorem Sound.commit (room : h.clock < fid) (act : h.Active id) : ({ h with
      clock := h.clock + 1
      ending := some ⟨id, some h.clock, .working⟩ } : Header).Sound fid := by
  refine ⟨?_, ?_, ?_, ?_⟩
  · intro id start activeAt
    obtain ⟨clock, rest⟩ := ok.active_lt activeAt
    exact ⟨lt_succ_of_lt clock, rest⟩
  · intro id time done
    obtain ⟨clock, rest⟩ := ok.committed_lt done
    exact ⟨lt_succ_of_lt clock, rest⟩
  · intro e ends
    cases ends
    exact act
  · intro e time ends drew
    cases ends
    cases drew
    refine ⟨lt_succ_self _, room, fun _ _ activeAt => (ok.active_lt activeAt).1, ?_⟩
    intro id done
    exact absurd (ok.committed_lt done).1 (Nat.lt_irrefl _)

theorem Sound.rollback (act : h.Active id) :
    ({ h with ending := some ⟨id, none, .undoing⟩ } : Header).Sound fid := by
  refine ⟨ok.active_lt, ok.committed_lt, ?_, ?_⟩
  · intro e ends
    cases ends
    exact act
  · intro e _ ends drew
    cases ends
    cases drew

theorem Sound.advance (ends : h.ending = some e) (phase : Phase) :
    ({ h with ending := some { e with phase := phase } } : Header).Sound fid := by
  refine ⟨ok.active_lt, ok.committed_lt, ?_, ?_⟩
  · intro e' ends'
    cases ends'
    obtain ⟨start, act⟩ := ok.ending_active ends
    exact ⟨start, act⟩
  · intro e' time ends' drew
    cases ends'
    exact ok.ending_lt ends drew

theorem Sound.committed (ends : h.ending = some e) (got : e.commitTime = some time) : ({ h with
      active := fun id start => h.active id start ∧ id ≠ e.id
      ending := none
      committed := Function.update h.committed e.id (some time) } : Header).Sound fid := by
  obtain ⟨start, act⟩ := ok.ending_active ends
  refine ⟨?_, ?_, fun ends => (by cases ends), fun ends => (by cases ends)⟩
  · rintro id _ ⟨activeAt, ne⟩
    simp only [update_of_ne ne]
    exact ok.active_lt activeAt
  · intro id at_ done
    by_cases eq : id = e.id
    · subst eq
      simp only [update_self, Option.some.injEq] at done
      obtain ⟨clock, hsm, -⟩ := ok.ending_lt ends got
      exact done ▸ ⟨clock, hsm, (ok.active_lt act).2.2.2.1⟩
    · simp only [update_of_ne eq] at done
      exact ok.committed_lt done

theorem Sound.undone (id : Nat) : ({ h with
      active := fun o start => h.active o start ∧ o ≠ id
      ending := none } : Header).Sound fid := by
  refine ⟨fun act => ok.active_lt act.1, ok.committed_lt, ?_, ?_⟩
  · intro e ends
    cases ends
  · intro e _ ends
    cases ends

end

end Header

/-- Every step keeps the invariant. -/
theorem Ledger.Sound.step {fid : Nat} {a a' : Ledger κ} (ok : a.Sound fid)
    (large : fid ≤ a.header.nextId) (stepped : a.Step fid a' actor) : a'.Sound fid := by
  obtain ⟨header, explained⟩ := ok
  cases stepped with
  | start idle room eq keys =>
    refine ⟨eq ▸ header.start idle room large, fun k => eq ▸ ?_⟩
    exact (explained k).start.untouched (keys k)
  | mark hr eq keys =>
    refine ⟨eq ▸ header, fun k => eq ▸ ?_⟩
    rcases keys k with hut | ⟨unmarked, hm, auth, le⟩
    · exact (explained k).untouched hut
    · rw [hm]
      exact (unmarked ▸ explained k).mark header ⟨_, hr.1⟩ auth le
  | commit idle act room eq keys =>
    refine ⟨eq ▸ header.commit room act, fun k => eq ▸ ?_⟩
    exact ((explained k).begin idle).untouched (keys k)
  | rollback idle act eq keys =>
    refine ⟨eq ▸ header.rollback act, fun k => eq ▸ ?_⟩
    exact ((explained k).begin idle).untouched (keys k)
  | advance ends steady moved eq keys =>
    rename_i e phase
    refine ⟨eq ▸ header.advance ends phase, fun k => eq ▸ ?_⟩
    refine Header.Explains.untouched ?_ (keys k)
    refine (explained k).advance rfl rfl rfl ?_ ?_
    · rintro id x (own | ⟨e', ends', holder, -, drew⟩)
      · exact .inl own
      · cases ends.symm.trans ends'
        exact .inr ⟨_, rfl, holder, moved, drew⟩
    · rintro _ ⟨_, ends', -, hun⟩
      cases ends.symm.trans ends'
      exact absurd hun steady
  | stamp ends phase drew eq keys =>
    refine ⟨eq ▸ header, fun k => eq ▸ ?_⟩
    rcases keys k with hut | ⟨hm, stamped, authors⟩
    · exact (explained k).untouched hut
    · rw [stamped, authors]
      refine (hm ▸ explained k).replace header (header.ending_active ends) (.inl rfl) ?_
      exact .inr ⟨_, ends, rfl, by rw [phase]; exact fun eq => (by cases eq), drew⟩
  | undo ends phase eq keys =>
    refine ⟨eq ▸ header, fun k => eq ▸ ?_⟩
    have act := header.ending_active ends
    rcases keys k with hut | ⟨⟨_, hm, pos⟩, removed | ⟨restored, authors⟩, le⟩
    · exact (explained k).untouched hut
    · rw [removed]
      exact (hm ▸ explained k).remove header act pos ⟨_, ends, rfl, phase⟩ le
    · rw [restored, authors]
      exact (hm ▸ explained k).replace header act pos (.inl rfl)
  | committed ends phase drew stamped eq keys =>
    refine ⟨eq ▸ header.committed ends drew, fun k => eq ▸ ?_⟩
    exact ((explained k).committed_of_stamped header ends phase drew (stamped k)).untouched (keys k)
  | undone ends phase removed eq keys =>
    refine ⟨eq ▸ header.undone _, fun k => eq ▸ ?_⟩
    exact ((explained k).undone ends (removed k)).untouched (keys k)

/-! ## What readers see -/

section

variable {fid : Nat} {a a' : Ledger κ}

/-- A reader takes a key to be in its snapshot exactly if it marked the key itself
or a transaction that did so committed before it started. -/
theorem Ledger.Sound.visible_iff (ok : a.Sound fid) {start : Nat}
    (see : a.header.Reading id start) (k : κ) :
    Visible id start (a.mark k) ↔ a.InSnapshot id start k := by
  have expl := ok.explained k
  obtain ⟨-, -, _, -, -⟩ := ok.header.active_lt see.1
  constructor
  · rintro ⟨x, hm, seen⟩
    obtain ⟨au, auth, done | ⟨pend, pos⟩⟩ := expl.author hm
    · have hsm := (ok.header.committed_lt done).2.1
      exact ⟨au, auth, .inr ⟨x, done, seen.resolve_right (by omega)⟩⟩
    · refine ⟨au, auth, .inl ?_⟩
      by_contra ne
      exact ok.header.not_visible_of_stands see pend pos ne ⟨x, rfl, seen⟩
  · rintro ⟨au, auth, rfl | ⟨time, done, he⟩⟩
    · have hst : ¬ a.header.Undoing au := by
        rintro ⟨e, ends, eq, hun⟩
        rw [see.2 e ends eq] at hun
        cases hun
      obtain ⟨x, hm, pos⟩ := expl.active auth ⟨start, see.1⟩ hst
      refine ⟨x, hm, .inr ?_⟩
      rcases pos with eq | ⟨e, ends, eq, hwk, -⟩
      · exact eq
      · exact absurd (see.2 e ends eq) hwk
    · exact ⟨time, expl.committed auth done, .inl he⟩

theorem not_visible_none {start : Nat} : ¬ Visible id start none := by
  rintro ⟨_, hm, -⟩
  cases hm

theorem Ledger.Untouched.visible_iff {k : κ} (untouched : a.Untouched a' k) (id start : Nat) :
    Visible id start (a'.mark k) ↔ Visible id start (a.mark k) := by
  rw [untouched.1]

/-- A step of another transaction leaves a reader reading, and changes no mark that
the reader can tell apart. -/
theorem Ledger.Step.visible_iff (ok : a.Sound fid) (stepped : a.Step fid a' actor)
    {start : Nat} (see : a.header.Reading id start) (o : actor ≠ some id) :
    a'.header.Reading id start ∧
      ∀ k, Visible id start (a'.mark k) ↔ Visible id start (a.mark k) := by
  have hidden {au x : Nat} (act : a.header.Active au)
      (pos : a.header.Stands au x) (ne : some au ≠ some id) {mark : Option Nat}
      (got : mark = some x) : ¬ Visible id start mark := by
    rw [got]
    exact ok.header.not_visible_of_stands see (ok.header.uncommitted act) pos
      fun eq => ne (congrArg some eq)
  have goesOn {h : Header} {e : Ending} (act : h.active = a.header.active)
      (ending : h.ending = some e) (ne : some e.id ≠ some id) : h.Reading id start := by
    refine ⟨act ▸ see.1, fun e' ends' holder => ?_⟩
    cases ending.symm.trans ends'
    exact absurd (congrArg some holder) ne
  cases stepped with
  | start idle room eq keys =>
    refine ⟨eq ▸ ⟨.inl see.1, see.2⟩, fun k => (keys k).visible_iff id start⟩
  | mark marking eq keys =>
    refine ⟨eq ▸ see, fun k => ?_⟩
    rcases keys k with hut | ⟨unmarked, got, -⟩
    · exact hut.visible_iff id start
    · rw [unmarked]
      exact iff_of_false (hidden ⟨_, marking.1⟩ (.inl rfl) o got) not_visible_none
  | commit _ _ _ eq keys | rollback _ _ eq keys | advance _ _ _ eq keys =>
    exact ⟨eq ▸ goesOn rfl rfl o, fun k => (keys k).visible_iff id start⟩
  | stamp ends phase drew eq keys =>
    refine ⟨eq ▸ see, fun k => ?_⟩
    have act := ok.header.ending_active ends
    rcases keys k with hut | ⟨got, stamped, -⟩
    · exact hut.visible_iff id start
    · refine iff_of_false (hidden act ?_ o stamped) (hidden act (.inl rfl) o got)
      exact .inr ⟨_, ends, rfl, by rw [phase]; exact fun eq => (by cases eq), drew⟩
  | undo ends phase eq keys =>
    refine ⟨eq ▸ see, fun k => ?_⟩
    have act := ok.header.ending_active ends
    rcases keys k with hut | ⟨⟨_, got, pos⟩, removed | ⟨restored, -⟩, -⟩
    · exact hut.visible_iff id start
    · rw [removed]
      exact iff_of_false not_visible_none (hidden act pos o got)
    · exact iff_of_false (hidden act (.inl rfl) o restored) (hidden act pos o got)
  | committed ends _ _ _ eq keys | undone ends _ _ eq keys =>
    have ne := fun eq => o (congrArg some eq)
    refine ⟨eq ▸ ⟨⟨see.1, Ne.symm ne⟩, ?_⟩, fun k => (keys k).visible_iff id start⟩
    exact fun e ends => (by cases ends)

/-- What a committed transaction has marked stays so. -/
theorem Ledger.Step.committed_stays (hsd : a.Sound fid) (stepped : a.Step fid a' actor)
    (done : a.header.committed id = some time) :
    a'.header.committed id = some time ∧ ∀ k, id ∈ a.authors k → id ∈ a'.authors k := by
  have marked {k : κ} (auth : id ∈ a.authors k) := (hsd.explained k).committed auth done
  have kept {k : κ} (hut : a.Untouched a' k) (auth : id ∈ a.authors k) : id ∈ a'.authors k := by
    rcases hut.2 with same | ⟨unmarked, -⟩
    · exact same ▸ auth
    · cases unmarked.symm.trans (marked auth)
  cases stepped with
  | start _ _ eq keys | commit _ _ _ eq keys | rollback _ _ eq keys | advance _ _ _ eq keys
  | undone _ _ _ eq keys => exact ⟨eq ▸ done, fun k => kept (keys k)⟩
  | mark _ eq keys =>
    refine ⟨eq ▸ done, fun k auth => ?_⟩
    rcases keys k with hut | ⟨unmarked, -⟩
    · exact kept hut auth
    · cases unmarked.symm.trans (marked auth)
  | stamp _ _ _ eq keys =>
    refine ⟨eq ▸ done, fun k auth => ?_⟩
    rcases keys k with hut | ⟨-, -, same⟩
    · exact kept hut auth
    · exact same ▸ auth
  | undo ends _ eq keys =>
    refine ⟨eq ▸ done, fun k auth => ?_⟩
    rcases keys k with hut | ⟨⟨_, hm, ok⟩, -⟩
    · exact kept hut auth
    · -- A mark that is taken back is of a transaction that has not committed.
      cases hm.symm.trans (marked auth)
      have live := hsd.header.uncommitted (hsd.header.ending_active ends)
      exact absurd done (hsd.header.stands_uncommitted live ok)
  | committed ends _ _ _ eq keys =>
    have live := (hsd.header.uncommitted (hsd.header.ending_active ends)).2
    have other : id ≠ _ := fun eq => by cases live.symm.trans (eq ▸ done)
    exact ⟨eq ▸ (Function.update_of_ne other _ _).trans done, fun k => kept (keys k)⟩

end

end AccessPath.Library
