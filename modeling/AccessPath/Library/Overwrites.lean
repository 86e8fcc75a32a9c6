import AccessPath.Library.Snapshot

/-!
# Reading back over overwritten values

A reader starts from the newest value of a cell and takes back the overwrites
that are not in its snapshot. If every transaction started after the one below
it on the stack had committed (`Header.Succeeds`), it ends up with the value that
the latest transaction in its snapshot left (`readBack_eq_valueOf`).
-/

namespace AccessPath.Library

open List Function

universe u

variable {author id mark newer older other : Nat} {hst : Nat → Option Nat}

/-- A value that was overwritten, and by whom. -/
structure Overwrite (V : Type u) where
  author : Nat
  old : V

variable {V : Type u}

/-! ## The stack -/

/-- What is left of the newest value when the overwrites of hidden transactions are
taken back. -/
def readBack (hidden : Nat → Prop) [DecidablePred hidden] : List (Overwrite V) → V → V
  | [], current => current
  | o :: rest, current =>
    if hidden o.author then readBack hidden rest o.old else readBack hidden rest current

/-- The value below all overwrites. -/
def oldestValue : List (Overwrite V) → V → V
  | [], current => current
  | o :: rest, _ => oldestValue rest o.old

/-- The value that a transaction left. -/
def valueOf (author : Nat) : List (Overwrite V) → V → Option V
  | [], _ => none
  | o :: rest, current => if o.author = author then some current else valueOf author rest o.old

/-- The transactions on the stack. -/
def authors (stack : List (Overwrite V)) : List Nat := stack.map Overwrite.author

section

variable {hidden : Nat → Prop} [DecidablePred hidden] {stk : List (Overwrite V)}

theorem readBack_of_visible
    (visible : ∀ o ∈ stk, ¬ hidden o.author) (cur : V) :
    readBack hidden stk cur = cur := by
  induction stk with
  | nil => rfl
  | cons o xs ih =>
    rw [readBack, if_neg (visible o mem_cons_self)]
    exact ih fun other got => visible other (mem_cons_of_mem _ got)

theorem readBack_of_hidden (all : ∀ o ∈ stk, hidden o.author)
    (cur : V) : readBack hidden stk cur = oldestValue stk cur := by
  induction stk generalizing cur with
  | nil => rfl
  | cons o xs ih =>
    rw [readBack, if_pos (all o mem_cons_self)]
    exact ih (fun other got => all other (mem_cons_of_mem _ got)) _

theorem readBack_filter {keep : Overwrite V → Bool}
    (cut : ∀ o ∈ stk, keep o = false → ¬ hidden o.author) (cur : V) :
    readBack hidden (stk.filter keep) cur = readBack hidden stk cur := by
  induction stk generalizing cur with
  | nil => rfl
  | cons o xs ih =>
    have restDropped : ∀ o ∈ xs, keep o = false → ¬ hidden o.author :=
      fun other got => cut other (mem_cons_of_mem _ got)
    cases kept : keep o with
    | true =>
      rw [filter_cons_of_pos kept, readBack, readBack, ih restDropped, ih restDropped]
    | false =>
      rw [filter_cons_of_neg (by rw [kept]; exact Bool.false_ne_true), ih restDropped,
        readBack, if_neg (cut o mem_cons_self kept)]

/-- The reader gets the value of a visible transaction if all later ones are hidden
and all earlier ones are visible. -/
theorem readBack_eq_valueOf {stack : List (Overwrite V)}
    (closed : stack.Pairwise fun newer older => ¬ hidden newer.author → ¬ hidden older.author)
    (latest : stack.Pairwise fun newer older => older.author = author → hidden newer.author)
    (mem : author ∈ authors stack) (visible : ¬ hidden author) (cur : V) :
    valueOf author stack cur = some (readBack hidden stack cur) := by
  induction stack generalizing cur with
  | nil => cases mem
  | cons o xs ih =>
    obtain ⟨blo, closed⟩ := pairwise_cons.mp closed
    obtain ⟨hl, latest⟩ := pairwise_cons.mp latest
    by_cases eq : o.author = author
    · rw [← eq] at visible
      have rest_visible : ∀ other ∈ xs, ¬ hidden other.author :=
        fun other got => blo other got visible
      rw [valueOf, if_pos eq, readBack, if_neg visible, readBack_of_visible rest_visible]
    · have onRest : author ∈ authors xs := by
        rcases mem_cons.mp mem with _ | got
        · omega
        · exact got
      obtain ⟨other, got, isAuthor⟩ := List.mem_map.mp onRest
      rw [valueOf, if_neg eq, readBack, if_pos (hl other got isAuthor)]
      exact ih closed latest onRest _

end

/-! ## Succession -/

/-- What is known of start times, also of transactions that have ended. -/
structure Header.Timed (h : Header) (started : Nat → Option Nat) : Prop where
  active {id start : Nat} : h.active id start → started id = some start
  committed {id time : Nat} : h.committed id = some time →
    ∃ start, started id = some start ∧ start < time
  known {id start : Nat} : started id = some start → id < h.nextId

/-- A transaction that started after another one had committed. -/
def Header.Succeeds (h : Header) (started : Nat → Option Nat) (newer older : Nat) : Prop :=
  ∃ time start, h.committed older = some time ∧ started newer = some start ∧ time < start

/-- A transaction that has not committed can only be on top of a stack. -/
theorem on_top_of_succession {V : Type u} {h : Header} {stack : List (Overwrite V)}
    (succession : stack.Pairwise fun newer older => h.Succeeds hst newer.author older.author)
    (live : h.committed author = none) (mem : author ∈ authors stack) :
    ∃ old xs, stack = ⟨author, old⟩ :: xs ∧ author ∉ authors xs := by
  cases stack with
  | nil => cases mem
  | cons o xs =>
    have blo := (pairwise_cons.mp succession).1
    have absent : author ∉ authors xs := by
      intro got
      obtain ⟨other, isIn, rfl⟩ := List.mem_map.mp got
      obtain ⟨_, -, done, -⟩ := blo other isIn
      cases live.symm.trans done
    rcases mem_cons.mp mem with rfl | got
    · exact ⟨o.old, xs, rfl, absent⟩
    · exact absurd got absent

namespace Header

/-- A transaction that committed before every active one started. -/
def Settled (h : Header) (id : Nat) : Prop :=
  ∃ time, h.committed id = some time ∧ ∀ other start, h.active other start → time < start

/-- A mark that the transaction has left, whether it is still active or not. -/
def Accounts (h : Header) (id mark : Nat) : Prop :=
  h.committed id = some mark ∨ h.Active id ∧ h.Stands id mark

/-- The transactions whose writes count: those that have committed and those that
are active and not being rolled back. -/
def Live (h : Header) (id : Nat) : Prop :=
  h.committed id ≠ none ∨ h.Active id ∧ ¬ h.Undoing id

/-- What is hidden from a reader. -/
def Hidden (h : Header) (id start other : Nat) : Prop :=
  ¬ (other = id ∨ h.CommittedBefore other start)

/-- How a header may develop: commits stay, transactions only start and end, and a
new commit is later than every active start. -/
structure Follows (h h' : Header) : Prop where
  committed {id time : Nat} : h.committed id = some time → h'.committed id = some time
  active {id start : Nat} : h'.active id start → id < h.nextId → h.active id start
  fresh {id start : Nat} : h'.active id start → h.nextId ≤ id → h.clock ≤ start
  newly {id time : Nat} : h'.committed id = some time → h.committed id = some time ∨
    h.Active id ∧ ∀ other start, h.active other start → start < time

section

variable {firstId : Nat} {h h' : Header} (ok : h.Sound firstId)
include ok

theorem Settled.follow (step : h.Follows h') (still : h.Settled id) : h'.Settled id := by
  obtain ⟨t, done, he⟩ := still
  refine ⟨t, step.committed done, fun other lo act => ?_⟩
  rcases Nat.lt_or_ge other h.nextId with known | new
  · exact he other lo (step.active act known)
  · exact (ok.committed_lt done).1.trans_le (step.fresh act new)

omit ok in
theorem Succeeds.follow (step : h.Follows h') {began' : Nat → Option Nat}
    (kept : ∀ id start, hst id = some start → began' id = some start)
    (succeeds : h.Succeeds hst newer older) : h'.Succeeds began' newer older := by
  obtain ⟨time, start, done, began, he⟩ := succeeds
  exact ⟨time, start, step.committed done, kept newer start began, he⟩

theorem Accounts.known (accounts : h.Accounts id mark) : id < h.nextId := by
  rcases accounts with done | ⟨⟨_, act⟩, -⟩
  · exact (ok.committed_lt done).2.2
  · exact (ok.active_lt act).2.2.2.1

/-- Nothing starts and nothing commits. -/
theorem Follows.of_fewer (act : ∀ id lo, h'.active id lo → h.active id lo)
    (done : h'.committed = h.committed) : h.Follows h' where
  committed := fun old => done ▸ old
  active := fun now _ => act _ _ now
  fresh := fun now large => absurd (ok.active_lt (act _ _ now)).2.2.2.1 (Nat.not_lt.mpr large)
  newly := fun now => .inl (done ▸ now)

theorem Follows.start : h.Follows { h with
      clock := h.clock + 1
      nextId := h.nextId + 1
      active := fun id lo => h.active id lo ∨ id = h.nextId ∧ lo = h.clock } where
  committed := id
  active := by
    rintro id lo (act | ⟨rfl, -⟩) _
    · exact act
    · omega
  fresh := by
    rintro _ _ (act | ⟨-, rfl⟩) large
    · exact absurd (ok.active_lt act).2.2.2.1 (Nat.not_lt.mpr large)
    · exact le_rfl
  newly := .inl

theorem Follows.committed_step {e : Ending} {t : Nat} (ends : h.ending = some e)
    (drawn : e.commitTime = some t) :
    h.Follows { h with
      active := fun id lo => h.active id lo ∧ id ≠ e.id
      ending := none
      committed := Function.update h.committed e.id (some t) } where
  committed := by
    intro id at_ done
    have ne : id ≠ e.id := by
      rintro rfl
      have live := (ok.uncommitted (ok.ending_active ends)).2
      cases live.symm.trans done
    exact (update_of_ne ne ..).trans done
  active := fun act _ => act.1
  fresh := fun act large =>
    absurd (ok.active_lt act.1).2.2.2.1 (Nat.not_lt.mpr large)
  newly := by
    intro id at_ done
    by_cases eq : id = e.id
    · subst eq
      simp only [update_self, Option.some.injEq] at done
      exact .inr ⟨ok.ending_active ends, done ▸ (ok.ending_lt ends drawn).2.2.1⟩
    · exact .inl ((update_of_ne eq ..).symm.trans done)

end

/-! ## What readers skip -/

section

variable {firstId : Nat} {h : Header} (ok : h.Sound firstId) {id lo : Nat}
  (hr : h.Reading id lo)
include ok hr

/-- Readers tell by the mark what is hidden from them, provided that nobody commits
at the time at which they start. -/
theorem Accounts.hidden_iff (accounts : h.Accounts other mark)
    (apart : h.committed other = some mark → mark ≠ lo) :
    h.Hidden id lo other ↔ lo < mark ∧ mark ≠ id := by
  obtain ⟨-, -, _, -, live⟩ := ok.active_lt hr.1
  rcases accounts with done | ⟨act, stands⟩
  · have hsm := (ok.committed_lt done).2.1
    have ne : other ≠ id := by
      rintro rfl
      cases live.symm.trans done
    have old : h.CommittedBefore other lo ↔ mark < lo := by
      constructor
      · rintro ⟨t, committedAt, he⟩
        exact Option.some.inj (committedAt.symm.trans done) ▸ he
      · exact fun he => ⟨mark, done, he⟩
    have unequal := apart done
    rw [Hidden, old, or_iff_right ne]
    omega
  · have pending := ok.uncommitted act
    have hl : ¬ h.CommittedBefore other lo := by
      rintro ⟨_, done, -⟩
      cases pending.2.symm.trans done
    rw [Hidden, or_iff_left hl]
    constructor
    · intro ne
      have unseen := ok.not_visible_of_stands hr pending stands ne
      have : ¬ (mark < lo ∨ mark = id) := fun seen => unseen ⟨mark, rfl, seen⟩
      have unequal : mark ≠ lo := by
        rintro rfl
        rcases stands with rfl | ⟨e, ends, -, -, drawn⟩
        · have := (ok.active_lt hr.1).2.1
          have := pending.1
          omega
        · exact Nat.lt_irrefl _ ((ok.ending_lt ends drawn).2.2.1 id _ hr.1)
      omega
    · rintro ⟨-, unequal⟩ rfl
      rcases stands with eq | ⟨e, ends, eq, moved, -⟩
      · exact unequal eq
      · exact moved (hr.2 e ends eq)

omit ok in
/-- On a stack of successive transactions, everything below a visible one is
visible. -/
theorem Succeeds.visible (timed : h.Timed hst) (succeeds : h.Succeeds hst newer older)
    (visible : ¬ h.Hidden id lo newer) : ¬ h.Hidden id lo older := by
  obtain ⟨time, _, done, startedAt, he⟩ := succeeds
  rw [Hidden, not_not] at visible ⊢
  refine .inr ⟨time, done, ?_⟩
  rcases visible with rfl | ⟨_, committedNewer, _⟩
  · rwa [Option.some.inj (startedAt.symm.trans (timed.active hr.1))] at he
  · obtain ⟨_, startedAt', _⟩ := timed.committed committedNewer
    rw [Option.some.inj (startedAt.symm.trans startedAt')] at he
    omega

omit ok in
theorem Settled.visible (still : h.Settled other) : ¬ h.Hidden id lo other := by
  obtain ⟨time, done, he⟩ := still
  exact not_not.mpr (.inr ⟨time, done, he id lo hr.1⟩)

end

end Header

end AccessPath.Library
