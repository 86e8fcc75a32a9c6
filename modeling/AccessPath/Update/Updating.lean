import AccessPath.Update.Chains

/-!
# An update keeps the invariant

`UpdateSegment::Update` pushes, for every row that the transaction has not
written to before, the value it finds onto the stack of that row. Its
info need not be the first of its chain, but by `CheckForConflicts` no info
before it has a row of the update.
-/

namespace AccessPath

open Library
open List hiding lookup_eq_none_iff

variable {T V : Type} {kind : UpdateKind} {c' : UpdateChain V} {n : UpdateInfo V} {row : Nat}

/-! ## One chain -/

/-- The stacks after an update of the given rows. -/
def pushed (id : Nat) (ids : List Nat) (old : Nat → V) (layers : Nat → List (Overwrite V)) :
    Nat → List (Overwrite V) := fun row =>
  if row ∈ ids ∧ id ∉ authors (layers row) then ⟨id, old row⟩ :: layers row else layers row

theorem pushed_nil (id : Nat) (old : Nat → V) (ls : Nat → List (Overwrite V)) :
    pushed id [] old ls = ls := by
  funext row
  exact if_neg fun new => not_mem_nil new.1

section

variable {h : Header} {hst : Nat → Option Nat} {c : UpdateChain V}
  {ls : Nat → List (Overwrite V)} {tx : TransactionData}
  (head : h.Sound transactionIdStart)
  (active : h.active tx.transactionId tx.startTime)

include head active

/-- A version number that is the identifier of an active transaction is its own. -/
theorem owner_of_version {own : Nat} (accounts : h.Accounts own tx.transactionId) :
    own = tx.transactionId := by
  obtain ⟨-, -, _, -, -⟩ := head.active_lt active
  rcases accounts with done | ⟨act, stands⟩
  · have := (head.committed_lt done).2.1
    omega
  · exact head.stands_unique (head.uncommitted act) (head.uncommitted ⟨_, active⟩) stands (.inl rfl)

variable (ne : ∀ id time, h.committed id = some time → time ≠ tx.startTime)
include ne

/-- An info that is no conflict belongs to the transaction itself or to one that
committed before it started. -/
theorem committed_of_no_conflict {n : UpdateInfo V} (accounts : h.Accounts n.owner n.versionNumber)
    (passed : n.versionNumber = tx.transactionId ∨
      n.versionNumber ≤ tx.startTime) : n.owner = tx.transactionId ∨
      ∃ t, h.committed n.owner = some t ∧ t < tx.startTime := by
  obtain ⟨-, _, -, -, -⟩ := head.active_lt active
  rcases passed with own | he
  · exact .inl (owner_of_version head active (own ▸ accounts))
  · right
    rcases accounts with done | ⟨act, stands⟩
    · exact ⟨_, done, Nat.lt_of_le_of_ne he (ne _ _ done)⟩
    · have large := (head.uncommitted act).1
      rcases stands with _ | ⟨_, isEnding, -, -, drawn⟩
      · omega
      · have := (head.ending_lt isEnding drawn).2.2.1 _ _ active
        omega

variable (ok : c.Sound h) (lay : c.Layered h hst ls) {ids : List Nat} (asc : ids.Pairwise (· < ·))
  (passes : checkForConflicts tx ids c.nodes = false)
  (timed : h.Timed hst)
include ok lay asc passes timed

omit active ne lay timed head in
theorem passed_of_row (mem : n ∈ c.nodes) (isId : row ∈ ids)
    (present : n.tuples.lookup row ≠ none) : n.versionNumber = tx.transactionId ∨
      n.versionNumber ≤ tx.startTime := by
  by_contra conflict
  rw [not_or, Nat.not_le] at conflict
  have throws := (checkForConflicts_iff asc ok.verified).mpr
    ⟨n, mem, conflict.1, conflict.2, row, isId, present⟩
  rw [passes] at throws
  cases throws

/-- Everybody else on the stack of a row of the update had committed before the
transaction started. -/
theorem succeeds_of_row (isId : row ∈ ids) {o : Overwrite V} (isIn : o ∈ ls row)
    (differ : o.author ≠ tx.transactionId) : h.Succeeds hst tx.transactionId o.author := by
  have began := timed.active active
  by_cases onChain : o.author ∈ c.owners
  · obtain ⟨n, got, owner⟩ := List.mem_map.mp onChain
    have hos : n.owner ∈ authors (ls row) := owner ▸ List.mem_map_of_mem isIn
    have hp := (lay.mem_authors_iff ok got row).mp hos
    have passed := passed_of_row ok asc passes got isId hp
    rcases committed_of_no_conflict head active ne (ok.accounted n got) passed with
      _ | ⟨t, done, he⟩
    · omega
    · exact ⟨t, _, owner ▸ done, began, he⟩
  · obtain ⟨t, done, he⟩ := lay.settled row o isIn onChain
    exact ⟨t, _, done, began, he _ _ active⟩

theorem pushed_succession (old : Nat → V) (r : Nat) :
    (pushed tx.transactionId ids old ls r).Pairwise fun newer older =>
      h.Succeeds hst newer.author older.author := by
  unfold pushed
  split_ifs with new
  · refine pairwise_cons.mpr ⟨fun o isIn => ?_, lay.succession r⟩
    apply succeeds_of_row head active ne ok lay asc passes timed new.1 isIn
    intro same
    exact new.2 (same ▸ List.mem_map_of_mem isIn)
  · exact lay.succession r

end

section

/-- The two merges of an update, from what the loops leave. -/
structure Merged (table : Nat → V) (updates : List (Nat × V)) (base : List (Nat × V))
    (base' : List (Nat × V)) (merge : List (Nat × V) → List (Nat × V)) : Prop where
  ascendingBase : Ascending base'
  lookupBase : ∀ row, base'.lookup row = (updates.lookup row).or (base.lookup row)
  ascending : ∀ own, Ascending own → Ascending (merge own)
  lookup : ∀ own, Ascending own → ∀ row, (merge own).lookup row = (own.lookup row).or
      (if row ∈ updates.map Prod.fst then some ((base.lookup row).getD (table row)) else none)

theorem merged_of_ascending (tb : Nat → V) {ups base : List (Nat × V)}
    (ascendingUpdates : Ascending ups) (ascendingBase : Ascending base) :
    Merged tb ups base (mergeLoop ups base)
      fun own => mergeOldValues tb (ups.map Prod.fst) own base := by
  have srt : (ups.map Prod.fst).Pairwise (· < ·) := pairwise_map.mpr ascendingUpdates
  obtain ⟨asc, vs⟩ := mergeLoop_spec ascendingUpdates ascendingBase
  refine ⟨asc, vs, fun own hao => ?_, fun own hao => ?_⟩
  · exact (mergeOldValues_spec tb srt hao ascendingBase).1
  · exact (mergeOldValues_spec tb srt hao ascendingBase).2

variable {tb : Nat → V} {updates base base' : List (Nat × V)}
  {merge : List (Nat × V) → List (Nat × V)} (hm : Merged tb updates base base' merge)
include hm

theorem Merged.mem_base' :
    base'.lookup row ≠ none ↔ row ∈ updates.map Prod.fst ∨ base.lookup row ≠ none := by
  rw [hm.lookupBase, ne_eq, Option.or_eq_none_iff, not_and_or, lookup_eq_none_iff, not_not]

theorem Merged.mem_merge {own : List (Nat × V)} (ascendingOwn : Ascending own) :
    (merge own).lookup row ≠ none ↔ own.lookup row ≠ none ∨ row ∈ updates.map Prod.fst := by
  rw [hm.lookup own ascendingOwn, ne_eq, Option.or_eq_none_iff, not_and_or]
  refine or_congr_right ?_
  split
  · rename_i isId
    exact ⟨fun _ => isId, fun _ => Option.some_ne_none _⟩
  · rename_i noId
    exact ⟨fun absurd_ => absurd rfl absurd_, fun isId => absurd isId noId⟩

section

variable (fit : ∀ tuple ∈ updates, tuple.1 < standardVectorSize)
include fit

theorem Merged.inside_base' (insideBase : ∀ tp ∈ base, tp.1 < standardVectorSize) :
    ∀ tp ∈ base', tp.1 < standardVectorSize := by
  refine forall_keys_of_lookup (P := (· < standardVectorSize)) fun row hp => ?_
  rcases hm.mem_base'.mp hp with isId | old
  · obtain ⟨tp, htp, rfl⟩ := List.mem_map.mp isId
    exact fit tp htp
  · obtain ⟨_, htp⟩ := exists_of_lookup old
    exact insideBase _ htp

theorem Merged.inside_merge {own : List (Nat × V)} (ascendingOwn : Ascending own)
    (insideOwn : ∀ tp ∈ own, tp.1 < standardVectorSize) :
    ∀ tp ∈ merge own, tp.1 < standardVectorSize := by
  refine forall_keys_of_lookup (P := (· < standardVectorSize)) fun row hp => ?_
  rcases (hm.mem_merge ascendingOwn).mp hp with old | isId
  · obtain ⟨_, htp⟩ := exists_of_lookup old
    exact insideOwn _ htp
  · obtain ⟨tp, htp, rfl⟩ := List.mem_map.mp isId
    exact fit tp htp

end

end

/-- `MergeUpdateLoopInternal` on the rows of a vector that a call has selected. -/
def mergeUpdateLoop (call : UpdateCall kind T) (sel : List Nat) (baseId : Nat)
    (table : FlatVector T) (base own : UpdateInfo (kind.Value T)) :
    UpdateInfo (kind.Value T) × UpdateInfo (kind.Value T) :=
  mergeUpdates (kind.extract table) (call.updates baseId sel) base own

theorem UpdateInfo.Verified.length_le (verified : n.Verified) :
    n.tuples.length ≤ standardVectorSize := by
  have distinct : (n.tuples.map Prod.fst).Nodup :=
    (pairwise_map.mpr verified.ascending).imp Nat.ne_of_lt
  have hsm : n.tuples.map Prod.fst ⊆ range standardVectorSize := by
    intro row isId
    obtain ⟨tp, htp, rfl⟩ := List.mem_map.mp isId
    exact mem_range.mpr (verified.inside tp htp)
  simpa using (subperm_of_subset distinct hsm).length_le

/-- Both infos stay in order and within their vector. The base info has the new values
and its own ones elsewhere; the other info keeps its values and gets the old ones of the
rows that it did not have. -/
theorem mergeUpdateLoop_spec {call : UpdateCall kind T} {sel : List Nat} {baseId : Nat}
    (increasing : sel.Pairwise fun i j => call.idAt i < call.idAt j)
    (inVector : ∀ i ∈ sel, baseId ≤ call.idAt i ∧ call.idAt i < baseId + standardVectorSize)
    {base own : UpdateInfo (kind.Value T)} (baseVerified : base.Verified)
    (ownVerified : own.Verified) (table : FlatVector T) :
    let updates := call.updates baseId sel
    let merged := mergeUpdateLoop call sel baseId table base own
    merged.1.Verified ∧ merged.2.Verified ∧ merged.1.tuples.length ≤ standardVectorSize ∧
      merged.2.tuples.length ≤ standardVectorSize ∧
      (∀ row, merged.1.tuples.lookup row = (updates.lookup row).or (base.tuples.lookup row)) ∧
      ∀ row, merged.2.tuples.lookup row = (own.tuples.lookup row).or
        (if row ∈ updates.map Prod.fst then
          some ((base.tuples.lookup row).getD (kind.extract table row)) else none) := by
  have ascending : Ascending (call.updates baseId sel) := by
    refine pairwise_map.mpr (increasing.imp_of_mem fun {i j} isIn _ less => ?_)
    have := inVector i isIn
    omega
  have inside : ∀ tuple ∈ call.updates baseId sel, tuple.1 < standardVectorSize := by
    intro tuple isTuple
    obtain ⟨i, isIn, rfl⟩ := List.mem_map.mp isTuple
    have := inVector i isIn
    omega
  have merged := merged_of_ascending (kind.extract table) ascending baseVerified.ascending
  have first : (mergeUpdateLoop call sel baseId table base own).1.Verified :=
    ⟨merged.ascendingBase, merged.inside_base' inside baseVerified.inside⟩
  have second : (mergeUpdateLoop call sel baseId table base own).2.Verified :=
    ⟨merged.ascending _ ownVerified.ascending,
      merged.inside_merge inside ownVerified.ascending ownVerified.inside⟩
  exact ⟨first, second, first.length_le, second.length_le, merged.lookupBase,
    merged.lookup _ ownVerified.ascending⟩

/-- A transaction with an old value of row 3 updates rows 5 and 7. -/
theorem mergeUpdateLoop_two : (mergeUpdateLoop (⟨[5, 7], ⟨id, fun _ => true⟩, id⟩ :
      UpdateCall .standard Nat) [0, 1] 0 ⟨id, fun _ => true⟩ ⟨0, 0, [(5, 1)]⟩
      ⟨0, 0, [(3, 9)]⟩).2.Verified :=
  (mergeUpdateLoop_spec (by decide) (by decide) ⟨by simp [Ascending], by decide⟩
    ⟨by simp [Ascending], by decide⟩ _).2.1

section

variable {h : Header} {hst : Nat → Option Nat} {c : UpdateChain V}
  {ls : Nat → List (Overwrite V)} {tx : TransactionData} {tb : Nat → V}
  {updates base' : List (Nat × V)} {merge : List (Nat × V) → List (Nat × V)}

theorem UpdateChain.Sound.of_merged (ok : c.Sound h)
    (hm : Merged tb updates c.base.tuples base' merge)
    (fit : ∀ tp ∈ updates, tp.1 < standardVectorSize) {nodes : List (UpdateInfo V)}
    (origin : ∀ n ∈ nodes, n ∈ c.nodes ∨ ∃ own, n.tuples = merge own ∧ Ascending own ∧
        ∀ tp ∈ own, tp.1 < standardVectorSize ∧ c.base.tuples.lookup tp.1 ≠ none)
    (owners : (nodes.map UpdateInfo.owner).Nodup)
    (accounted : ∀ n ∈ nodes, h.Accounts n.owner n.versionNumber)
    (put : nodes.Pairwise fun newer older =>
      ∀ start, h.active older.owner start → start < newer.versionNumber) :
    UpdateChain.Sound h ⟨{ c.base with tuples := base' }, nodes⟩ := by
  refine ⟨ok.version, ⟨hm.ascendingBase, hm.inside_base' fit ok.base.inside⟩,
    fun n got => ?_, fun n got => ?_, owners, accounted, put⟩
  · rcases origin n got with pre | ⟨own, tuples, hao, bounds⟩
    · exact ok.verified n pre
    · refine ⟨tuples ▸ hm.ascending own hao, tuples ▸ ?_⟩
      exact hm.inside_merge fit hao fun tp htp => (bounds tp htp).1
  · rcases origin n got with pre | ⟨_, tuples, hao, bounds⟩
    · intro tp htp
      exact hm.mem_base'.mpr (.inr (ok.covered n pre tp htp))
    · rw [tuples]
      apply forall_keys_of_lookup (P := fun row => base'.lookup row ≠ none)
      intro row hp
      apply hm.mem_base'.mpr
      rcases (hm.mem_merge hao).mp hp with old | isId
      · obtain ⟨_, htp⟩ := exists_of_lookup old
        exact .inr (bounds _ htp).2
      · exact .inl isId

theorem overwrites_append (r : Nat) (ns ns' : List (UpdateInfo V)) :
    overwrites r (ns ++ ns') = overwrites r ns ++ overwrites r ns' :=
  filterMap_append

theorem overwrites_cons (r : Nat) (n : UpdateInfo V) (ns : List (UpdateInfo V)) :
    overwrites r (n :: ns) =
      ((n.tuples.lookup r).map (Overwrite.mk n.owner)).toList ++ overwrites r ns := by
  unfold overwrites
  rw [filterMap_cons]
  cases n.tuples.lookup r <;> rfl

theorem overwrites_eq_nil {ns : List (UpdateInfo V)}
    (out : ∀ n ∈ ns, n.tuples.lookup row = none) : overwrites row ns = [] := by
  apply filterMap_eq_nil_iff.mpr
  intro n got
  rw [out n got]
  rfl

theorem filter_author_cons {owners : List Nat} {o : Overwrite V} (kept : o.author ∈ owners)
    (stk : List (Overwrite V)) : (o :: stk).filter (fun o => o.author ∈ owners) =
      o :: stk.filter fun o => o.author ∈ owners := by
  rw [filter_cons, if_pos (decide_eq_true kept)]

variable (head : h.Sound transactionIdStart) (active : h.active tx.transactionId tx.startTime)
  (ne : ∀ id time, h.committed id = some time → time ≠ tx.startTime)
  (timed : h.Timed hst) (ok : c.Sound h) (lay : c.Layered h hst ls)
  (hm : Merged tb updates c.base.tuples base' merge)
  (fit : ∀ tuple ∈ updates, tuple.1 < standardVectorSize)
  (asc : Ascending updates)
  (passes : checkForConflicts tx (updates.map Prod.fst) c.nodes = false)
include head active ne timed ok lay hm fit asc passes

/-- The transaction has an info already, somewhere in the chain. -/
theorem update_own {newer older : List (UpdateInfo V)} {n : UpdateInfo V}
    (split : c.nodes = newer ++ n :: older)
    (others : ∀ other ∈ newer, other.versionNumber ≠ tx.transactionId)
    (own : n.versionNumber = tx.transactionId) {c' : UpdateChain V}
    (result : c' = ⟨{ c.base with tuples := base' },
      newer ++ { n with tuples := merge n.tuples } :: older⟩) :
    c'.Sound h ∧ c'.Layered h hst
      (pushed tx.transactionId (updates.map Prod.fst) (c.current tb) ls) := by
  subst result
  have srt : (updates.map Prod.fst).Pairwise (· < ·) := pairwise_map.mpr asc
  have mem : n ∈ c.nodes := by
    rw [split]
    exact mem_append_right _ mem_cons_self
  have owner := owner_of_version head active (own ▸ ok.accounted n mem)
  have hao := (ok.verified n mem).ascending
  have hpl := ok.placed
  rw [split] at hpl
  -- what comes before the info has no row of the update
  have hiddenNewer {r : Nat} (isId : r ∈ updates.map Prod.fst) : overwrites r newer = [] := by
    apply overwrites_eq_nil
    intro other isNewer
    by_contra hp
    have hno : other ∈ c.nodes := by
      rw [split]
      exact mem_append_left _ isNewer
    have hl := (pairwise_append.mp hpl).2.2 other isNewer n mem_cons_self
      tx.startTime (owner ▸ active)
    rcases passed_of_row ok srt passes hno isId hp with same | _
    · exact others other isNewer same
    · omega
  have sameOwners : (UpdateChain.mk { c.base with tuples := base' }
      (newer ++ { n with tuples := merge n.tuples } :: older)).owners = c.owners := by
    simp only [UpdateChain.owners, split, map_append, map_cons]
  have onChain : tx.transactionId ∈ c.owners := owner ▸ List.mem_map_of_mem mem
  refine ⟨ok.of_merged hm fit ?_ ?_ ?_ ?_, fun r => ?_, fun r o isIn cleaned => ?_, ?_⟩
  · intro other isIn
    rcases mem_append.mp isIn with isNewer | isRest
    · left
      rw [split]
      exact mem_append_left _ isNewer
    · rcases mem_cons.mp isRest with rfl | isOlder
      · refine .inr ⟨n.tuples, rfl, hao, fun tp htp => ?_⟩
        exact ⟨(ok.verified n mem).inside tp htp, ok.covered n mem tp htp⟩
      · left
        rw [split]
        exact mem_append_right _ (mem_cons_of_mem _ isOlder)
  · have nd := ok.owners
    rw [← sameOwners] at nd
    exact nd
  · intro other isIn
    rcases mem_append.mp isIn with isNewer | isRest
    · exact ok.accounted other (split ▸ mem_append_left _ isNewer)
    · rcases mem_cons.mp isRest with rfl | isOlder
      · exact ok.accounted n mem
      · exact ok.accounted other (split ▸ mem_append_right _ (mem_cons_of_mem _ isOlder))
  · obtain ⟨fst, snd, hbt⟩ := pairwise_append.mp hpl
    obtain ⟨behind, last⟩ := pairwise_cons.mp snd
    refine pairwise_append.mpr ⟨fst, pairwise_cons.mpr ⟨behind, last⟩, ?_⟩
    intro other isNewer rest isRest
    rcases mem_cons.mp isRest with rfl | isOlder
    · exact hbt other isNewer n mem_cons_self
    · exact hbt other isNewer rest (mem_cons_of_mem _ isOlder)
  · have pre := lay.shown r
    have hos := lay.mem_authors_iff ok mem r
    rw [split, overwrites_append, overwrites_cons] at pre
    rw [sameOwners, overwrites_append, overwrites_cons, pushed]
    rw [hm.lookup n.tuples hao r]
    rw [owner] at hos pre ⊢
    by_cases isId : r ∈ updates.map Prod.fst
    · rw [if_pos isId]
      rw [hiddenNewer isId] at pre ⊢
      cases v : n.tuples.lookup r with
      | some old =>
        rw [v] at pre hos
        rw [if_neg fun hfr => hfr.2 (hos.mpr (Option.some_ne_none _))]
        exact pre
      | none =>
        rw [v] at pre hos
        rw [if_pos ⟨isId, fun isIn => hos.mp isIn rfl⟩, filter_author_cons onChain _, ← pre]
        rfl
    · rw [if_neg isId, Option.or_none, if_neg fun hfr => isId hfr.1]
      exact pre
  · rw [sameOwners] at cleaned
    unfold pushed at isIn
    split at isIn
    · rcases mem_cons.mp isIn with rfl | isIn
      · exact absurd onChain cleaned
      · exact lay.settled r o isIn cleaned
    · exact lay.settled r o isIn cleaned
  · exact pushed_succession head active ne ok lay srt passes timed _

/-- The transaction has no info yet. The new one is put in front. -/
theorem update_new (new : ∀ n ∈ c.nodes, n.versionNumber ≠ tx.transactionId)
    (running : ∀ e ∈ h.ending, e.id ≠ tx.transactionId) {c' : UpdateChain V}
    (result : c' = ⟨{ c.base with tuples := base' },
      ⟨tx.transactionId, tx.transactionId, merge []⟩ :: c.nodes⟩) :
    c'.Sound h ∧ c'.Layered h hst
      (pushed tx.transactionId (updates.map Prod.fst) (c.current tb) ls) := by
  subst result
  have srt : (updates.map Prod.fst).Pairwise (· < ·) := pairwise_map.mpr asc
  obtain ⟨-, -, _, -, live⟩ := head.active_lt active
  have hno : tx.transactionId ∉ c.owners := by
    intro onChain
    obtain ⟨n, got, owner⟩ := List.mem_map.mp onChain
    rcases ok.accounted n got with done | ⟨-, own | ⟨e, isEnding, same, -⟩⟩
    · rw [owner, live] at done
      cases done
    · exact new n got (own.trans owner)
    · exact running e isEnding (same.trans owner)
  have unlayered (r : Nat) : tx.transactionId ∉ authors (ls r) := by
    intro hos
    rcases lay.alive ok hos with done | ⟨-, onChain⟩
    · exact done live
    · exact hno onChain
  have emp : Ascending ([] : List (Nat × V)) := List.Pairwise.nil
  refine ⟨ok.of_merged hm fit ?_ ?_ ?_ ?_, fun r => ?_, fun r o isIn cleaned => ?_, ?_⟩
  · intro other isIn
    rcases mem_cons.mp isIn with rfl | pre
    · exact .inr ⟨[], rfl, emp, fun tuple htp => (by cases htp)⟩
    · exact .inl pre
  · exact nodup_cons.mpr ⟨hno, ok.owners⟩
  · intro other isIn
    rcases mem_cons.mp isIn with rfl | pre
    · exact .inr ⟨⟨_, active⟩, .inl rfl⟩
    · exact ok.accounted other pre
  · refine pairwise_cons.mpr ⟨fun other pre start act => ?_, ok.placed⟩
    have := (head.active_lt act).2.1
    dsimp only
    omega
  · have pre := lay.shown r
    rw [overwrites_cons, pushed]
    rw [hm.lookup [] emp r, lookup_nil, Option.none_or]
    -- nobody else's overwrites are looked at differently
    have ho : (ls r).filter (fun o => o.author ∈ c.owners) =
        (ls r).filter fun o => o.author ∈ tx.transactionId :: c.owners := by
      refine filter_congr fun o isIn => ?_
      have hne : o.author ≠ tx.transactionId := fun same =>
        unlayered r (same ▸ List.mem_map_of_mem isIn)
      simp only [mem_cons, hne, false_or]
    rw [ho] at pre
    by_cases isId : r ∈ updates.map Prod.fst
    · rw [if_pos isId, if_pos ⟨isId, unlayered r⟩, pre]
      exact (filter_author_cons mem_cons_self _).symm
    · rw [if_neg isId, if_neg fun new => isId new.1, pre]
      rfl
  · have ho : o.author ∉ c.owners := fun onChain => cleaned (mem_cons_of_mem _ onChain)
    unfold pushed at isIn
    split at isIn
    · rcases mem_cons.mp isIn with rfl | isIn
      · exact absurd mem_cons_self cleaned
      · exact lay.settled r o isIn ho
    · exact lay.settled r o isIn ho
  · exact pushed_succession head active ne ok lay srt passes timed _

end

/-! ## A chain or none -/

section

variable {h : Header} {hst : Nat → Option Nat} {ls : Nat → List (Overwrite V)}
  {tx : TransactionData} {tb : Nat → V} {updates : List (Nat × V)}
  (active : h.active tx.transactionId tx.startTime)
  (fit : ∀ tuple ∈ updates, tuple.1 < standardVectorSize) (asc : Ascending updates)
include active fit asc

theorem update_some {c : UpdateChain V} (head : h.Sound transactionIdStart)
    (ne : ∀ id t, h.committed id = some t → t ≠ tx.startTime)
    (running : ∀ e ∈ h.ending, e.id ≠ tx.transactionId) (timed : h.Timed hst)
    (ok : c.Sound h) (lay : c.Layered h hst ls) (eq : c.update tx true tb updates = .ok c') :
    (c'.Sound h ∧ c'.Layered h hst
      (pushed tx.transactionId (updates.map Prod.fst) (c.current tb) ls)) ∧
      ∀ r, c'.current tb r = (updates.lookup r).getD (c.current tb r) := by
  have hm := merged_of_ascending tb asc ok.base.ascending
  have vs (r : Nat) : ((mergeLoop updates c.base.tuples).lookup r).getD (tb r) =
      (updates.lookup r).getD (c.current tb r) := by
    rw [hm.lookupBase]
    cases updates.lookup r <;> rfl
  unfold UpdateChain.update at eq
  dsimp only at eq
  split at eq
  · cases eq
  · rename_i passes
    rw [Bool.not_eq_true] at passes
    rcases mergeIntoOwn_spec tx.transactionId (fun n => (mergeUpdates tb updates c.base n).2)
        c.nodes with
      ⟨failed, fresh⟩ | ⟨_, _, _, split, others, own, got⟩
    · rw [failed] at eq
      cases eq
      exact ⟨update_new head active ne timed ok lay hm fit asc passes fresh running rfl, vs⟩
    · rw [got] at eq
      cases eq
      exact ⟨update_own head active ne timed ok lay hm fit asc passes
        split others own rfl, vs⟩

theorem update_none (hst : Nat → Option Nat) (initialValue : Nat → V)
    {ls : Nat → List (Overwrite V)} (emp : ∀ r, ls r = []) :
    let c := UpdateChain.create tx true initialValue updates
    (c.Sound h ∧ c.Layered h hst (pushed tx.transactionId (updates.map Prod.fst) initialValue ls)) ∧
      ∀ r, c.current tb r = (updates.lookup r).getD (tb r) := by
  have hp (r : Nat) := lookup_map_keys initialValue updates r
  have cases_row (r : Nat) : pushed tx.transactionId (updates.map Prod.fst) initialValue
      ls r = if r ∈ updates.map Prod.fst then
        [⟨tx.transactionId, initialValue r⟩] else [] := by
    unfold pushed
    rw [emp r]
    exact if_congr (and_iff_left not_mem_nil) rfl rfl
  refine ⟨⟨⟨rfl, ⟨asc, fit⟩, ?_, ?_, ?_, ?_, ?_⟩, ?_, ?_, ?_⟩, fun r => rfl⟩
  · intro n got
    cases mem_singleton.mp got
    constructor
    · exact pairwise_map.mpr asc
    · intro tp got
      obtain ⟨oth, isIn, rfl⟩ := List.mem_map.mp got
      exact fit oth isIn
  · intro n got tp htp
    cases mem_singleton.mp got
    obtain ⟨oth, isIn, rfl⟩ := List.mem_map.mp htp
    have isKey : oth.1 ∈ updates.map Prod.fst := List.mem_map_of_mem isIn
    exact fun hno => lookup_eq_none_iff.mp hno isKey
  · exact nodup_singleton _
  · intro n got
    cases mem_singleton.mp got
    exact .inr ⟨⟨_, active⟩, .inl rfl⟩
  · exact pairwise_singleton _ _
  · intro r
    rw [cases_row]
    refine (overwrites_cons r _ []).trans ?_
    rw [hp]
    split
    · exact (filter_author_cons (mem_singleton_self tx.transactionId) []).symm
    · rfl
  · intro r o isIn cleaned
    rw [cases_row] at isIn
    split at isIn
    · cases mem_singleton.mp isIn
      exact absurd mem_cons_self cleaned
    · cases isIn
  · intro r
    rw [cases_row]
    split
    · exact pairwise_singleton _ _
    · exact List.Pairwise.nil

end

end AccessPath
