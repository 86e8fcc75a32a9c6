import AccessPath.Constants
import AccessPath.Library.KeyedList

/-!
# Update infos and the loops over them

The loops of `update_segment.cpp` that work on the sorted tuples of an
`UpdateInfo`. A cursor into an array of tuples is the rest of a list, and each
loop has one lemma that says which value it leaves at every row.
-/

namespace AccessPath

open Library
open List hiding lookup_eq_none_iff

variable {T V : Type}

/-! ## Vectors and kinds of segments -/

/-- A flat vector: its data, and which rows are not NULL. The data at NULL rows has
no meaning. -/
structure FlatVector (T : Type) where
  data : Nat → T
  validity : Nat → Bool

def FlatVector.get (vector : FlatVector T) (i : Nat) : Option T :=
  if vector.validity i then some (vector.data i) else none

inductive UpdateKind where
  | standard
  | validity
  deriving DecidableEq

/-- What the tuples of an update info hold. -/
abbrev UpdateKind.Value (kind : UpdateKind) (T : Type) : Type :=
  match kind with
  | .standard => T
  | .validity => Bool

/-- `statistics_update_function`, as far as it decides which rows of the update are
stored: `NULL`s change the validity mask only. -/
def UpdateKind.statisticsUpdate (kind : UpdateKind) (update : FlatVector T) (count : Nat) :
    List Nat :=
  match kind with
  | .standard => (range count).filter update.validity
  | .validity => range count

/-- `ExtractStandardEntry` and `ExtractValidityEntry`. -/
def UpdateKind.extract : (kind : UpdateKind) → FlatVector T → Nat → kind.Value T
  | .standard, vector, entry => vector.data entry
  | .validity, vector, entry => vector.validity entry

/-- The old value that `InitializeUpdateData` or `InitializeUpdateValidity` puts
into a fresh info. The former skips rows whose stored value is NULL, so that
the new memory keeps whatever it contained. -/
def UpdateKind.initialValue : (kind : UpdateKind) → FlatVector T → (Nat → kind.Value T) → Nat →
    kind.Value T
  | .standard, base, memory, row => if base.validity row then base.data row else memory row
  | .validity, base, _, row => base.validity row

/-- What a fetched value says about the value of the column: nothing if that is
NULL, unless the segment is the one of the validity mask. -/
def UpdateKind.Represents : (kind : UpdateKind) → kind.Value T → Option T → Prop
  | .standard, x, value => ∀ t ∈ value, x = t
  | .validity, x, value => x = value.isSome

theorem UpdateKind.represents_extract (kind : UpdateKind) (vec : FlatVector T) (i : Nat) :
    kind.Represents (kind.extract vec i) (vec.get i) := by
  cases kind with
  | standard =>
    intro t got
    unfold FlatVector.get at got
    split at got
    · exact Option.some.inj got
    · cases got
  | validity =>
    simp only [Represents, extract, FlatVector.get]
    split <;> simp_all

theorem UpdateKind.represents_initialValue (kind : UpdateKind) (vec : FlatVector T)
    (memory : Nat → kind.Value T) (i : Nat) :
    kind.Represents (kind.initialValue vec memory i) (vec.get i) := by
  cases kind with
  | standard =>
    intro t got
    unfold FlatVector.get at got
    split_ifs at got with hv
    · exact (if_pos hv).trans (Option.some.inj got)
    · cases got
  | validity => exact represents_extract .validity vec i

/-! ## Fetching -/

/-- `owner` is the transaction whose undo buffer holds the info. The base info is
in none. -/
structure UpdateInfo (V : Type) where
  owner : Nat
  versionNumber : Nat
  tuples : List (Nat × V)

/-- The ids and values are in range and in order, which `Verify` checks. -/
structure UpdateInfo.Verified (info : UpdateInfo V) : Prop where
  ascending : Ascending info.tuples
  inside : ∀ tuple ∈ info.tuples, tuple.1 < standardVectorSize

def setTuples (result : Nat → V) (tuples : List (Nat × V)) : Nat → V :=
  tuples.foldl (fun result tuple => Function.update result tuple.1 tuple.2) result

/-- `MergeUpdateInfo` copies the data of an info with a tuple for every row without
looking at the ids; `MergeValidityInfo` sets bit after bit. -/
def UpdateKind.mergeUpdateInfo (kind : UpdateKind) (info : UpdateInfo V) (result : Nat → V) :
    Nat → V :=
  match kind with
  | .standard =>
    if info.tuples.length = standardVectorSize then
      fun row => ((info.tuples[row]?).map Prod.snd).getD (result row)
    else setTuples result info.tuples
  | .validity => setTuples result info.tuples

section

variable {tuples : List (Nat × V)} (asc : Ascending tuples)
include asc

theorem setTuples_apply (res : Nat → V)
    (r : Nat) : setTuples res tuples r = (tuples.lookup r).getD (res r) := by
  induction tuples generalizing res with
  | nil => rfl
  | cons tp tuples ih =>
    obtain ⟨lo, xs⟩ := pairwise_cons.mp asc
    rw [lookup_cons_ite]
    refine (ih xs _).trans ?_
    by_cases eq : r = tp.1
    · subst eq
      rw [if_pos rfl, lookup_eq_none_of_ne fun o got => (lo o got).ne']
      exact Function.update_self ..
    · rw [if_neg eq]
      exact congrArg _ (Function.update_of_ne eq ..)

/-- An ascending list of ids below a bound, as long as the bound, is the list of
all of them. -/
theorem ids_of_full (fit : ∀ tp ∈ tuples, tp.1 < tuples.length) :
    tuples.map Prod.fst = range tuples.length := by
  have srt : (tuples.map Prod.fst).Pairwise (· < ·) := pairwise_map.mpr asc
  have subset : tuples.map Prod.fst ⊆ range tuples.length := by
    intro id got
    obtain ⟨tp, htp, rfl⟩ := List.mem_map.mp got
    exact mem_range.mpr (fit tp htp)
  have nd : (tuples.map Prod.fst).Nodup := srt.imp fun lo => Nat.ne_of_lt lo
  have perm : (tuples.map Prod.fst).Perm (range tuples.length) :=
    (nd.subperm subset).perm_of_length_le (by simp)
  exact perm.eq_of_pairwise (fun _ _ _ _ lo hi => absurd lo hi.asymm) srt
    pairwise_lt_range

theorem getElem?_of_full (fit : ∀ tp ∈ tuples, tp.1 < tuples.length) (r : Nat) :
    (tuples[r]?).map Prod.snd = tuples.lookup r := by
  have ids := ids_of_full asc fit
  cases got : tuples[r]? with
  | none =>
    refine (lookup_eq_none_of_ne fun tp htp => ?_).symm
    have hb := fit tp htp
    have past := List.getElem?_eq_none_iff.mp got
    omega
  | some tp =>
    obtain ⟨hb, -⟩ := List.getElem?_eq_some_iff.mp got
    have id : tp.1 = r := by
      have eq : (tuples.map Prod.fst)[r]? = some tp.1 := by
        rw [getElem?_map, got]
        rfl
      rw [ids, getElem?_range hb] at eq
      exact (Option.some.inj eq).symm
    rw [← id, asc.lookup_mem (mem_of_getElem? got)]
    rfl

end

/-- Either way the rows of the info get their values and the others keep theirs. -/
theorem UpdateInfo.Verified.mergeUpdateInfo_apply {info : UpdateInfo V} (verified : info.Verified)
    (kind : UpdateKind) (res : Nat → V) (r : Nat) :
    kind.mergeUpdateInfo info res r = (info.tuples.lookup r).getD (res r) := by
  cases kind with
  | standard =>
    unfold UpdateKind.mergeUpdateInfo
    split_ifs with full
    · have vs := getElem?_of_full verified.ascending (full ▸ verified.inside) r
      exact congrArg (Option.getD · (res r)) vs
    · exact setTuples_apply verified.ascending res r
  | validity => exact setTuples_apply verified.ascending res r

/-! ## The merge join of `CheckForConflicts` -/

/-- Whether the two ascending arrays have an id in common. For each id of the update
the cursor into the tuples moves past the smaller ones. -/
def conflictLoop : List Nat → List Nat → Bool
  | [], _ => false
  | id :: ids, tuples =>
    match tuples.dropWhile (· < id) with
    | [] => false
    | tuple :: rest => if id = tuple then true else conflictLoop ids (tuple :: rest)

theorem conflictLoop_iff {ids ts : List Nat} (asc : ids.Pairwise (· < ·))
    (srt : ts.Pairwise (· < ·)) : conflictLoop ids ts = true ↔ ∃ id ∈ ids, id ∈ ts := by
  induction ids generalizing ts with
  | nil => simp [conflictLoop]
  | cons id ids ih =>
    obtain ⟨lo, xs⟩ := pairwise_cons.mp asc
    -- only tuples smaller than the id are passed over
    have passed {o : Nat} (le : id ≤ o) : o ∈ ts ↔ o ∈ ts.dropWhile (· < id) := by
      conv_lhs => rw [← takeWhile_append_dropWhile (p := (· < id)) (l := ts)]
      rw [mem_append, or_iff_right]
      intro ht
      have := mem_takeWhile_imp ht
      simp only [decide_eq_true_eq] at this
      omega
    have remaining : (∃ o ∈ id :: ids, o ∈ ts) ↔ ∃ o ∈ id :: ids, o ∈ ts.dropWhile (· < id) := by
      refine exists_congr fun o => and_congr_right fun got => passed ?_
      rcases mem_cons.mp got with rfl | got
      · exact le_rfl
      · exact (lo o got).le
    have kept : (ts.dropWhile (· < id)).Pairwise (· < ·) := srt.sublist (dropWhile_sublist _)
    rw [remaining, conflictLoop]
    cases cursor : ts.dropWhile (· < id) with
    | nil => simp
    | cons tp more =>
      dsimp only
      by_cases eq : id = tp
      · simp [eq]
      · rw [if_neg eq, ih xs (cursor ▸ kept)]
        refine ⟨fun ⟨o, got, htp⟩ => ⟨o, mem_cons_of_mem _ got, htp⟩, ?_⟩
        rintro ⟨o, got, htp⟩
        rcases mem_cons.mp got with rfl | got
        · -- the cursor stands at a larger tuple
          have past : o < tp := by
            have head : ¬ decide (tp < o) = true := by
              have := head_dropWhile_not (p := (· < o)) (l := ts)
                (by rw [cursor]; exact cons_ne_nil _ _)
              simpa [cursor] using this
            simp only [decide_eq_true_eq] at head
            omega
          rcases mem_cons.mp htp with rfl | hl
          · omega
          · have := (pairwise_cons.mp (cursor ▸ kept)).1 o hl
            omega
        · exact ⟨o, got, htp⟩

/-! ## The merges of `MergeUpdateLoopInternal` -/

/-- The value that a cursor stands at, if its id is the given one. -/
def valueAtCursor (id : Nat) : List (Nat × V) → Option V
  | [] => none
  | tuple :: _ => if tuple.1 = id then some tuple.2 else none

/-- The cursor moved on, if its id is the given one. -/
def skipId (id : Nat) : List (Nat × V) → List (Nat × V)
  | [] => []
  | tuple :: rest => if tuple.1 = id then rest else tuple :: rest

/-- `MergeLoop` of the new values with the tuples of the base info: where both have
an id, the new value is picked. -/
def mergeLoop : List (Nat × V) → List (Nat × V) → List (Nat × V)
  | [], old => old
  | new :: news, old =>
    old.takeWhile (·.1 < new.1) ++
      new :: mergeLoop news (skipId new.1 (old.dropWhile (·.1 < new.1)))

/-- The first loop: the old values that the transaction has to keep. Ids that its
info already has keep the value stored there; for the others it is taken from
the base info or, if that has none, from the table. -/
def mergeOldValues (table : Nat → V) : List Nat → List (Nat × V) → List (Nat × V) → List (Nat × V)
  | [], own, _ => own
  | id :: ids, own, base =>
    let before := own.takeWhile (·.1 < id)
    let cursor := own.dropWhile (·.1 < id)
    match valueAtCursor id cursor with
    | some value => before ++ (id, value) :: mergeOldValues table ids cursor.tail base
    | none =>
      let base := base.dropWhile (·.1 < id)
      before ++ (id, (valueAtCursor id base).getD (table id)) ::
        mergeOldValues table ids cursor base

section

variable {id : Nat} {l : List (Nat × V)} (asc : Ascending l) (past : ∀ tuple ∈ l, id ≤ tuple.1)
include asc past

theorem valueAtCursor_eq : valueAtCursor id l = l.lookup id := by
  cases l with
  | nil => rfl
  | cons tp xs =>
    rw [lookup_cons_ite, valueAtCursor]
    by_cases eq : tp.1 = id
    · rw [if_pos eq, if_pos eq.symm]
    · rw [if_neg eq, if_neg fun heq => eq heq.symm]
      refine (lookup_eq_none_of_ne fun o got => ?_).symm
      have := past tp mem_cons_self
      have := (pairwise_cons.mp asc).1 o got
      omega

theorem skipId_spec : Ascending (skipId id l) ∧ (∀ tp ∈ skipId id l, id < tp.1) ∧
    ∀ r, id < r → (skipId id l).lookup r = l.lookup r := by
  cases l with
  | nil => exact ⟨List.Pairwise.nil, fun _ got => (by cases got), fun _ _ => rfl⟩
  | cons tp xs =>
    obtain ⟨lo, srt⟩ := pairwise_cons.mp asc
    rw [skipId]
    by_cases eq : tp.1 = id
    · rw [if_pos eq]
      refine ⟨srt, fun o got => eq ▸ lo o got, fun r hl => ?_⟩
      rw [lookup_cons_ite, if_neg (by omega)]
    · rw [if_neg eq]
      refine ⟨asc, fun o got => ?_, fun _ _ => rfl⟩
      have first := past tp mem_cons_self
      rcases mem_cons.mp got with rfl | got
      · omega
      · have := lo o got
        omega

end

theorem mergeLoop_spec {news old : List (Nat × V)} (ascendingNews : Ascending news)
    (ascendingOld : Ascending old) : Ascending (mergeLoop news old) ∧
      ∀ r, (mergeLoop news old).lookup r = (news.lookup r).or (old.lookup r) := by
  induction news generalizing old with
  | nil => exact ⟨ascendingOld, fun r => rfl⟩
  | cons new news ih =>
    obtain ⟨lo, ascendingNews⟩ := pairwise_cons.mp ascendingNews
    obtain ⟨srt, hi, skipped⟩ :=
      skipId_spec (ascendingOld.dropWhile (·.1 < new.1)) fun _ => ascendingOld.le_of_dropWhile
    obtain ⟨asc, vs⟩ := ih ascendingNews srt
    have hl : ∀ e ∈ mergeLoop news (skipId new.1 (old.dropWhile (·.1 < new.1))), new.1 < e.1 := by
      refine forall_keys_of_lookup fun r got => ?_
      rw [vs r, ne_eq, Option.or_eq_none_iff, not_and_or] at got
      rcases got with got | got <;> obtain ⟨x, isEntry⟩ := exists_of_lookup got
      · exact lo _ isEntry
      · exact hi _ isEntry
    refine ⟨ascendingOld.cut new asc hl, fun r => ?_⟩
    rw [mergeLoop, ascendingOld.lookup_cut, lookup_cons_ite]
    rcases Nat.lt_trichotomy r new.1 with lt | rfl | gt
    · have noNews : news.lookup r = none :=
        lookup_eq_none_of_ne fun e got => (lt.trans (lo e got)).ne'
      have noRest : (mergeLoop news (skipId new.1 (old.dropWhile (·.1 < new.1)))).lookup r =
          none := lookup_eq_none_of_ne fun e got => (lt.trans (hl e got)).ne'
      rw [if_pos lt, if_neg lt.ne, noNews, noRest, Option.or_none, Option.none_or]
    · rw [if_neg (Nat.lt_irrefl _), if_pos rfl, if_pos rfl, Option.some_or]
    · rw [if_neg gt.asymm, if_neg gt.ne', if_neg gt.ne', vs r, skipped r gt,
        ascendingOld.lookup_dropWhile gt.le]

theorem skipId_of_value {id : Nat} {l : List (Nat × V)} {v : V}
    (got : valueAtCursor id l = some v) : l.tail = skipId id l := by
  cases l with
  | nil => rfl
  | cons tp xs =>
    rw [valueAtCursor] at got
    split_ifs at got with eq
    exact (if_pos eq).symm

theorem skipId_of_none {id : Nat} {l : List (Nat × V)} (absent : valueAtCursor id l = none) :
    l = skipId id l := by
  cases l with
  | nil => rfl
  | cons tp xs =>
    rw [valueAtCursor] at absent
    split_ifs at absent with hne
    exact (if_neg hne).symm

/-- The info ends up with its own tuples, and with a tuple for each id of the update
that it did not have. -/
theorem mergeOldValues_spec (tb : Nat → V) {ids : List Nat} {own base : List (Nat × V)}
    (asc : ids.Pairwise (· < ·)) (ascendingOwn : Ascending own)
    (hab : Ascending base) :
    Ascending (mergeOldValues tb ids own base) ∧
      ∀ r, (mergeOldValues tb ids own base).lookup r = (own.lookup r).or
          (if r ∈ ids then some ((base.lookup r).getD (tb r)) else none) := by
  induction ids generalizing own base with
  | nil =>
    refine ⟨ascendingOwn, fun r => ?_⟩
    rw [if_neg not_mem_nil, Option.or_none]
    rfl
  | cons id ids ih =>
    obtain ⟨lo, asc⟩ := pairwise_cons.mp asc
    have past : ∀ tp ∈ own.dropWhile (·.1 < id), id ≤ tp.1 := fun _ => ascendingOwn.le_of_dropWhile
    obtain ⟨srt, hi, skipped⟩ := skipId_spec (ascendingOwn.dropWhile _) past
    -- whichever value is written, the loop goes on behind the id
    have written (v : V) {base' : List (Nat × V)} (ascendingBase' : Ascending base')
        (eq : ∀ r, id < r → base'.lookup r = base.lookup r)
        (chosen : (own.lookup id).or (some ((base.lookup id).getD (tb id))) = some v) :
        Ascending (own.takeWhile (·.1 < id) ++ (id, v) ::
            mergeOldValues tb ids (skipId id (own.dropWhile (·.1 < id))) base') ∧
          ∀ r, (own.takeWhile (·.1 < id) ++ (id, v) ::
              mergeOldValues tb ids (skipId id (own.dropWhile (·.1 < id))) base').lookup r =
            (own.lookup r).or
              (if r ∈ id :: ids then some ((base.lookup r).getD (tb r)) else none) := by
      obtain ⟨xs, vs⟩ := ih asc srt ascendingBase'
      have hl : ∀ e ∈ mergeOldValues tb ids (skipId id (own.dropWhile (·.1 < id))) base',
          id < e.1 := by
        apply forall_keys_of_lookup
        intro r got
        rw [vs r, ne_eq, Option.or_eq_none_iff, not_and_or] at got
        rcases got with got | got
        · obtain ⟨x, isEntry⟩ := exists_of_lookup got
          exact hi _ isEntry
        · split_ifs at got with isId
          · exact lo r isId
          · exact absurd rfl got
      refine ⟨ascendingOwn.cut (id, v) xs hl, fun r => ?_⟩
      rw [ascendingOwn.lookup_cut (id, v)]
      rcases Nat.lt_trichotomy r id with lt | rfl | gt
      · have noId : r ∉ id :: ids := by
          intro got
          rcases mem_cons.mp got with rfl | got
          · omega
          · exact (lt.trans (lo r got)).false
        rw [if_pos lt, if_neg noId, lookup_eq_none_of_ne fun e got => (lt.trans (hl e got)).ne']
      · rw [if_neg (Nat.lt_irrefl _), if_pos rfl, if_pos mem_cons_self, chosen]
      · have member : r ∈ id :: ids ↔ r ∈ ids := by
          rw [mem_cons, or_iff_right gt.ne']
        simp only [if_neg gt.asymm, if_neg gt.ne', vs r, skipped r gt, member, eq r gt,
          ascendingOwn.lookup_dropWhile gt.le]
    rw [mergeOldValues]
    dsimp only
    have atCursor := valueAtCursor_eq (ascendingOwn.dropWhile _) past
    rw [ascendingOwn.lookup_dropWhile (le_refl id)] at atCursor
    cases got : valueAtCursor id (own.dropWhile (·.1 < id)) with
    | some v =>
      rw [skipId_of_value got]
      apply written v hab fun _ _ => rfl
      rw [← atCursor, got]
      rfl
    | none =>
      have baseCursor := valueAtCursor_eq (hab.dropWhile _) fun _ => hab.le_of_dropWhile (k := id)
      rw [hab.lookup_dropWhile (le_refl id)] at baseCursor
      have res := written ((base.lookup id).getD (tb id)) (hab.dropWhile (·.1 < id))
        (fun r hl => hab.lookup_dropWhile hl.le)
        (by rw [← atCursor, got]; rfl)
      rw [← skipId_of_none got] at res
      rw [baseCursor]
      exact res

/-! ## `RollbackUpdate` -/

/-- Each old value is written where the cursor into the base info stops, which is
the tuple with its id if there is one. -/
def rollbackUpdate : List (Nat × V) → List (Nat × V) → List (Nat × V)
  | [], base => base
  | (id, value) :: rest, base =>
    base.takeWhile (·.1 < id) ++
      match base.dropWhile (·.1 < id) with
      | [] => []
      | tuple :: more => rollbackUpdate rest ((tuple.1, value) :: more)

theorem rollbackUpdate_spec {old base : List (Nat × V)} (ascendingOld : Ascending old)
    (hab : Ascending base) (covered : ∀ tp ∈ old, base.lookup tp.1 ≠ none) :
    (rollbackUpdate old base).map Prod.fst = base.map Prod.fst ∧
      ∀ r, (rollbackUpdate old base).lookup r = (old.lookup r).or (base.lookup r) := by
  induction old generalizing base with
  | nil => exact ⟨rfl, fun r => rfl⟩
  | cons en old ih =>
    obtain ⟨id, v⟩ := en
    obtain ⟨lo, ascendingOld⟩ := pairwise_cons.mp ascendingOld
    have hp := covered (id, v) mem_cons_self
    rw [← hab.lookup_dropWhile (le_refl id)] at hp
    have past : ∀ tp ∈ base.dropWhile (·.1 < id), id ≤ tp.1 := fun _ => hab.le_of_dropWhile
    have srt : Ascending (base.dropWhile (·.1 < id)) := hab.dropWhile _
    have split := takeWhile_append_dropWhile (p := fun e : Nat × V => e.1 < id) (l := base)
    have behind (r : Nat) (le : id ≤ r) := hab.lookup_dropWhile (k := id) le
    rw [rollbackUpdate]
    cases cursor : base.dropWhile (·.1 < id) with
    | nil =>
      rw [cursor] at hp
      exact absurd rfl hp
    | cons tp more =>
      rw [cursor] at past srt hp split behind
      -- the cursor stands at the id itself
      have eq : tp.1 = id := by
        have value_eq := valueAtCursor_eq srt past
        rw [← value_eq, valueAtCursor] at hp
        by_contra differ
        exact hp (if_neg differ)
      have asc : Ascending ((tp.1, v) :: more) := pairwise_cons.mpr (pairwise_cons.mp srt)
      obtain ⟨keys, vs⟩ := ih ascendingOld asc fun en got => by
        have hl := lo en got
        have hp := covered en (mem_cons_of_mem _ got)
        rw [← behind en.1 hl.le, lookup_cons_ite, if_neg (by omega)] at hp
        rwa [lookup_cons_ite, if_neg (by dsimp only at hl ⊢; omega)]
      constructor
      · conv_rhs => rw [← split]
        rw [map_append, keys, map_append]
        rfl
      · intro r
        rw [lookup_append, vs r, lookup_cons_ite, lookup_cons_ite]
        rcases Nat.lt_trichotomy r id with lt | rfl | gt
        · have noMore : more.lookup r = none := lookup_eq_none_of_ne fun en got => by
            have := past en (mem_cons_of_mem _ got)
            omega
          rw [hab.lookup_takeWhile lt, if_neg lt.ne, if_neg (by omega), noMore,
            lookup_eq_none_of_ne fun en got => (lt.trans (lo en got)).ne']
          simp
        · rw [lookup_takeWhile_of_le le_rfl, if_pos eq.symm, if_pos rfl,
            lookup_eq_none_of_ne fun en got => (lo en got).ne']
          rfl
        · have there := behind r gt.le
          rw [lookup_cons_ite, if_neg (by omega)] at there
          rw [lookup_takeWhile_of_le gt.le, if_neg (by omega), if_neg gt.ne', there]
          rfl

end AccessPath
