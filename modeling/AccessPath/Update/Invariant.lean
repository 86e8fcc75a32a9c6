import Mathlib.Data.List.GetD
import AccessPath.Update.Updating

/-!
# The invariant of a run

What a call of `UpdateSegment::Update` stores for each row, the update step from
it, and with the other steps `UpdateState.Conforms` in every state of a run whose
timestamps stay in range.
-/

namespace AccessPath

open Library UpdateState

variable {h : Header} {i r : Nat} {T : Type} {k : UpdateKind}

/-! ## What a call stores -/

section

variable {call : UpdateCall k T} {v : Nat} (one : call.OneVector v) (σ : SortByIds)

theorem UpdateCall.mem_range_of_selected (isIn : i ∈ call.selected σ) : i < call.ids.length := by
  have kept := (sortSelectionVector_spec σ _ _).2.1 i isIn
  cases k with
  | standard => exact List.mem_range.mp (List.mem_filter.mp kept).1
  | validity => exact List.mem_range.mp kept

theorem UpdateCall.idAt_mem (lt : i < call.ids.length) : call.idAt i ∈ call.ids := by
  unfold UpdateCall.idAt
  rw [List.getD_eq_getElem _ _ lt]
  exact List.getElem_mem lt

include one

namespace UpdateCall.OneVector

theorem idAt_div (isIn : i ∈ call.selected σ) : call.idAt i / standardVectorSize = v :=
  one.2.2 _ (call.idAt_mem (call.mem_range_of_selected σ isIn))

theorem idAt_eq (isIn : i ∈ call.selected σ) :
    v * standardVectorSize ≤ call.idAt i ∧ call.idAt i < (v + 1) * standardVectorSize := by
  have here := one.idAt_div σ isIn
  unfold standardVectorSize at *
  omega

theorem ascending : Ascending (call.updates (v * standardVectorSize) (call.selected σ)) := by
  apply List.pairwise_map.mpr
  refine (sortSelectionVector_spec σ _ _).1.imp_of_mem fun {i j} iIn jIn less => ?_
  have := (one.idAt_eq σ iIn).1
  omega

theorem inside : ∀ tp ∈ call.updates (v * standardVectorSize) (call.selected σ),
      tp.1 < standardVectorSize := by
  intro tp got
  obtain ⟨_, isIn, rfl⟩ := List.mem_map.mp got
  obtain ⟨_, upper⟩ := one.idAt_eq σ isIn
  rw [Nat.succ_mul] at upper
  omega

theorem lookup (r : Nat) : (call.updates (v * standardVectorSize) (call.selected σ)).lookup r =
      ((call.selected σ).find? (call.idAt · = v * standardVectorSize + r)).map
        (k.extract call.update) := by
  unfold UpdateCall.updates
  rw [lookup_map_pair]
  congr 1
  refine List.find?_congr fun i isIn => ?_
  have lower := (one.idAt_eq σ isIn).1
  refine decide_eq_decide.mpr ?_
  omega

/-- A stored value is the one that the call gives to the row. -/
theorem of_stored {x : k.Value T}
    (st : (call.updates (v * standardVectorSize) (call.selected σ)).lookup r = some x) :
    v * standardVectorSize + r ∈ call.ids ∧
      k.Represents x (call.valueFor σ (v * standardVectorSize + r)) := by
  rw [one.lookup σ r] at st
  unfold UpdateCall.valueFor
  obtain ⟨i, got, rfl⟩ := Option.map_eq_some_iff.mp st
  rw [got]
  refine ⟨?_, k.represents_extract call.update i⟩
  have eq : call.idAt i = v * standardVectorSize + r := by simpa using List.find?_some got
  rw [← eq]
  exact call.idAt_mem (call.mem_range_of_selected σ (List.mem_of_find?_eq_some got))

theorem of_not_stored
    (out : (call.updates (v * standardVectorSize) (call.selected σ)).lookup r = none)
    (isIn : v * standardVectorSize + r ∈ call.ids) :
    k.Drops (call.valueFor σ (v * standardVectorSize + r)) := by
  rw [one.lookup σ r, Option.map_eq_none_iff] at out
  unfold UpdateCall.valueFor
  rw [out]
  refine ⟨?_, rfl⟩
  cases k with
  | standard => rfl
  | validity =>
    -- every position is selected
    obtain ⟨i, fit, eq⟩ := List.mem_iff_getElem.mp isIn
    obtain ⟨j, kept, heq⟩ := (sortSelectionVector_spec σ call.idAt _).2.2 i
      (List.mem_range.mpr fit)
    have isId : call.idAt j = v * standardVectorSize + r := by
      rw [heq, ← eq]
      exact List.getD_eq_getElem _ _ fit
    exact absurd (decide_eq_true isId) (List.find?_eq_none.mp out j kept)

end UpdateCall.OneVector

end

/-! ## The update step -/

/-- With nothing on the stack, every value that represents the stored one will do as
the oldest. -/
theorem Explains.of_nil {h : Header} {st : Option T} {writes : List (Write T)}
    {cur old : k.Value T} (expl : Explains h k st writes [] cur)
    (hrep : k.Represents old st) : Explains h k st writes [] old where
  oldest := hrep
  written := fun a hos => by cases hos
  missing := expl.missing
  known := expl.known

theorem Explains.update {started : Nat → Option Nat} {st : Option T} {writes : List (Write T)}
    {stack : List (Overwrite (k.Value T))} {cur old : k.Value T} {id : Nat}
    (update : Option (k.Value T)) (v : Option (Option T)) (known : id < h.nextId)
    (uncommitted : h.committed id = none)
    (succession : stack.Pairwise fun newer older => h.Succeeds started newer.author older.author)
    (expl : Explains h k st writes stack cur)
    (before : Explains h k st writes stack old)
    (some_of_stored : ∀ x, update = some x → ∃ y, v = some y ∧ k.Represents x y)
    (drops : update = none → ∀ y, v = some y → k.Drops y) :
    Explains h k st ((v.map (Write.mk id)).toList ++ writes)
      (if update ≠ none ∧ id ∉ authors stack then ⟨id, old⟩ :: stack else stack)
      (update.getD cur) := by
  cases update with
  | none =>
    rw [if_neg fun new => new.1 rfl]
    cases v with
    | none => exact expl
    | some y => exact expl.drop known (drops rfl y rfl)
  | some x =>
    obtain ⟨_, rfl, hrep⟩ := some_of_stored x rfl
    by_cases hos : id ∈ authors stack
    · rw [if_neg fun new => new.2 hos]
      obtain ⟨_, _, rfl, -⟩ := on_top_of_succession succession uncommitted hos
      exact expl.rewrite known hrep
    · rw [if_pos ⟨Option.some_ne_none x, hos⟩]
      exact before.push known hrep

section

variable {st : Nat → FlatVector T} {s : UpdateState k T} {σ : SortByIds}
  {tx : TransactionData} {v : Nat} {call : UpdateCall k T}

theorem UpdateState.header_pushUndo (s : UpdateState k T) (tid vectorIndex : Nat) :
    (s.pushUndo tid vectorIndex).header s.ending s.committedAt = s.header := by
  unfold pushUndo
  split
  · rfl
  · apply DuckTransactionManager.header_modify
    · intro t
      rfl
    · intro t
      rfl

/-- The vector that is updated is the one of the first selected position. -/
theorem UpdateSegment.update_ok {seg seg' : UpdateSegment k T} (one : call.OneVector v)
    (eq : seg.update σ st tx true call = .ok seg') :
    let ups := call.updates (v * standardVectorSize) (call.selected σ)
    ups = [] ∧ seg' = seg ∨ ∃ c', seg' = Function.update seg v (some c') ∧
        ((∃ c, seg v = some c ∧ c.update tx true (k.extract (st v)) ups = .ok c') ∨
          seg v = none ∧ c' = UpdateChain.create tx true
            (k.initialValue (st v) call.memory) ups) := by
  unfold UpdateSegment.update at eq
  split at eq
  · rename_i emp
    cases eq
    refine .inl ⟨?_, rfl⟩
    rw [emp]
    rfl
  · rename_i first rest selected
    have here := one.idAt_div σ (selected ▸ List.mem_cons_self)
    dsimp only at eq
    rw [here, ← selected] at eq
    right
    split at eq
    · rename_i c got
      cases attempt : c.update tx true (k.extract (st v))
          (call.updates (v * standardVectorSize) (call.selected σ)) with
      | error message =>
        rw [attempt] at eq
        cases eq
      | ok c' =>
        rw [attempt] at eq
        cases eq
        exact ⟨c', rfl, .inl ⟨c, got, attempt⟩⟩
    · rename_i hno
      cases eq
      exact ⟨_, rfl, .inr ⟨hno, rfl⟩⟩

variable (conf : s.Conforms st) (act : s.Active tx)
  (hrun : s.endingId ≠ some tx.transactionId) (one : call.OneVector v)
include conf act hrun one

theorem UpdateState.Conforms.update_layers {seg : UpdateSegment k T}
    (upd : s.segment.update σ st tx true call = .ok seg)
    {layers : Nat → List (Overwrite (k.Value T))}
    (lay : LayeredBy s.header s.startedAt layers (s.segment v)) :
    let ups := call.updates (v * standardVectorSize) (call.selected σ)
    (∀ w, w ≠ v → seg w = s.segment w) ∧ ∃ old : Nat → k.Value T, LayeredBy s.header s.startedAt
        (pushed tx.transactionId (ups.map Prod.fst) old layers) (seg v) ∧
      (∀ r, old r = currentOf (k.extract (st v)) (s.segment v) r ∨
        layers r = [] ∧ k.Represents (old r) ((st v).get r)) ∧
      ∀ r, currentOf (k.extract (st v)) (seg v) r =
        (ups.lookup r).getD (currentOf (k.extract (st v)) (s.segment v) r) := by
  have active : s.header.active tx.transactionId tx.startTime := act
  have ho : ∀ e ∈ s.header.ending, e.id ≠ tx.transactionId := by
    intro e ends eq
    have ends : s.ending = some e := ends
    unfold endingId at hrun
    rw [ends] at hrun
    exact hrun (congrArg some eq)
  have fit := one.inside σ
  have ascending := one.ascending σ
  rcases UpdateSegment.update_ok one upd with
    ⟨empty, rfl⟩ | ⟨_, rfl, ⟨c, got, attempt⟩ | ⟨hno, rfl⟩⟩
  · refine ⟨fun w _ => rfl, _, ?_, fun r => .inl rfl, fun r => ?_⟩
    · rw [empty, List.map_nil, pushed_nil]
      exact lay
    · rw [empty]
      rfl
  · refine ⟨fun w o => Function.update_of_ne o .., c.current (k.extract (st v)),
      ?_⟩
    rw [got] at lay ⊢
    rw [Function.update_self]
    obtain ⟨sound, vs⟩ := update_some active fit ascending conf.header
      (fun id time done => conf.apart id time done _ _ active) ho conf.timed
      lay.1 lay.2 attempt
    exact ⟨sound, fun r => .inl rfl, vs⟩
  · refine ⟨fun w o => Function.update_of_ne o .., k.initialValue (st v) call.memory,
      ?_⟩
    rw [hno] at lay ⊢
    rw [Function.update_self]
    obtain ⟨sound, vs⟩ := update_none active fit ascending s.startedAt
      (k.initialValue (st v) call.memory) lay
    refine ⟨sound, fun r => .inr ⟨lay r, ?_⟩, vs⟩
    exact k.represents_initialValue (st v) call.memory r

theorem UpdateState.Conforms.update {seg : UpdateSegment k T}
    (upd : s.segment.update σ st tx true call = .ok seg) :
    (s.pushUpdate σ tx v call (.ok seg)).Conforms st := by
  have active : s.header.active tx.transactionId tx.startTime := act
  obtain ⟨-, -, -, known, uncommitted⟩ := conf.header.active_lt active
  obtain ⟨ls, lay, expl⟩ := conf.explained v
  obtain ⟨ho, old, lay', older, vs⟩ := conf.update_layers act hrun one upd lay
  refine conf.of_vector (s.header_pushUndo _ _) rfl one.2.1 (fun w o => ?_)
    ⟨_, lay', fun r => ?_⟩
  · refine ⟨ho w o, ?_⟩
    funext r
    exact if_neg fun here => o here.1
  · have before : Explains s.header k ((st v).get r) (s.writes v r) (ls r) (old r) := by
      rcases older r with eq | ⟨emp, hrep⟩
      · exact eq ▸ expl r
      · have bottom := expl r
        rw [emp] at bottom ⊢
        exact bottom.of_nil hrep
    let value := if v * standardVectorSize + r ∈ call.ids then
      some (call.valueFor σ (v * standardVectorSize + r)) else none
    have given (x : k.Value T)
        (st : (call.updates (v * standardVectorSize) (call.selected σ)).lookup r = some x) :
        ∃ y, value = some y ∧ k.Represents x y := by
      obtain ⟨isIn, hrep⟩ := one.of_stored σ st
      exact ⟨_, if_pos isIn, hrep⟩
    have hdr
        (out : (call.updates (v * standardVectorSize) (call.selected σ)).lookup r = none)
        (y : Option T) (isValue : value = some y) : k.Drops y := by
      obtain ⟨isIn, eq⟩ := Option.ite_none_right_eq_some.mp isValue
      cases eq
      exact one.of_not_stored σ out isIn
    have record := (expl r).update _ value known uncommitted (lay.succession r) before given hdr
    have stackEq : pushed tx.transactionId
        ((call.updates (v * standardVectorSize) (call.selected σ)).map Prod.fst) old ls r =
          if (call.updates (v * standardVectorSize) (call.selected σ)).lookup r ≠ none ∧
            tx.transactionId ∉ authors (ls r) then
              ⟨tx.transactionId, old r⟩ :: ls r
          else ls r := by
      refine if_congr (and_congr_left fun _ => ?_) rfl rfl
      rw [ne_eq, lookup_eq_none_iff, not_not]
    have writesEq : (s.pushUpdate σ tx v call (.ok seg)).writes v r =
        (value.map (Write.mk tx.transactionId)).toList ++ s.writes v r := by
      refine (if_congr (and_iff_right rfl) rfl rfl).trans ?_
      dsimp only [value]
      split <;> rfl
    rw [stackEq, writesEq]
    exact vs r ▸ record

end

/-! ## Whole runs -/

section

variable {st : Nat → FlatVector T} {s s' : UpdateState k T} {σ : SortByIds}

theorem UpdateState.Conforms.of_new : UpdateState.Conforms st (new : UpdateState k T) := by
  have idle (id start : Nat) : ¬ (new : UpdateState k T).header.active id start := by
    intro ⟨t, isIn, _⟩
    cases isIn
  refine ⟨⟨?_, ?_, ?_, ?_⟩, le_rfl, ⟨?_, ?_, ?_⟩, ?_, ?_, ?_, ?_⟩
  · intro id start act
    exact absurd act (idle id start)
  · intro id time done
    cases done
  · intro e ends
    cases ends
  · intro e time ends
    cases ends
  · intro id start act
    exact absurd act (idle id start)
  · intro id time done
    cases done
  · intro id start began
    cases began
  · intro id start act
    exact absurd act (idle id start)
  · intro id time done
    cases done
  · intro v present
    exact absurd rfl present
  · intro v
    refine ⟨fun _ => [], fun r => rfl, fun r => ⟨?_, ?_, ?_, ?_⟩⟩
    · exact k.represents_extract (st v) r
    · intro a hos
      cases hos
    · intro w isIn
      cases isIn
    · intro w isIn
      cases isIn

theorem UpdateState.Conforms.step {op : UpdateOp k T} (conf : s.Conforms st)
    (inRange : op.InRange s) (run : s.step σ st op = some s') : s'.Conforms st := by
  cases op with
  | start =>
    simp only [UpdateState.step] at run
    split at run
    · rename_i idle started
      cases run
      exact conf.start idle started inRange
    · cases run
  | update tx v call =>
    simp only [UpdateState.step] at run
    split_ifs at run with his
    obtain ⟨act, hrun, -, one⟩ := his
    cases run
    cases hup : s.segment.update σ st tx true call with
    | error message =>
      exact conf.of_vector rfl rfl one.2.1 (fun w _ => ⟨rfl, rfl⟩) (conf.explained v)
    | ok seg => exact conf.update act hrun one hup
  | beginCommit tid =>
    simp only [UpdateState.step] at run
    split at run
    · rename_i idle got
      split_ifs at run
      cases run
      exact conf.beginCommit idle got inRange
    · cases run
  | beginStamping =>
    obtain ⟨e, ends, hwk, run⟩ := exists_of_guard run
    cases run
    exact conf.advance ends (by rw [hwk]; decide) (by decide)
  | commitUpdate v =>
    obtain ⟨e, ends, stamping, run⟩ := exists_of_guard run
    obtain ⟨commitId, drawn, hch⟩ := Option.bind_eq_some_iff.mp run
    refine conf.setVersion ends (.inr ⟨e, ends, rfl, ?_, drawn⟩) ?_ hch
    · rw [stamping]
      decide
    · exact (conf.header.ending_lt ends drawn).2.2.1
  | endCommit =>
    obtain ⟨e, ends, his, run⟩ := exists_of_guard run
    split at run
    · rename_i drawn got
      cases run
      exact conf.endCommit ends his.1 his.2 drawn got
    · cases run
  | failCommit =>
    obtain ⟨e, ends, steady, run⟩ := exists_of_guard run
    cases run
    exact conf.advance ends steady (by decide)
  | beginRollback tid =>
    simp only [UpdateState.step] at run
    split at run
    · rename_i idle got
      cases run
      exact conf.beginRollback idle got
    · cases run
  | revertUpdate v =>
    obtain ⟨e, ends, -, run⟩ := exists_of_guard run
    have large := (conf.header.uncommitted (conf.header.ending_active ends)).1
    refine conf.setVersion ends (.inl rfl) ?_ run
    intro id start act
    have := conf.starts id start act
    omega
  | rollbackUpdate v =>
    obtain ⟨e, ends, hun, run⟩ := exists_of_guard run
    exact conf.rollbackUpdate ends hun run
  | endRollback =>
    obtain ⟨e, ends, his, run⟩ := exists_of_guard run
    obtain ⟨_, got, rfl⟩ := Option.map_eq_some_iff.mp run
    have eq := (DuckTransactionManager.mem_of_find got).2
    refine conf.endRollback ends his.2 ?_ ?_ ?_
    · cases e.commitTime <;> rfl
    · cases e.commitTime <;> rfl
    · rw [← eq]
      cases e.commitTime <;> rfl
  | cleanupUpdate tid v =>
    simp only [UpdateState.step] at run
    split at run
    · cases run
    · rename_i commitId done
      split_ifs at run with old
      exact conf.cleanupUpdate done old run

theorem UpdateState.conforms_of_reachable
    (reached : ((updateMachine σ k st).guarded fun s op => op.InRange s).Reachable s) :
    s.Conforms st := by
  refine reached.invariant ?_ ?_
  · intro s isNew
    rw [show s = .new from isNew]
    exact .of_new
  · intro s s' _ conf run
    obtain ⟨_, inRange, run⟩ := run
    exact conf.step inRange run

end

end AccessPath
