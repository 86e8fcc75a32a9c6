import Mathlib.Data.List.GetD
import AccessPath.Constants
import AccessPath.Library.RunLength
import AccessPath.Types

/-!
# Run-length compression

`rle.cpp`. `RLEState` hands a run to the writer when the value changes or when
the 16-bit counter is full; NULLs extend the run they are in. When
the counter is full the run is written and counting starts again at zero. If
the next value is a different one, the rest of the old run, which has length
zero, is written too, and a scan takes one row from it.
-/

namespace AccessPath

open Library List

variable {T : Type}

/-! ## Compression -/

/-- `NumericLimits<rle_count_t>::Maximum()`. -/
def maxRunLength : Nat := 65535

/-- `RLEConstants::RLE_HEADER_SIZE`. -/
def rleHeaderSize : Nat := 8

/-- `RLECompressState::MaxRLECount` for values of the given size. -/
def maxRLECount (size : Nat) : Nat := (blockSize - rleHeaderSize) / (size + 2)

structure RLEState (T : Type) where
  lastValue : T
  lastSeenCount : Nat
  allNull : Bool

/-- Before the first value, `nullValue` stands in for the last one. -/
def RLEState.new (nullValue : T) : RLEState T := ⟨nullValue, 0, true⟩

/-- `Flush`: the run that is handed to the writer. -/
def RLEState.flush (state : RLEState T) : Run T := ⟨state.lastValue, state.lastSeenCount⟩

/-- A counter of type `rle_count_t` goes up. -/
def RLEState.countUp (state : RLEState T) : RLEState T :=
  { state with lastSeenCount := (state.lastSeenCount + 1) % (maxRunLength + 1) }

/-- The part of `Update` that looks at the value. -/
def RLEState.look [DecidableEq T] (state : RLEState T) : Option T → RLEState T × List (Run T)
  | none => (state.countUp, [])
  | some value =>
    if state.allNull then
      ({ state.countUp with lastValue := value, allNull := false }, [])
    else if state.lastValue = value then (state.countUp, [])
    else ({ state with lastValue := value, lastSeenCount := 1 }, [state.flush])

/-- `Update`, with the runs that it flushes. -/
def RLEState.update [DecidableEq T] (state : RLEState T) (value : Option T) :
    RLEState T × List (Run T) :=
  let (state, flushed) := state.look value
  if state.lastSeenCount = maxRunLength then
    ({ state with lastSeenCount := 0 }, flushed ++ [state.flush])
  else (state, flushed)

/-- A segment: the runs that have been written and the number of rows. -/
structure RLESegment (T : Type) where
  entries : List (Run T)
  count : Nat

structure RLECompressState (T : Type) where
  state : RLEState T
  currentSegment : RLESegment T
  /-- The segments that the checkpoint has kept. -/
  flushed : List (RLESegment T)

def RLECompressState.new (nullValue : T) : RLECompressState T := ⟨.new nullValue, ⟨[], 0⟩, []⟩

/-- `FlushSegment`; the checkpoint ignores a segment without rows. -/
def RLECompressState.flushSegment (s : RLECompressState T) : RLECompressState T := { s with
    currentSegment := ⟨[], 0⟩
    flushed := if s.currentSegment.count = 0 then s.flushed else s.flushed ++ [s.currentSegment] }

/-- `WriteValue` into a segment that has room for `max` runs. -/
def RLECompressState.writeValue (max : Nat) (s : RLECompressState T) (run : Run T) :
    RLECompressState T :=
  let s := { s with
    currentSegment := ⟨s.currentSegment.entries ++ [run], s.currentSegment.count + run.count⟩ }
  if s.currentSegment.entries.length = max then s.flushSegment else s

/-- `Append` of one vector. -/
def RLECompressState.append [DecidableEq T] (max : Nat) (s : RLECompressState T)
    (vector : List (Option T)) : RLECompressState T :=
  vector.foldl (fun s value =>
    let (state, runs) := s.state.update value
    runs.foldl (writeValue max) { s with state := state }) s

def RLECompressState.finalize (max : Nat) (s : RLECompressState T) : RLECompressState T :=
  (s.writeValue max s.state.flush).flushSegment

/-- The segments for a column that is delivered in the given vectors. -/
def rleCompress [DecidableEq T] (nullValue : T) (max : Nat) (vectors : List (List (Option T))) :
    List (RLESegment T) :=
  ((vectors.foldl (·.append max) (RLECompressState.new nullValue)).finalize max).flushed

/-! ## Scans -/

structure RLEScanState where
  entryPos : Nat
  positionInEntry : Nat

/-- The run at a position. Beyond the last one there is memory that nobody has
written to. -/
def RLESegment.entry (segment : RLESegment T) (beyond : Nat → Run T) (i : Nat) : Run T :=
  segment.entries.getD i (beyond i)

/-- `ForwardToNextRun` if the run is exhausted. -/
def RLEScanState.forward (segment : RLESegment T) (beyond : Nat → Run T) (state : RLEScanState) :
    RLEScanState :=
  if (segment.entry beyond state.entryPos).count ≤ state.positionInEntry then
    ⟨state.entryPos + 1, 0⟩
  else state

/-- One row of a scan, or of `Skip`. -/
def RLEScanState.next (segment : RLESegment T) (beyond : Nat → Run T) (state : RLEScanState) :
    RLEScanState :=
  RLEScanState.forward segment beyond { state with positionInEntry := state.positionInEntry + 1 }

/-- The loop of `RLEScanPartialInternal`. -/
def RLESegment.scanLoop (segment : RLESegment T) (beyond : Nat → Run T) :
    Nat → RLEScanState → List T × RLEScanState
  | 0, state => ([], state)
  | n + 1, state =>
    let (values, last) := scanLoop segment beyond n (state.next segment beyond)
    ((segment.entry beyond state.entryPos).value :: values, last)

/-- `CanEmitConstantVector`; the lengths are of type `idx_t`. -/
def canEmitConstantVector (entireVector : Bool) (position runLength scanCount : Nat) : Bool :=
  entireVector && scanCount = standardVectorSize &&
    scanCount ≤ (runLength + 2 ^ 64 - position) % 2 ^ 64

/-- `RLEScanPartialInternal`: `RLEScan` if an entire vector is asked for and
`RLEScanPartial` otherwise. -/
def RLESegment.scanPartial (segment : RLESegment T) (beyond : Nat → Run T) (entireVector : Bool)
    (scanCount : Nat) (state : RLEScanState) : List T × RLEScanState :=
  let run := segment.entry beyond state.entryPos
  if canEmitConstantVector entireVector state.positionInEntry run.count scanCount then
    (replicate scanCount run.value, RLEScanState.forward segment beyond
        { state with positionInEntry := state.positionInEntry + scanCount })
  else segment.scanLoop beyond scanCount state

/-- The rows that a sequence of scans returns, each of which asks for an entire vector
or not and for a number of rows. -/
def RLESegment.scanFrom (segment : RLESegment T) (beyond : Nat → Run T) :
    List (Bool × Nat) → RLEScanState → List T
  | [], _ => []
  | (entireVector, scanCount) :: calls, state =>
    let (values, state) := segment.scanPartial beyond entireVector scanCount state
    values ++ segment.scanFrom beyond calls state

def RLESegment.scan (segment : RLESegment T) (beyond : Nat → Run T) (calls : List (Bool × Nat)) :
    List T :=
  segment.scanFrom beyond calls ⟨0, 0⟩

/-- `RLEFetchRow`. -/
def RLESegment.fetchRow (segment : RLESegment T) (beyond : Nat → Run T) (row : Nat) : T :=
  (segment.entry beyond (Nat.iterate (RLEScanState.next segment beyond) row ⟨0, 0⟩).entryPos).value

/-- The vector that a scan writes to. -/
structure RLEResult (T : Type) where
  isConstant : Bool
  data : Nat → T

def RLEResult.value (result : RLEResult T) (i : Nat) : T :=
  result.data (if result.isConstant then 0 else i)

/-- `RLEScanPartialInternal`, with what it leaves in the vector. -/
def RLESegment.scanInto (segment : RLESegment T) (beyond : Nat → Run T) (entireVector : Bool)
    (scanCount : Nat) (result : RLEResult T) (resultOffset : Nat) (state : RLEScanState) :
    RLEResult T × RLEScanState :=
  let run := segment.entry beyond state.entryPos
  let (values, next) := segment.scanPartial beyond entireVector scanCount state
  if canEmitConstantVector entireVector state.positionInEntry run.count scanCount then
    (⟨true, Function.update result.data 0 run.value⟩, next)
  else
    (⟨false, fun i => if resultOffset ≤ i then values.getD (i - resultOffset) (result.data i)
      else result.data i⟩, next)

/-- What a reader of a segment calls: `RLESkip`, or a scan, which is `RLEScan` with offset zero if
it asks for an entire vector and `RLEScanPartial` if not. -/
inductive RLECall (T : Type) where
  | skip (skipCount : Nat)
  | scan (entireVector : Bool) (scanCount : Nat) (result : RLEResult T) (resultOffset : Nat)

def RLECall.rows : RLECall T → Nat
  | skip n | scan _ n _ _ => n

/-- The rows that a call returns, read from the vector. -/
def RLESegment.call (segment : RLESegment T) (beyond : Nat → Run T) (state : RLEScanState) :
    RLECall T → List T × RLEScanState
  | .skip skipCount => ([], Nat.iterate (RLEScanState.next segment beyond) skipCount state)
  | .scan entireVector scanCount result resultOffset =>
    let (result, state) := segment.scanInto beyond entireVector scanCount result resultOffset state
    ((List.range scanCount).map fun i => result.value (resultOffset + i), state)

def RLESegment.calls (segment : RLESegment T) (beyond : Nat → Run T) :
    List (RLECall T) → RLEScanState → List T
  | [], _ => []
  | call :: calls, state =>
    let (values, state) := segment.call beyond state call
    values ++ segment.calls beyond calls state

/-- The rows that calls should return, if `rows` are left. -/
def RLECall.unskipped : List (RLECall T) → List T → List T
  | [], _ => []
  | skip n :: calls, rows => unskipped calls (rows.drop n)
  | scan _ n _ _ :: calls, rows => rows.take n ++ unskipped calls (rows.drop n)

/-- All segments of a column are scanned, each by its own sequence of calls. -/
def rleScan (beyond : RLESegment T → Nat → Run T) (segments : List (RLESegment T))
    (calls : List (List (Bool × Nat))) : List T :=
  (List.zipWith (fun segment calls => segment.scan (beyond segment) calls) segments calls).flatten

/-! ## What a scan reads -/

section

variable (segment : RLESegment T) (beyond : Nat → Run T)

/-- A position at which a scan can be. -/
def RLEScanState.Valid (state : RLEScanState) : Prop :=
  state.positionInEntry < max (segment.entry beyond state.entryPos).count 1

/-- The rows that are left to be read. -/
def RLEScanState.remaining (state : RLEScanState) : List T :=
  (expanded (segment.entries.drop state.entryPos)).drop state.positionInEntry

variable {segment beyond} {st : RLEScanState}

theorem RLEScanState.valid_next : (st.next segment beyond).Valid segment beyond := by
  unfold RLEScanState.next RLEScanState.forward
  split_ifs with more
  · exact Nat.lt_of_lt_of_le Nat.zero_lt_one (Nat.le_max_right _ _)
  · exact Nat.lt_of_lt_of_le (Nat.lt_of_not_le more) (Nat.le_max_left _ _)

theorem RLEScanState.Valid.remaining_eq (valid : st.Valid segment beyond)
    (lt : st.entryPos < segment.entries.length) :
    st.remaining segment = (segment.entry beyond st.entryPos).value ::
      (st.next segment beyond).remaining segment := by
  have here : segment.entry beyond st.entryPos = segment.entries[st.entryPos] :=
    getD_eq_getElem _ _ lt
  unfold RLEScanState.Valid at valid
  unfold RLEScanState.remaining RLEScanState.next RLEScanState.forward
  rw [drop_eq_getElem_cons lt, rows_cons, ← here]
  set run := segment.entry beyond st.entryPos
  have split : (replicate (max run.count 1) run.value ++
      expanded (segment.entries.drop (st.entryPos + 1))).drop st.positionInEntry =
        run.value :: (replicate (max run.count 1 - (st.positionInEntry + 1)) run.value ++
          expanded (segment.entries.drop (st.entryPos + 1))) := by
    rw [drop_append_of_le_length (by rw [length_replicate]; omega), drop_replicate,
      show max run.count 1 - st.positionInEntry =
        max run.count 1 - (st.positionInEntry + 1) + 1 by omega, replicate_succ,
      cons_append]
  rw [split]
  congr 1
  split_ifs with exhausted
  · dsimp only at exhausted ⊢
    rw [show max run.count 1 - (st.positionInEntry + 1) = 0 by omega, replicate_zero,
      nil_append, drop_zero]
  · dsimp only
    rw [drop_eq_getElem_cons lt, rows_cons, ← here,
      drop_append_of_le_length (by rw [length_replicate]; omega), drop_replicate]

theorem RLEScanState.lt_of_remaining (ne : 0 < (st.remaining segment).length) :
    st.entryPos < segment.entries.length := by
  by_contra outside
  unfold RLEScanState.remaining at ne
  rw [drop_eq_nil_of_le (Nat.le_of_not_lt outside)] at ne
  simp [expanded] at ne

namespace RLESegment

theorem scanLoop_eq (valid : st.Valid segment beyond) {n : Nat}
    (fits : n ≤ (st.remaining segment).length) :
    (segment.scanLoop beyond n st).1 = (st.remaining segment).take n ∧
      (segment.scanLoop beyond n st).2.remaining segment = (st.remaining segment).drop n := by
  induction n generalizing st with
  | zero => exact ⟨rfl, rfl⟩
  | succ n ih =>
    have step := valid.remaining_eq (RLEScanState.lt_of_remaining (Nat.zero_lt_of_lt fits))
    rw [step, length_cons] at fits
    obtain ⟨out, hl⟩ := ih RLEScanState.valid_next (Nat.le_of_succ_le_succ fits)
    rw [step, take_succ_cons, drop_succ_cons, ← out, ← hl]
    exact ⟨rfl, rfl⟩

theorem scanLoop_add (m n : Nat) (st : RLEScanState) :
    (segment.scanLoop beyond (m + n) st).1 = (segment.scanLoop beyond m st).1 ++
        (segment.scanLoop beyond n (segment.scanLoop beyond m st).2).1 := by
  induction m generalizing st with
  | zero =>
    rw [Nat.zero_add]
    rfl
  | succ m ih =>
    rw [Nat.succ_add]
    exact congrArg _ (ih (st.next segment beyond))

theorem valid_scanLoop (valid : st.Valid segment beyond) (n : Nat) :
    (segment.scanLoop beyond n st).2.Valid segment beyond := by
  induction n generalizing st with
  | zero => exact valid
  | succ n ih => exact ih RLEScanState.valid_next

theorem scanLoop_of_run {n : Nat}
    (long : st.positionInEntry + (n + 1) ≤ (segment.entry beyond st.entryPos).count) :
    segment.scanLoop beyond (n + 1) st =
      (replicate (n + 1) (segment.entry beyond st.entryPos).value,
        RLEScanState.forward segment beyond
          { st with positionInEntry := st.positionInEntry + (n + 1) }) := by
  induction n generalizing st with
  | zero => rfl
  | succ n ih =>
    have stays : st.next segment beyond =
        { st with positionInEntry := st.positionInEntry + 1 } := by
      apply if_neg
      dsimp only
      omega
    have shorter : (st.next segment beyond).positionInEntry + (n + 1) ≤
        (segment.entry beyond (st.next segment beyond).entryPos).count := by
      rw [stays]
      dsimp only
      omega
    have xs := ih shorter
    unfold scanLoop
    rw [xs, stays]
    rw [show st.positionInEntry + 1 + (n + 1) = st.positionInEntry + (n + 1 + 1) by omega]
    rfl

/-- A constant vector has the rows that the loop would have read. -/
theorem scanPartial_eq (valid : st.Valid segment beyond) (entireVector : Bool)
    (k : Nat) : segment.scanPartial beyond entireVector k st = segment.scanLoop beyond k st := by
  unfold scanPartial
  dsimp only
  split_ifs with constant
  · unfold RLEScanState.Valid at valid
    unfold canEmitConstantVector at constant
    simp only [Bool.and_eq_true, decide_eq_true_eq] at constant
    obtain ⟨⟨-, hwh⟩, long⟩ := constant
    obtain ⟨n, rfl⟩ : ∃ n, k = n + 1 :=
      Nat.exists_eq_succ_of_ne_zero (hwh ▸ standardVectorSize_pos.ne')
    rw [show (segment.entry beyond st.entryPos).count + 2 ^ 64 - st.positionInEntry =
      (segment.entry beyond st.entryPos).count - st.positionInEntry + 2 ^ 64 by omega,
      Nat.add_mod_right] at long
    have := Nat.mod_le ((segment.entry beyond st.entryPos).count - st.positionInEntry) (2 ^ 64)
    rw [scanLoop_of_run (by omega)]
  · rfl

theorem scanFrom_eq (valid : st.Valid segment beyond) (calls : List (Bool × Nat)) :
    segment.scanFrom beyond calls st = (segment.scanLoop beyond (calls.map Prod.snd).sum st).1 := by
  induction calls generalizing st with
  | nil => rfl
  | cons call calls ih =>
    rw [map_cons, sum_cons, scanLoop_add, scanFrom, scanPartial_eq valid]
    dsimp only
    rw [ih (valid_scanLoop valid _)]

/-- However a segment is scanned, a run of length zero counts as one row. -/
theorem scan_eq {calls : List (Bool × Nat)}
    (fits : (calls.map Prod.snd).sum ≤ total segment.entries) :
    segment.scan beyond calls = (expanded segment.entries).take (calls.map Prod.snd).sum := by
  have hv : RLEScanState.Valid segment beyond ⟨0, 0⟩ :=
    Nat.lt_of_lt_of_le Nat.zero_lt_one (Nat.le_max_right _ _)
  have all : (RLEScanState.mk 0 0).remaining segment = expanded segment.entries := rfl
  unfold scan
  rw [scanFrom_eq hv, (scanLoop_eq hv ?_).1, all]
  rw [all]
  exact fits.trans (total_le_length_expanded _)

theorem fetchRow_eq {row n : Nat} (lt : row < n) :
    (segment.scanLoop beyond n ⟨0, 0⟩).1[row]? = some (segment.fetchRow beyond row) := by
  unfold fetchRow
  generalize RLEScanState.mk 0 0 = st
  induction n generalizing row st with
  | zero => cases lt
  | succ n ih =>
    cases row with
    | zero => rfl
    | succ row => exact ih (Nat.lt_of_succ_lt_succ lt) _

theorem length_scanLoop (n : Nat) (st : RLEScanState) :
    (segment.scanLoop beyond n st).1.length = n := by
  induction n generalizing st with
  | zero => rfl
  | succ n ih => exact congrArg (· + 1) (ih _)

theorem scanLoop_snd (n : Nat) (st : RLEScanState) : (segment.scanLoop beyond n st).2 =
    Nat.iterate (RLEScanState.next segment beyond) n st := by
  induction n generalizing st with
  | zero => rfl
  | succ n ih => exact ih _

/-- Whether or not the vector is constant, it has the rows that the loop reads. -/
theorem scanInto_eq (hv : st.Valid segment beyond) (entireVector : Bool) (n : Nat)
    (r : RLEResult T) (ro : Nat) :
    let (vec, next) := segment.scanInto beyond entireVector n r ro st
    ((List.range n).map fun i => vec.value (ro + i), next) = segment.scanLoop beyond n st := by
  have same := scanPartial_eq hv entireVector n
  have len := @length_scanLoop _ segment beyond n st
  unfold scanInto
  dsimp only
  rw [same]
  split_ifs with constant
  · rw [scanPartial, if_pos constant] at same
    rw [← same]
    simp [RLEResult.value]
  · refine Prod.ext (ext_getElem? fun i => ?_) rfl
    rcases Nat.lt_or_ge i n with lt | ge
    · simp [RLEResult.value, lt, len]
    · simp [ge, len]

theorem calls_eq (hv : st.Valid segment beyond) (calls : List (RLECall T))
    (fits : (calls.map RLECall.rows).sum ≤ (st.remaining segment).length) :
    segment.calls beyond calls st = RLECall.unskipped calls (st.remaining segment) := by
  induction calls generalizing st with
  | nil => rfl
  | cons call calls ih =>
    rw [map_cons, sum_cons] at fits
    have here : call.rows ≤ (st.remaining segment).length := by omega
    obtain ⟨out, next⟩ := scanLoop_eq hv here
    have xs := ih (valid_scanLoop hv call.rows) (by rw [next, length_drop]; omega)
    rw [next] at xs
    cases call with
    | skip n =>
      rw [scanLoop_snd] at xs
      exact xs
    | scan entireVector n r ro =>
      have returned := scanInto_eq hv entireVector n r ro
      change segment.call beyond st (.scan entireVector n r ro) = _ at returned
      rw [RLESegment.calls, returned]
      exact congrArg₂ (· ++ ·) out xs

/-- However the rows from a position on are split into skips and scans, and whether or not vectors
are constant, the rows returned are the decoded ones without those skipped. -/
theorem calls_unskipped (segment : RLESegment T) (beyond : Nat → Run T)
    (positive : ∀ run ∈ segment.entries, 0 < run.count) (start : Nat) (calls : List (RLECall T)) :
    let decoded := segment.entries.flatMap fun run => replicate run.count run.value
    (start + (calls.map RLECall.rows).sum ≤ decoded.length →
      segment.calls beyond calls (Nat.iterate (RLEScanState.next segment beyond) start ⟨0, 0⟩) =
        RLECall.unskipped calls (decoded.drop start)) ∧
    ∀ i < decoded.length, decoded[i]? = some (segment.fetchRow beyond i) := by
  have decoded : (segment.entries.flatMap fun run => replicate run.count run.value) =
      (RLEScanState.mk 0 0).remaining segment := by
    refine flatMap_congr fun run isIn => ?_
    rw [Nat.max_eq_left (positive run isIn)]
  have valid : RLEScanState.Valid segment beyond ⟨0, 0⟩ :=
    Nat.lt_of_lt_of_le Nat.zero_lt_one (Nat.le_max_right _ _)
  rw [decoded]
  refine ⟨fun fits => ?_, fun i lt => ?_⟩
  · have next := (scanLoop_eq valid (Nat.le_of_add_right_le fits)).2
    rw [← next, ← scanLoop_snd]
    refine calls_eq (valid_scanLoop valid start) calls ?_
    rw [next, length_drop]
    omega
  · rw [← fetchRow_eq lt, (scanLoop_eq valid le_rfl).1, take_length]

/-- One row is skipped, and the next two are read from two runs. -/
theorem calls_unskipped_two : RLESegment.calls ⟨[⟨7, 2⟩, ⟨9, 1⟩], 3⟩ (fun _ => ⟨0, 0⟩)
    [.skip 1, .scan false 2 ⟨false, fun _ => 0⟩ 5] ⟨0, 0⟩ = [7, 9] :=
  (calls_unskipped ⟨[⟨7, 2⟩, ⟨9, 1⟩], 3⟩ (fun _ => ⟨0, 0⟩) (by decide) 0 _).1 (by decide)

end RLESegment

end

/-! ## What is written -/

section

variable [DecidableEq T]

/-- The runs that are written from a state on, the last one by `Finalize`. -/
def RLEState.written (state : RLEState T) : List (Option T) → List (Run T)
  | [] => [state.flush]
  | value :: values => (state.update value).2 ++ (state.update value).1.written values

theorem RLEState.written_ne_nil (st : RLEState T) (vs : List (Option T)) : st.written vs ≠ [] := by
  induction vs generalizing st with
  | nil => exact cons_ne_nil _ _
  | cons v vs ih => exact append_ne_nil_of_right_ne_nil _ (ih _)

/-- The lengths of the runs of equal values, where a NULL belongs to the run that it
comes after, or to the first one. `last` and `length` are the value and the
length of the run so far. -/
def runLengths (last : Option T) (length : Nat) : List (Option T) → List Nat
  | [] => [length]
  | none :: values => runLengths last (length + 1) values
  | some value :: values =>
    if last.all (· = value) then runLengths (some value) (length + 1) values
    else length :: runLengths (some value) 1 values

/-- The lengths of what is written for a run. -/
def writtenLengths (length : Nat) : List Nat :=
  replicate (length / maxRunLength) maxRunLength ++ [length % maxRunLength]

/-- The state within a run of the given value and length. -/
structure RLEState.Within (state : RLEState T) (last : Option T) (length : Nat) : Prop where
  count : state.lastSeenCount = length % maxRunLength
  allNull : state.allNull = last.isNone
  lastValue : ∀ v ∈ last, state.lastValue = v

omit [DecidableEq T] in
theorem RLEState.within_new (nullValue : T) : (RLEState.new nullValue).Within none 0 :=
  ⟨rfl, rfl, fun v got => by cases got⟩

section

variable {st : RLEState T} {last : Option T} {len : Nat} (fits : st.Within last len)
include fits

omit [DecidableEq T] in
theorem RLEState.Within.countUp_count : st.countUp.lastSeenCount = len % maxRunLength + 1 := by
  have := Nat.mod_lt len (show 0 < maxRunLength by decide)
  unfold RLEState.countUp
  rw [fits.count, Nat.mod_eq_of_lt (by omega)]

theorem RLEState.Within.look {x : Option T} (eq : ∀ v ∈ x, last.all (· = v) = true) :
    ∃ st', st.look x = (st', []) ∧ st'.lastSeenCount = len % maxRunLength + 1 ∧
      st'.allNull = (x.or last).isNone ∧ ∀ v ∈ x.or last, st'.lastValue = v := by
  cases x with
  | none => exact ⟨_, rfl, fits.countUp_count, fits.allNull, fits.lastValue⟩
  | some v =>
    unfold RLEState.look
    dsimp only
    rw [fits.allNull]
    cases last with
    | none =>
      refine ⟨_, rfl, fits.countUp_count, rfl, fun u got => ?_⟩
      cases got
      rfl
    | some u =>
      have heq : u = v := by simpa using eq v rfl
      have isLast : st.lastValue = v := heq ▸ fits.lastValue u rfl
      rw [if_neg (by simp), if_pos isLast]
      refine ⟨_, rfl, fits.countUp_count, fits.allNull, fun w got => ?_⟩
      cases got
      exact isLast

/-- The run goes on, and is written when the counter is full. -/
theorem RLEState.Within.extend {x : Option T} (eq : ∀ v ∈ x, last.all (· = v) = true) :
    ∃ st', st'.Within (x.or last) (len + 1) ∧
      st.update x = (st', if (len + 1) % maxRunLength = 0 then
        [⟨st'.lastValue, maxRunLength⟩] else []) := by
  obtain ⟨st', look, n, allNull, lastValue⟩ := fits.look eq
  have less := Nat.mod_lt len (show 0 < maxRunLength by decide)
  unfold RLEState.update
  rw [look]
  dsimp only
  by_cases full : len % maxRunLength + 1 = maxRunLength
  · have wraps : (len + 1) % maxRunLength = 0 := by
      rw [Nat.add_mod, Nat.mod_eq_of_lt (show 1 < maxRunLength by decide), full, Nat.mod_self]
    rw [if_pos (n.trans full)]
    refine ⟨{ st' with lastSeenCount := 0 }, ⟨wraps.symm, allNull, lastValue⟩, ?_⟩
    rw [if_pos wraps, RLEState.flush, n, full]
    rfl
  · have grows : (len + 1) % maxRunLength = len % maxRunLength + 1 := by
      rw [Nat.add_mod, Nat.mod_eq_of_lt (show 1 < maxRunLength by decide), Nat.mod_eq_of_lt]
      omega
    rw [n, if_neg full]
    refine ⟨st', ⟨n.trans grows.symm, allNull, lastValue⟩, ?_⟩
    rw [if_neg (by omega)]

theorem RLEState.Within.change {u v : T} (isLast : last = some u) (ne : u ≠ v) :
    ∃ st', st'.Within (some v) 1 ∧ st.update (some v) = (st', [⟨u, len % maxRunLength⟩]) := by
  subst isLast
  have old := fits.lastValue u rfl
  have look : st.look (some v) =
      ({ st with lastValue := v, lastSeenCount := 1 }, [⟨u, len % maxRunLength⟩]) := by
    unfold RLEState.look
    dsimp only
    rw [fits.allNull, if_neg (by simp), if_neg (old ▸ ne), RLEState.flush, old, fits.count]
  refine ⟨{ st with lastValue := v, lastSeenCount := 1 }, ⟨rfl, fits.allNull, ?_⟩, ?_⟩
  · intro w got
    cases got
    rfl
  · unfold RLEState.update
    rw [look]
    exact if_neg (show ¬ 1 = maxRunLength by decide)

omit [DecidableEq T] fits in
theorem run_or_change [DecidableEq T] (last x : Option T) :
    (∀ v ∈ x, last.all (· = v) = true) ∨ ∃ u v, last = some u ∧ x = some v ∧ u ≠ v := by
  cases x with
  | none => exact .inl fun v got => by cases got
  | some v =>
    cases last with
    | none => exact .inl fun v got => rfl
    | some u =>
      by_cases same : u = v
      · left
        intro w got
        cases got
        simpa using same
      · exact .inr ⟨u, v, rfl, rfl, same⟩

end

section

variable {st : RLEState T} {last : Option T} {len : Nat} (fits : st.Within last len)
include fits

/-- The lengths of what is written follow from the lengths of the runs. -/
theorem RLEState.Within.written_lengths (vs : List (Option T)) :
    replicate (len / maxRunLength) maxRunLength ++ (st.written vs).map Run.count =
      (runLengths last len vs).flatMap writtenLengths := by
  induction vs generalizing st last len with
  | nil =>
    rw [RLEState.written, map_singleton, RLEState.flush, fits.count]
    exact (append_nil _).symm
  | cons x vs ih =>
    have extend (eq : ∀ v ∈ x, last.all (· = v) = true) :
        replicate (len / maxRunLength) maxRunLength ++ (st.written (x :: vs)).map Run.count =
            (runLengths (x.or last) (len + 1) vs).flatMap writtenLengths := by
      obtain ⟨st', within', hup⟩ := fits.extend eq
      rw [← ih within', RLEState.written, hup]
      split_ifs with wraps
      · have quotient : (len + 1) / maxRunLength = len / maxRunLength + 1 := by
          rw [Nat.succ_div, if_pos (Nat.dvd_of_mod_eq_zero wraps)]
        rw [quotient, replicate_succ', map_append, append_assoc]
        rfl
      · have quotient : (len + 1) / maxRunLength = len / maxRunLength := by
          rw [Nat.succ_div, if_neg fun dvd => wraps (Nat.mod_eq_zero_of_dvd dvd)]
          rfl
        rw [quotient]
        rfl
    rcases run_or_change last x with eq | ⟨_, v, rfl, rfl, ne⟩
    · rw [extend eq]
      cases x with
      | none => rfl
      | some v => rw [runLengths, if_pos (eq v rfl), Option.some_or]
    · obtain ⟨_, within', hup⟩ := fits.change rfl ne
      rw [runLengths, if_neg (by simpa using ne), RLEState.written, hup,
        flatMap_cons, ← ih within', writtenLengths, append_assoc]
      rfl

/-- The first run that is written is not empty if the state is within a run. -/
theorem RLEState.Within.head_written (filled : 0 < len % maxRunLength)
    (vs : List (Option T)) : ∀ run ∈ (st.written vs).head?, 0 < run.count := by
  induction vs generalizing st last len with
  | nil =>
    intro run got
    cases got
    rw [RLEState.flush, fits.count]
    exact filled
  | cons x vs ih =>
    rw [RLEState.written]
    rcases run_or_change last x with eq | ⟨_, _, rfl, rfl, ne⟩
    · obtain ⟨st', within', hup⟩ := fits.extend eq
      rw [hup]
      split
      · intro run got
        cases got
        exact show 0 < maxRunLength by decide
      · exact ih within' (by omega)
    · obtain ⟨_, _, hup⟩ := fits.change rfl ne
      rw [hup]
      intro run got
      cases got
      exact filled

/-- The runs stand for the values: those that are counted already, `pend`, and
those to come. -/
theorem RLEState.Within.covers {pend : List (Option T)} (counted : pend.length = len % maxRunLength)
    (eq : ∀ o ∈ pend, ∀ v ∈ o, last = some v) (vs : List (Option T)) :
    Covers (st.written vs) (pend ++ vs) := by
  induction vs generalizing st last len pend with
  | nil =>
    rw [RLEState.written]
    refine Covers.cons ?_ ?_ ?_ rfl
    · exact counted.trans fits.count.symm
    · exact fun o got v isIn => fits.lastValue v (eq o got v isIn)
    · intro _ next got
      cases got
  | cons x vs ih =>
    rw [RLEState.written]
    rcases run_or_change last x with goesOn | ⟨_, v, rfl, rfl, ne⟩
    · obtain ⟨st', within', hup⟩ := fits.extend goesOn
      have known : ∀ o ∈ pend ++ [x], ∀ v ∈ o, x.or last = some v := by
        intro o got v isIn
        rcases mem_append.mp got with old | now
        · have isLast := eq o old v isIn
          cases x with
          | none => exact isLast
          | some w =>
            have heq := goesOn w rfl
            rw [isLast] at heq
            have heq : v = w := by simpa using heq
            rw [heq, Option.some_or]
        · rw [mem_singleton.mp now] at isIn
          rw [show x = some v from isIn]
          rfl
      have grown : (pend ++ [x]).length = len % maxRunLength + 1 := by
        rw [length_append, counted]
        rfl
      rw [hup, append_cons]
      split_ifs with wraps
      · refine Covers.cons ?_ ?_ ?_ (@ih _ _ _ within' [] ?_ ?_)
        · dsimp only
          rw [grown]
          unfold maxRunLength at *
          omega
        · exact fun o got v isIn => within'.lastValue v (known o got v isIn)
        · intro emp
          cases emp
        · exact wraps.symm
        · intro o got
          cases got
      · refine ih within' ?_ known
        rw [grown]
        unfold maxRunLength at *
        omega
    · obtain ⟨_, within', hup⟩ := fits.change rfl ne
      rw [hup]
      refine Covers.cons counted ?_ ?_ (@ih _ _ _ within' [some v] rfl ?_)
      · exact fun o got w isIn => Option.some.inj (eq o got w isIn)
      · intro _ next got
        exact ⟨within'.head_written (by decide) vs next got, v, rfl, ne⟩
      · intro o got w isIn
        rw [mem_singleton.mp got] at isIn
        exact isIn

end

end

/-! ## Segments -/

/-- The runs in the segments that they are written to. -/
def segmentsOf (max : Nat) (current : List (Run T)) : List (Run T) → List (List (Run T))
  | [] => [current]
  | run :: runs =>
    if (current ++ [run]).length = max then (current ++ [run]) :: segmentsOf max [] runs
    else segmentsOf max (current ++ [run]) runs

variable (max : Nat)

theorem flatten_segmentsOf (cur runs : List (Run T)) :
    (segmentsOf max cur runs).flatten = cur ++ runs := by
  induction runs generalizing cur with
  | nil => simp [segmentsOf]
  | cons run runs ih =>
    unfold segmentsOf
    split
    · rw [flatten_cons, ih, append_assoc]
      rfl
    · rw [ih, append_assoc]
      rfl

/-- The segments that the checkpoint keeps. -/
def keptSegments (parts : List (List (Run T))) : List (RLESegment T) :=
  (parts.filter fun runs => total runs ≠ 0).map fun runs => ⟨runs, total runs⟩

variable (runs : List (Run T))

theorem keptSegments_cons (ps : List (List (Run T))) : keptSegments (runs :: ps) =
      (if total runs = 0 then [] else [⟨runs, total runs⟩]) ++ keptSegments ps := by
  unfold keptSegments
  rw [filter_cons]
  by_cases empty : total runs = 0
  · rw [if_pos empty, if_neg (by simpa using empty), nil_append]
  · rw [if_neg empty, if_pos (by simpa using empty)]
    rfl

/-- The current segment with one more run. -/
def RLECompressState.push (s : RLECompressState T) (run : Run T) : RLECompressState T := { s with
    currentSegment := ⟨s.currentSegment.entries ++ [run], s.currentSegment.count + run.count⟩ }

variable (s : RLECompressState T)

theorem RLECompressState.writeValue_eq (run : Run T) : s.writeValue max run =
      if (s.currentSegment.entries ++ [run]).length = max then (s.push run).flushSegment
      else s.push run := rfl

theorem RLECompressState.flushed_foldl
    (eq : s.currentSegment.count = total s.currentSegment.entries) :
    (runs.foldl (writeValue max) s).flushSegment.flushed =
      s.flushed ++ keptSegments (segmentsOf max s.currentSegment.entries runs) := by
  have flush (s : RLECompressState T)
      (eq : s.currentSegment.count = total s.currentSegment.entries)
      (ps : List (List (Run T))) :
      s.flushSegment.flushed ++ keptSegments ps =
        s.flushed ++ keptSegments (s.currentSegment.entries :: ps) := by
    obtain ⟨_, ⟨entries, n⟩, _⟩ := s
    have eq : n = total entries := eq
    rw [keptSegments_cons, RLECompressState.flushSegment, eq]
    split
    · rfl
    · rw [append_assoc]
  induction runs generalizing s with
  | nil => simpa [segmentsOf, keptSegments] using flush s eq []
  | cons run runs ih =>
    rw [foldl_cons, segmentsOf]
    have grown : s.currentSegment.count + run.count =
        total (s.currentSegment.entries ++ [run]) := by
      rw [eq, total_append]
      rfl
    rw [RLECompressState.writeValue_eq]
    split
    · rw [ih _ rfl]
      exact flush (s.push run) grown _
    · rw [ih _ grown]
      rfl

theorem RLECompressState.foldl_withState (st : RLEState T) :
    runs.foldl (writeValue max) { s with state := st } =
      { runs.foldl (writeValue max) s with state := st } := by
  induction runs generalizing s with
  | nil => rfl
  | cons run runs ih =>
    have eq : ({ s with state := st } : RLECompressState T).writeValue max run =
        { s.writeValue max run with state := st } := by
      rw [RLECompressState.writeValue_eq, RLECompressState.writeValue_eq]
      split <;> rfl
    rw [foldl_cons, foldl_cons, eq, ih]

/-- The values are written one after the other, whatever vectors they come in. -/
theorem RLECompressState.flushed_finalize [DecidableEq T]
    (vecs : List (List (Option T))) (s : RLECompressState T) :
    ((vecs.foldl (·.append max) s).finalize max).flushed =
      ((s.state.written vecs.flatten).foldl (writeValue max) s).flushSegment.flushed := by
  unfold RLECompressState.append
  rw [← foldl_flatten]
  induction vecs.flatten generalizing s with
  | nil => rfl
  | cons v vs ih =>
    have kept : (((s.state.update v).2.foldl (writeValue max)
        { s with state := (s.state.update v).1 }).state) = (s.state.update v).1 := by
      rw [RLECompressState.foldl_withState]
    rw [foldl_cons, ih, RLEState.written, kept, ← foldl_append, RLECompressState.foldl_withState]
    rfl

/-- A sequence of scans for each segment that reads all of its rows. -/
def ReadsAll (segments : List (RLESegment T)) (calls : List (List (Bool × Nat))) : Prop :=
  List.Forall₂ (fun segment calls => (calls.map Prod.snd).sum = segment.count) segments calls

theorem rleScan_keptSegments (beyond : RLESegment T → Nat → Run T) {ps : List (List (Run T))}
    {calls : List (List (Bool × Nat))} (complete : ReadsAll (keptSegments ps) calls) :
    rleScan beyond (keptSegments ps) calls =
      ps.flatMap fun runs => (expanded runs).take (total runs) := by
  induction ps generalizing calls with
  | nil =>
    cases complete
    rfl
  | cons runs ps ih =>
    rw [keptSegments_cons] at complete ⊢
    rw [flatMap_cons]
    split_ifs at complete with empty
    · rw [if_pos empty, empty, take_zero]
      exact ih complete
    · rw [if_neg empty]
      obtain ⟨part, _, sum, ho, rfl⟩ := forall₂_cons_left_iff.mp complete
      have sum : (part.map Prod.snd).sum = total runs := sum
      have here : (RLESegment.mk runs (total runs)).scan (beyond ⟨runs, total runs⟩) part =
          (expanded runs).take (part.map Prod.snd).sum := RLESegment.scan_eq sum.le
      rw [sum] at here
      exact congrArg₂ _ here (ih ho)

/-- A run of length zero may only come at the end or fill a segment. `written` is the
number of runs so far. -/
def CountsFit (max : Nat) (written : Nat) : List Nat → Prop
  | [] => True
  | count :: counts =>
    (count = 0 → counts = [] ∨ max ∣ written + 1) ∧ CountsFit max (written + 1) counts

/-- A run whose length is a multiple of the counter's limit is the last one, or the
run of length zero that it ends with fills a segment. -/
def RunsFit (max : Nat) (written : Nat) : List Nat → Prop
  | [] => True
  | length :: lengths =>
    (maxRunLength ∣ length → lengths = [] ∨ max ∣ written + length / maxRunLength + 1) ∧
      RunsFit max (written + length / maxRunLength + 1) lengths

theorem countsFit_flatMap (max wr : Nat) (lengths : List Nat) :
    CountsFit max wr (lengths.flatMap writtenLengths) ↔ RunsFit max wr lengths := by
  have full (n wr : Nat) (counts : List Nat) :
      CountsFit max wr (replicate n maxRunLength ++ counts) ↔ CountsFit max (wr + n) counts := by
    induction n generalizing wr with
    | zero => rfl
    | succ n ih =>
      rw [replicate_succ, cons_append, CountsFit, ih, Nat.add_assoc, Nat.add_comm 1 n]
      exact and_iff_right fun zero => by cases zero
  induction lengths generalizing wr with
  | nil => rfl
  | cons len lengths ih =>
    have last : lengths.flatMap writtenLengths = [] ↔ lengths = [] := by
      rw [flatMap_eq_nil_iff]
      constructor
      · intro none
        apply eq_nil_iff_forall_not_mem.mpr
        intro len isIn
        exact append_ne_nil_of_right_ne_nil _ (cons_ne_nil _ _) (none len isIn)
      · intro none len isIn
        rw [none] at isIn
        cases isIn
    have xs := ih (wr + len / maxRunLength + 1)
    rw [flatMap_cons, writtenLengths, append_assoc, full, singleton_append,
      CountsFit, RunsFit, last]
    exact and_congr (imp_congr_left Nat.dvd_iff_mod_eq_zero.symm) xs

theorem noneEmpty_concat {runs : List (Run T)} {run : Run T} :
    NoneEmpty (runs ++ [run]) ↔ ∀ o ∈ runs, o.count ≠ 0 := by
  induction runs with
  | nil => exact ⟨fun _ o got => (by cases got), fun _ => ⟨fun _ => rfl, trivial⟩⟩
  | cons fst runs ih =>
    rw [cons_append, NoneEmpty, ih, forall_mem_cons]
    refine and_congr_left fun _ => ⟨fun emp zero => ?_, fun filled zero => absurd zero filled⟩
    exact append_ne_nil_of_right_ne_nil _ (cons_ne_nil _ _) (emp zero)

/-- Segments without empty runs inside, from the lengths of the runs. -/
theorem noneEmpty_segmentsOf {max wr : Nat} {cur runs : List (Run T)}
    (room : cur.length < max) (aligned : wr % max = cur.length) :
    (∀ part ∈ segmentsOf max cur runs, NoneEmpty part) ↔ (runs = [] ∧ NoneEmpty cur) ∨
        runs ≠ [] ∧ (∀ run ∈ cur, run.count ≠ 0) ∧ CountsFit max wr (runs.map Run.count) := by
  induction runs generalizing cur wr with
  | nil =>
    rw [segmentsOf, forall_mem_singleton]
    exact ⟨fun none => .inl ⟨rfl, none⟩, fun either => either.elim And.right fun h =>
      absurd rfl h.1⟩
  | cons run runs ih =>
    rw [or_iff_right fun emp => cons_ne_nil _ _ emp.1,
      and_iff_right (cons_ne_nil run runs), map_cons, CountsFit,
      map_eq_nil_iff, segmentsOf]
    have len : (cur ++ [run]).length = cur.length + 1 := length_append
    have eq : (wr + 1) % max = (cur.length + 1) % max := by
      rw [← Nat.div_add_mod wr max, aligned, Nat.add_assoc, Nat.mul_add_mod]
    rw [len]
    split_ifs with fills
    · -- the segment is full, and what comes after it starts a new one
      have next : (wr + 1) % max = 0 := by rw [eq, fills, Nat.mod_self]
      rw [forall_mem_cons, noneEmpty_concat, @ih (wr + 1) [] (Nat.zero_lt_of_lt room) next]
      have fitting : run.count = 0 → runs = [] ∨ max ∣ wr + 1 :=
        fun _ => .inr (Nat.dvd_of_mod_eq_zero next)
      refine and_congr_right fun _ => Iff.trans ?_ (and_iff_right fitting).symm
      cases runs with
      | nil => exact ⟨fun _ => trivial, fun _ => .inl ⟨rfl, trivial⟩⟩
      | cons next runs =>
        rw [or_iff_right fun emp => cons_ne_nil _ _ emp.1,
          and_iff_right (cons_ne_nil next runs)]
        exact and_iff_right fun run got => by cases got
    · have less : cur.length + 1 < max := by omega
      have next : (wr + 1) % max = cur.length + 1 := by
        rw [eq, Nat.mod_eq_of_lt less]
      have fit : ¬ max ∣ wr + 1 := by
        rw [Nat.dvd_iff_mod_eq_zero, next]
        omega
      rw [ih (len ▸ less) (next.trans len.symm), noneEmpty_concat, forall_mem_append,
        forall_mem_singleton]
      cases runs with
      | nil =>
        exact ⟨fun either => ⟨(either.resolve_right fun h => h.1 rfl).2,
          fun _ => .inl rfl, trivial⟩,
          fun fits => .inl ⟨rfl, fits.1⟩⟩
      | cons next runs =>
        rw [or_iff_right fun emp => cons_ne_nil _ _ emp.1,
          and_iff_right (cons_ne_nil next runs), and_assoc]
        refine and_congr_right fun _ => and_congr_left fun _ => ?_
        constructor
        · exact fun filled emp => absurd emp filled
        · intro fits emp
          exact (fits emp).elim (cons_ne_nil _ _) fit

/-! ## The round trip -/

theorem rleScan_restores_iff [DecidableEq T] (nullValue : T) {max : Nat} (room : 0 < max)
    (vecs : List (List (Option T))) (beyond : RLESegment T → Nat → Run T)
    {calls : List (List (Bool × Nat))} (complete : ReadsAll
      (rleCompress nullValue max vecs) calls) :
    Restores (rleScan beyond (rleCompress nullValue max vecs) calls) vecs.flatten ↔
      RunsFit max 0 (runLengths none 0 vecs.flatten) := by
  have within := RLEState.within_new nullValue
  set wrote := (RLEState.new nullValue).written vecs.flatten with written_def
  have covers : Covers wrote ([] ++ vecs.flatten) := within.covers rfl (fun o got => by cases got) _
  have lengths := within.written_lengths vecs.flatten
  have nonempty : wrote ≠ [] := RLEState.written_ne_nil _ _
  have segs : rleCompress nullValue max vecs = keptSegments (segmentsOf max [] wrote) := by
    unfold rleCompress
    rw [RLECompressState.flushed_finalize, RLECompressState.flushed_foldl _ _ _ rfl]
    rfl
  rw [segs] at complete ⊢
  rw [rleScan_keptSegments beyond complete, restores_flatMap_iff,
    noneEmpty_segmentsOf room (Nat.zero_mod max), ← countsFit_flatMap, ← lengths,
    or_iff_right fun emp => nonempty emp.1, and_iff_right nonempty]
  · exact and_iff_right fun run got => by cases got
  · rw [flatten_segmentsOf]
    exact covers

theorem maxRLECount_pos (t : IntegerType) : 0 < maxRLECount t.bytes := by
  unfold IntegerType.bytes
  cases t.width <;> decide

/-- What is read is what was written, exactly if no run of a multiple of 65535 rows
is followed by another one in the same segment. -/
theorem rle_restores_iff (t : IntegerType) (nullValue : t.Value)
    (vectors : List (List (Option t.Value))) (beyond : RLESegment t.Value → Nat → Run t.Value)
    {calls : List (List (Bool × Nat))}
    (complete : ReadsAll (rleCompress nullValue (maxRLECount t.bytes) vectors) calls) :
    Restores (rleScan beyond (rleCompress nullValue (maxRLECount t.bytes) vectors) calls)
        vectors.flatten ↔ RunsFit (maxRLECount t.bytes) 0 (runLengths none 0 vectors.flatten) :=
  rleScan_restores_iff nullValue (maxRLECount_pos t) vectors beyond complete

/-- One scan for each segment. -/
def scanAtOnce (segments : List (RLESegment T)) : List (List (Bool × Nat)) :=
  segments.map fun segment => [(true, segment.count)]

theorem readsAll_scanAtOnce (segs : List (RLESegment T)) : ReadsAll segs (scanAtOnce segs) := by
  induction segs with
  | nil => exact .nil
  | cons segment segs ih => exact .cons (Nat.add_zero _) ih

def int8 : IntegerType := ⟨true, .one⟩

/-- Three rows, one of them NULL, in two vectors. -/
theorem rle_restores_small :
    ReadsAll (rleCompress (T := int8.Value) 0 (maxRLECount int8.bytes) [[some 7, none], [some 9]])
        (scanAtOnce (rleCompress 0 (maxRLECount int8.bytes) [[some 7, none], [some 9]])) ∧
      Restores (rleScan (fun _ _ => ⟨0, 0⟩)
          (rleCompress (T := int8.Value) 0 (maxRLECount int8.bytes) [[some 7, none], [some 9]])
          (scanAtOnce (rleCompress 0 (maxRLECount int8.bytes) [[some 7, none], [some 9]])))
        [some 7, none, some 9] := by
  refine ⟨readsAll_scanAtOnce _, ?_⟩
  refine (rle_restores_iff int8 0 [[some 7, none], [some 9]] _ (readsAll_scanAtOnce _)).mpr ?_
  have lengths : runLengths none 0
      ([[some 7, none], [some 9]] : List (List (Option int8.Value))).flatten = [2, 1] := by decide
  rw [lengths]
  refine ⟨fun dvd => absurd dvd (by decide), fun dvd => .inl rfl, trivial⟩

theorem runLengths_replicate [DecidableEq T] (v : T) (n len : Nat) (vs : List (Option T)) :
    runLengths (some v) len (replicate n (some v) ++ vs) = runLengths (some v) (len + n) vs := by
  induction n generalizing len with
  | zero => rfl
  | succ n ih =>
    rw [replicate_succ, cons_append, runLengths, if_pos (by simp), ih,
      Nat.add_assoc, Nat.add_comm 1 n]

/-- After 65535 times the same value, the next one is not read back. -/
theorem rle_restores_saturated :
    ∃ (vectors : List (List (Option int8.Value))) (calls : List (List (Bool × Nat))),
      ReadsAll (rleCompress 0 (maxRLECount int8.bytes) vectors) calls ∧
        ¬ Restores (rleScan (fun _ _ => ⟨0, 0⟩) (rleCompress 0 (maxRLECount int8.bytes) vectors)
          calls) vectors.flatten := by
  refine ⟨[replicate maxRunLength (some 7), [some 9]], _, readsAll_scanAtOnce _, ?_⟩
  rw [rleScan_restores_iff _ (maxRLECount_pos int8) _ _ (readsAll_scanAtOnce _)]
  have lengths : runLengths none 0 ([replicate maxRunLength (some 7), [some 9]] :
      List (List (Option int8.Value))).flatten = [maxRunLength, 1] := by
    rw [flatten_cons, show maxRunLength = 65534 + 1 from rfl, replicate_succ,
      cons_append, runLengths, if_pos (by decide), runLengths_replicate]
    decide
  rw [lengths]
  intro fits
  exact absurd (fits.1 (Nat.dvd_refl _)) (by decide)

end AccessPath
