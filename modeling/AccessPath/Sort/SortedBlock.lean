import Mathlib.Data.List.Basic
import Mathlib.Tactic.Ring

/-!
# Blocks of sorted rows

A `SortedBlock` keeps its rows in several blocks of their own. A row stands here for all that is
stored of it: the radix key, the sorting columns of variable size and the payload, which are moved
alike.
-/

namespace AccessPath

open List Option Nat

variable {block block' end' entry entry' i lo : Nat}

/-- `SortedBlock`; there is always a block, even if it has no rows. -/
structure SortedBlock (α : Type) where
  blocks : List (List α)
  nonempty : blocks ≠ []

namespace SortedBlock

variable {α : Type} (sb : SortedBlock α)

/-- All rows, one block after the other. -/
def rows : List α := sb.blocks.flatten

def count : Nat := (sb.blocks.map List.length).sum

/-- The loop of `GlobalToLocalIndex` from a block on. -/
def localIndex : List (List α) → Nat → Nat → Nat × Nat
  | [], block, entry => (block, entry)
  | rows :: blocks, block, entry =>
    if rows.length ≤ entry then localIndex blocks (block + 1) (entry - rows.length)
    else (block, entry)

def globalToLocalIndex (index : Nat) : Nat × Nat :=
  if index = sb.count then (sb.blocks.length - 1, (sb.blocks.getLast sb.nonempty).length)
  else localIndex sb.blocks 0 index

/-- The row that is found at an index. -/
def row (index : Nat) : Option α :=
  let (block, entry) := sb.globalToLocalIndex index
  sb.blocks[block]?.bind (·[entry]?)

end SortedBlock

/-- A `SBScanState` with the blocks it goes through. -/
structure SBScanState (α : Type) where
  blocks : List (List α)
  blockIdx : Nat
  entryIdx : Nat

/-- The blocks of a slice, of which the last one is cut. -/
def sliceBlocks {α : Type} (blocks : List (List α)) (start end' endEntry : Nat) : List (List α) :=
  let copied := (blocks.drop start).take (end' + 1 - start)
  copied.dropLast ++ [(copied.getLastD []).take endEntry]

/-- `CreateSlice`, with a scan state at the start of the slice. -/
def SortedBlock.createSlice {α : Type} (sb : SortedBlock α) (start end' : Nat) : SBScanState α :=
  let (startBlock, startEntry) := sb.globalToLocalIndex start
  let (endBlock, endEntry) := sb.globalToLocalIndex end'
  ⟨sliceBlocks sb.blocks startBlock endBlock endEntry, 0, startEntry⟩

namespace SBScanState

variable {α : Type} (s : SBScanState α)

def remaining : Nat :=
  match s.blocks.drop s.blockIdx with
  | [] => 0
  | block :: later => (block.length - s.entryIdx) + (later.map List.length).sum

/-- Move to the next block if the end of this one is reached. -/
def nextBlock : SBScanState α :=
  if (s.blocks[s.blockIdx]?).any (·.length == s.entryIdx) then ⟨s.blocks, s.blockIdx + 1, 0⟩
  else s

def done : Bool := s.blockIdx == s.blocks.length

/-- The row at the position, as long as it is in the block. -/
def current : Option α := s.blocks[s.blockIdx]?.bind (·[s.entryIdx]?)

def advance (n : Nat) : SBScanState α := { s with entryIdx := s.entryIdx + n }

/-- The rows of the block from the position on. -/
def blockRows : List α := (s.blocks[s.blockIdx]?.getD []).drop s.entryIdx

/-- The rows from the position on. -/
def rows : List α :=
  match s.blocks.drop s.blockIdx with
  | [] => []
  | block :: later => block.drop s.entryIdx ++ later.flatten

end SBScanState

/-! ## Positions -/

/-- A block and an entry at most at its end that stand for an index. -/
def Position {α : Type} (blocks : List (List α)) (index block entry : Nat) : Prop :=
  ∃ before rows after, blocks = before ++ rows :: after ∧ before.length = block ∧
    entry ≤ rows.length ∧ before.flatten.length + entry = index

namespace SortedBlock

variable {α : Type}

theorem count_eq (sb : SortedBlock α) : sb.count = sb.rows.length := by
  rw [count, rows, length_flatten]

theorem localIndex_spec {bs : List (List α)} {lo i : Nat} (less : i < bs.flatten.length) :
    ∃ pre rows aft entry, localIndex bs lo i = (lo + pre.length, entry) ∧
      bs = pre ++ rows :: aft ∧ entry < rows.length ∧ pre.flatten.length + entry = i := by
  induction bs generalizing lo i with
  | nil => exact absurd less (not_lt_zero _)
  | cons rows bs ih =>
    rw [localIndex]
    rw [flatten_cons, length_append] at less
    split_ifs with hb
    · obtain ⟨pre, rows', aft, entry, res, rfl, fit, _⟩ :=
        @ih (lo + 1) (i - rows.length) (by omega)
      refine ⟨rows :: pre, rows', aft, entry, ?_, rfl, fit, ?_⟩
      · rw [res, length_cons, add_right_comm, add_assoc]
      · rw [flatten_cons, length_append]
        omega
    · exact ⟨[], rows, bs, i, rfl, rfl, Nat.lt_of_not_le hb, zero_add _⟩

theorem last_position (sb : SortedBlock α) :
    Position sb.blocks sb.rows.length (sb.blocks.length - 1)
      (sb.blocks.getLast sb.nonempty).length := by
  have split := dropLast_append_getLast sb.nonempty
  refine ⟨_, _, [], split.symm, length_dropLast, le_refl _, ?_⟩
  have tot := congrArg (fun bs => bs.flatten.length) split
  simp only [flatten_append, flatten_cons, flatten_nil, append_nil, length_append] at tot
  exact tot

theorem position (sb : SortedBlock α) (le : i ≤ sb.rows.length) :
    Position sb.blocks i (sb.globalToLocalIndex i).1 (sb.globalToLocalIndex i).2 := by
  rw [globalToLocalIndex, count_eq]
  split_ifs with last
  · rw [last]
    exact sb.last_position
  · obtain ⟨pre, rows, aft, _, res, split, fit, index_eq⟩ :=
      @localIndex_spec α sb.blocks 0 i (lt_of_le_of_ne le last)
    rw [res, zero_add]
    exact ⟨pre, rows, aft, split, rfl, fit.le, index_eq⟩

theorem row_eq (sb : SortedBlock α) (lt : i < sb.rows.length) : sb.row i = sb.rows[i]? := by
  obtain ⟨pre, _, _, entry, res, split, less, index_eq⟩ := @localIndex_spec α sb.blocks 0 i lt
  have eq : sb.globalToLocalIndex i = (pre.length, entry) := by
    rw [globalToLocalIndex, count_eq, if_neg lt.ne, res, zero_add]
  rw [row, eq, SortedBlock.rows, split, ← index_eq, flatten_append, flatten_cons,
    getElem?_append_right (le_add_right _ _), Nat.add_sub_cancel_left,
    getElem?_append_left less]
  simp

theorem globalToLocalIndex_mono (sb : SortedBlock α) {i' : Nat} (le : i ≤ i')
    (fit : i' ≤ sb.rows.length) : (sb.globalToLocalIndex i).1 ≤ (sb.globalToLocalIndex i').1 := by
  obtain rfl | less := le.eq_or_lt
  · exact le_refl _
  obtain ⟨pre, _, _, entry, res, split, _, index_eq⟩ :=
    @localIndex_spec α sb.blocks 0 i (lt_of_lt_of_le less fit)
  have got : sb.globalToLocalIndex i = (pre.length, entry) := by
    rw [globalToLocalIndex, count_eq, if_neg (by omega), res, zero_add]
  obtain ⟨_, _, _, split', len', _, _⟩ := sb.position fit
  rw [got, ← len']
  -- an earlier block would end before the index
  by_contra later
  obtain ⟨mid, rfl, eq⟩ | ⟨mid, rfl, eq⟩ := append_eq_append_iff.mp (split.symm.trans split')
  · exact later (by rw [length_append]; exact le_add_right _ _)
  · cases mid with
    | nil => exact later (by rw [append_nil])
    | cons fst mid =>
      obtain ⟨rfl, _⟩ := List.cons.inj eq
      simp only [flatten_append, flatten_cons, length_append] at index_eq
      omega

end SortedBlock

/-! ## Slices -/

section

variable {α : Type}

theorem sliceBlocks_same (pre : List (List α)) (rows : List α) (aft : List (List α))
    (endEntry : Nat) : sliceBlocks (pre ++ rows :: aft) pre.length pre.length endEntry =
      [rows.take endEntry] := by
  simp [sliceBlocks]

theorem sliceBlocks_later (pre : List (List α)) (rows : List α) (mid : List (List α))
    (rows' : List α) (aft : List (List α)) (endEntry : Nat) :
    sliceBlocks (pre ++ rows :: (mid ++ rows' :: aft)) pre.length
        (pre.length + 1 + mid.length) endEntry = rows :: mid ++ [rows'.take endEntry] := by
  have copied : ((pre ++ rows :: (mid ++ rows' :: aft)).drop pre.length).take
      (pre.length + 1 + mid.length + 1 - pre.length) = rows :: mid ++ [rows'] := by
    rw [drop_left, show pre.length + 1 + mid.length + 1 - pre.length =
      mid.length + 1 + 1 by omega, take_succ_cons, take_length_add_append]
    rfl
  rw [sliceBlocks, copied, List.dropLast_concat, getLastD_concat]

theorem Position.cases {bs : List (List α)} (fst : Position bs lo block entry)
    (last : Position bs end' block' entry') (le : block ≤ block') :
    (∃ pre rows aft, bs = pre ++ rows :: aft ∧ pre.length = block ∧
      block' = block ∧ entry ≤ rows.length ∧ entry' ≤ rows.length ∧
      pre.flatten.length + entry = lo ∧ pre.flatten.length + entry' = end') ∨
    ∃ pre rows mid rows' aft, bs = pre ++ rows :: (mid ++ rows' :: aft) ∧
      pre.length = block ∧ block' = block + 1 + mid.length ∧ entry ≤ rows.length ∧
      entry' ≤ rows'.length ∧ pre.flatten.length + entry = lo ∧
      pre.flatten.length + (rows.length + (mid.flatten.length + entry')) = end' := by
  obtain ⟨pre, rows, aft, rfl, rfl, entry_le, i⟩ := fst
  obtain ⟨pre', rows', aft', split, rfl, entry_le', i'⟩ := last
  obtain ⟨mid, rfl, eq⟩ | ⟨mid, rfl, eq⟩ := append_eq_append_iff.mp split
  · cases mid with
    | nil =>
      obtain ⟨rfl, rfl⟩ := List.cons.inj eq
      rw [append_nil] at i' ⊢
      exact .inl ⟨pre, rows, aft, rfl, rfl, rfl, entry_le, entry_le', i, i'⟩
    | cons next mid =>
      obtain ⟨rfl, rfl⟩ := List.cons.inj eq
      refine .inr ⟨pre, rows, mid, rows', aft', rfl, rfl, ?_, entry_le, entry_le', i, ?_⟩
      · rw [length_append, length_cons]
        omega
      · simp only [flatten_append, flatten_cons, length_append] at i'
        omega
  · have emp : mid = [] := by
      rw [length_append] at le
      exact eq_nil_of_length_eq_zero (by omega)
    subst emp
    obtain ⟨rfl, rfl⟩ := List.cons.inj eq
    rw [append_nil] at i ⊢
    exact .inl ⟨pre', rows', aft', rfl, rfl, rfl, entry_le, entry_le', i, i'⟩

/-- A scan state is at most at the end of its blocks, and its entry at the end of its block. -/
structure SBScanState.Inside (s : SBScanState α) : Prop where
  block_le : s.blockIdx ≤ s.blocks.length
  entry_le : ∀ block ∈ s.blocks[s.blockIdx]?, s.entryIdx ≤ block.length

theorem Position.slice {bs : List (List α)} (fst : Position bs lo block entry)
    (last : Position bs end' block' entry') (le : block ≤ block') (order : lo ≤ end') :
    (⟨sliceBlocks bs block block' entry', 0, entry⟩ : SBScanState α).rows =
        (bs.flatten.take end').drop lo ∧
      (⟨sliceBlocks bs block block' entry', 0, entry⟩ : SBScanState α).Inside := by
  obtain ⟨pre, rows, aft, rfl, rfl, rfl, entry_le, entry_le', rfl, rfl⟩ |
    ⟨_, _, _, _, _, rfl, rfl, rfl, entry_le, entry_le', rfl, rfl⟩ :=
      fst.cases last le
  · rw [sliceBlocks_same]
    constructor
    · rw [SBScanState.rows, flatten_append, take_length_add_append,
        drop_length_add_append, flatten_cons, take_append_of_le_length entry_le']
      exact append_nil _
    · refine ⟨zero_le _, ?_⟩
      intro block mem
      obtain rfl := Option.some.inj mem
      rw [length_take]
      exact le_min (le_of_add_le_add_left order) entry_le
  · rw [sliceBlocks_later]
    constructor
    · rw [SBScanState.rows, flatten_append, take_length_add_append,
        drop_length_add_append, flatten_cons, take_length_add_append,
        drop_append_of_le_length entry_le, flatten_append, take_length_add_append,
        flatten_cons, take_append_of_le_length entry_le']
      simp
    · refine ⟨zero_le _, ?_⟩
      intro block mem
      obtain rfl := Option.some.inj mem
      exact entry_le

theorem SortedBlock.createSlice_spec (sb : SortedBlock α) (le : lo ≤ end')
    (fit : end' ≤ sb.rows.length) : (sb.createSlice lo end').rows = (sb.rows.take end').drop lo ∧
      (sb.createSlice lo end').Inside :=
  (sb.position (le.trans fit)).slice (sb.position fit) (sb.globalToLocalIndex_mono le fit) le

end

/-! ## Scanning -/

namespace SBScanState

variable {α : Type} {s : SBScanState α}

theorem remaining_eq (s : SBScanState α) : s.remaining = s.rows.length := by
  rw [remaining, rows]
  cases s.blocks.drop s.blockIdx with
  | nil => rfl
  | cons block hl => simp

/-- The blocks that are not read to their end. -/
def blocksLeft (s : SBScanState α) : Nat := s.blocks.length - s.blockIdx

theorem rows_eq {b : List α} (cur : s.blocks[s.blockIdx]? = some b) :
    s.rows = b.drop s.entryIdx ++ (s.blocks.drop (s.blockIdx + 1)).flatten := by
  obtain ⟨less, rfl⟩ := List.getElem?_eq_some_iff.mp cur
  rw [rows, drop_eq_getElem_cons less]

theorem rows_done (done : s.blocks[s.blockIdx]? = none) : s.rows = [] := by
  rw [rows, drop_eq_nil_of_le (List.getElem?_eq_none_iff.mp done)]

section

variable (fit : s.Inside)
include fit

/-- Moving on keeps the rows, and without moving a row of the block is left. -/
theorem nextBlock_spec : s.nextBlock.rows = s.rows ∧ s.nextBlock.Inside ∧
      (s.nextBlock.blocksLeft < s.blocksLeft ∨
        s.nextBlock = s ∧ ∀ block ∈ s.blocks[s.blockIdx]?, s.entryIdx < block.length) := by
  rw [nextBlock]
  cases cur : s.blocks[s.blockIdx]? with
  | none => exact ⟨rfl, fit, .inr ⟨rfl, fun _ mem => absurd mem (not_mem_none _)⟩⟩
  | some block =>
    have less := (List.getElem?_eq_some_iff.mp cur).1
    rw [any_some]
    split_ifs with end'
    · have end_eq : block.length = s.entryIdx := beq_iff_eq.mp end'
      refine ⟨?_, ⟨less, fun _ _ => zero_le _⟩, .inl (by simp only [blocksLeft]; omega)⟩
      rw [rows_eq cur, ← end_eq, drop_length, nil_append, rows]
      cases s.blocks.drop (s.blockIdx + 1) with
      | nil => rfl
      | cons next hl => rfl
    · refine ⟨rfl, fit, .inr ⟨rfl, ?_⟩⟩
      intro block' eq
      obtain rfl := Option.some.inj eq
      exact lt_of_le_of_ne (fit.entry_le block cur) fun eq => end' (beq_iff_eq.mpr eq.symm)

theorem nextBlock_rows : s.nextBlock.rows = s.rows := (nextBlock_spec fit).1

theorem nextBlock_inside : s.nextBlock.Inside := (nextBlock_spec fit).2.1

theorem nextBlock_blocksLeft : s.nextBlock.blocksLeft ≤ s.blocksLeft := by
  obtain ⟨_, _, fewer | ⟨eq, _⟩⟩ := nextBlock_spec fit
  · exact fewer.le
  · rw [eq]

theorem done_iff : s.done = true ↔ s.blocks[s.blockIdx]? = none := by
  rw [done, beq_iff_eq, List.getElem?_eq_none_iff]
  have le := fit.block_le
  omega

theorem done_rows (done : s.done = true) : s.rows = [] := rows_done ((done_iff fit).mp done)

/-- Only an empty block leaves nothing to read after moving on. -/
theorem nextBlock_stuck (more : s.nextBlock.done = false)
    (stuck : s.nextBlock.current = none) : s.nextBlock.blocksLeft < s.blocksLeft := by
  obtain ⟨_, _, fewer | ⟨eq, less⟩⟩ := nextBlock_spec fit
  · exact fewer
  · rw [eq] at more stuck
    cases here : s.blocks[s.blockIdx]? with
    | none => exact absurd ((done_iff fit).mpr here) (Bool.not_eq_true _ ▸ more)
    | some block =>
      rw [current, here, bind_some, List.getElem?_eq_none_iff] at stuck
      exact absurd (less block here) (Nat.not_lt_of_le stuck)

end

theorem current_eq (s : SBScanState α) : s.current = s.blockRows.head? := by
  rw [current, blockRows, head?_drop]
  cases s.blocks[s.blockIdx]? with
  | none => rfl
  | some block => rfl

theorem take_progress (fit : s.Inside) (more : s.nextBlock.done = false) (n : Nat) :
    0 < (s.nextBlock.blockRows.take (n + 1)).length ∨ s.nextBlock.blocksLeft < s.blocksLeft := by
  cases rows : s.nextBlock.blockRows with
  | nil =>
    refine .inr (nextBlock_stuck fit more ?_)
    rw [current_eq, rows]
    rfl
  | cons a rows => exact .inl (succ_pos _)

theorem current_rows {a : α} (fst : s.current = some a) : s.rows = a :: (s.advance 1).rows := by
  obtain ⟨block, here, entry⟩ := bind_eq_some_iff.mp fst
  obtain ⟨less, rfl⟩ := List.getElem?_eq_some_iff.mp entry
  rw [rows_eq here, @rows_eq α (s.advance 1) block here, drop_eq_getElem_cons less]
  rfl

theorem current_inside {a : α} (fit : s.Inside) (fst : s.current = some a) :
    (s.advance 1).Inside := by
  obtain ⟨_, here, entry⟩ := bind_eq_some_iff.mp fst
  obtain ⟨less, _⟩ := List.getElem?_eq_some_iff.mp entry
  refine ⟨fit.block_le, ?_⟩
  intro block' here'
  obtain rfl := Option.some.inj (here.symm.trans here')
  exact less

theorem take_rows (fit : s.Inside) (n : Nat) :
    s.rows = (s.blockRows.take n) ++ (s.advance (s.blockRows.take n).length).rows ∧
      (s.advance (s.blockRows.take n).length).Inside := by
  rw [blockRows]
  cases here : s.blocks[s.blockIdx]? with
  | none =>
    refine ⟨?_, fit.block_le, ?_⟩
    · rw [rows_done here, @rows_done α (s.advance _) here, getD_none, drop_nil,
        take_nil, append_nil]
    · intro block here'
      exact absurd (here.symm.trans here') (some_ne_none block).symm
  | some block =>
    have le := fit.entry_le block here
    refine ⟨?_, fit.block_le, ?_⟩
    · rw [rows_eq here, @rows_eq α (s.advance _) block here, ← append_assoc, getD_some]
      congr 1
      simp only [advance, ← drop_drop]
      exact (prefix_iff_eq_append.mp ( take_prefix n _)).symm
    · intro block' here'
      obtain rfl := Option.some.inj (here.symm.trans here')
      rw [getD_some, length_take, length_drop]
      simp only [advance]
      omega

/-- A round that reads what it can of a block, out of rows that are there. -/
theorem flush_spec (fit : s.Inside) {n : Nat} (more : n + 1 ≤ s.rows.length) :
    ∃ rows, s.nextBlock.blockRows.take (n + 1) = rows ∧
      s.rows = rows ++ (s.nextBlock.advance rows.length).rows ∧
      (s.nextBlock.advance rows.length).Inside ∧ rows.length ≤ n + 1 ∧
      n + 1 - rows.length + s.nextBlock.blocksLeft < n + 1 + s.blocksLeft := by
  have fit' := nextBlock_inside fit
  have notDone : s.nextBlock.done = false := by
    rw [← Bool.not_eq_true]
    intro done
    rw [← nextBlock_rows fit, done_rows fit' done] at more
    exact not_succ_le_zero n more
  obtain ⟨rows_eq, advanced⟩ := take_rows fit' (n + 1)
  rw [nextBlock_rows fit] at rows_eq
  have hsh := length_take_le (n + 1) s.nextBlock.blockRows
  have blocks := nextBlock_blocksLeft fit
  refine ⟨_, rfl, rows_eq, advanced, hsh, ?_⟩
  obtain _ | _ := take_progress fit notDone n
  · omega
  · omega

end SBScanState

end AccessPath
