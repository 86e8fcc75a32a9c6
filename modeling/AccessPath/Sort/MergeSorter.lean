import AccessPath.Library.MergePath
import AccessPath.Sort.SortedBlock

/-!
# Partitions of a merge

Threads that merge two sorted blocks take partitions of a fixed number of rows. The end of a
partition is found by a binary search along a diagonal. Indices are unsigned: `none` stands for
one that is less than zero or for a row that does not exist.
-/

namespace AccessPath

open Library Option Nat

/-- One less, unless it would wrap. -/
def pred (n : Nat) : Option Nat := if n = 0 then none else some (n - 1)

/-! ## The intersection -/

/-- `CompareUsingGlobalIndex`: rows before the last intersection are not looked at. -/
def compareUsingGlobalIndex {α : Type} (cmp : α → α → Ordering) (left right : SortedBlock α)
    (lStart rStart : Nat) (lIdx rIdx : Nat) : Option Ordering :=
  if lIdx < lStart then some .lt
  else if rIdx < rStart then some .gt
  else do
    let l ← left.row lIdx
    let r ← right.row rIdx
    return cmp l r

/-- What the binary search leaves: an intersection, or indices that may be off by one. -/
inductive SearchResult
  | intersection (lIdx rIdx : Nat)
  | near (lIdx rIdx : Nat)

section

variable (compare : Nat → Nat → Option Ordering) (lCount rCount : Nat)

/-- The loop of the binary search; `last` are the indices of the previous round. -/
def search (lOffset rOffset : Nat) : Nat → Nat → Nat → Option (Nat × Nat) → Option SearchResult
  | 0, _, _, _ => none
  | fuel + 1, li, ri, last =>
    if ri < li then last.map fun (lIdx, rIdx) => .near lIdx rIdx
    else if lOffset < (li + ri) / 2 then none
    else
      let middle := (li + ri) / 2
      let lIdx := lOffset - middle
      let rIdx := rOffset + middle
      if lIdx = lCount ∨ rIdx = 0 then do
        let lIdxMin1 ← pred lIdx
        let compRes ← compare lIdxMin1 rIdx
        if compRes = .gt then
          if lIdxMin1 = 0 ∨ rIdx + 1 = rCount then some (.intersection lIdxMin1 (rIdx + 1))
          else some (.near lIdxMin1 (rIdx + 1))
        else some (.intersection lIdx rIdx)
      else do
        let compRes ← compare lIdx rIdx
        if compRes = .gt then search lOffset rOffset fuel (middle + 1) ri (some (lIdx, rIdx))
        else search lOffset rOffset fuel li (← pred middle) (some (lIdx, rIdx))

/-- The last lines of `GetIntersection`, which move by at most one. -/
def adjust (lIdx rIdx : Nat) : Option (Nat × Nat) := do
  let lIdxMin1 ← pred lIdx
  let rIdxMin1 ← pred rIdx
  let lrMin1 ← compare lIdx rIdxMin1
  let lMin1r ← compare lIdxMin1 rIdx
  if lrMin1 = .gt ∧ lMin1r = .lt then some (lIdx, rIdx)
  else if lrMin1 = .gt then some (lIdxMin1, rIdx + 1)
  else if lMin1r = .lt then some (lIdx + 1, rIdxMin1)
  else some (lIdx, rIdx)

def searchSpace (diagonal : Nat) : Nat :=
  if max lCount rCount < diagonal then lCount + rCount - diagonal
  else min diagonal (min lCount rCount)

/-- The search along a diagonal that does not end at a corner of the matrix. -/
def searchDiagonal (diagonal : Nat) : Option (Nat × Nat) := do
  let space := searchSpace lCount rCount diagonal
  -- the offset on the right is zero as long as the diagonal starts on the left
  let result ← search compare lCount rCount (min lCount diagonal) (diagonal - lCount)
    (space + 1) 0 (← pred space) none
  match result with
  | .intersection lIdx rIdx => some (lIdx, rIdx)
  | .near lIdx rIdx => adjust compare lIdx rIdx

def getIntersection (diagonal : Nat) : Option (Nat × Nat) :=
  if lCount + rCount ≤ diagonal then some (lCount, rCount)
  else if diagonal = 0 then some (0, 0)
  else if lCount = 0 then some (0, diagonal)
  else if rCount = 0 then some (diagonal, 0)
  else searchDiagonal compare lCount rCount diagonal

end

/-! ## The search -/

section

variable {compare : Nat → Nat → Option Ordering} {c : Nat → Nat → Ordering} {m n : Nat}

theorem pred_of_pos {k : Nat} (pos : 0 < k) : pred k = some (k - 1) := if_neg pos.ne'

/-- The part of a diagonal that is searched: it starts at an edge, and ends next to one. -/
structure DiagonalSegment (m n lOffset rOffset space : Nat) : Prop where
  positive : 0 < space
  left_le : lOffset ≤ m
  space_le : space ≤ lOffset
  right_le : rOffset + space ≤ n
  start : lOffset = m ∨ rOffset = 0
  stop : lOffset = space ∨ rOffset + space = n

/-- Indices from which the intersection is at most one step away. -/
structure Near (c : Nat → Nat → Ordering) (m n l r : Nat) : Prop where
  left_pos : 0 < l
  left_lt : l < m
  right_pos : 0 < r
  right_lt : r < n
  down : l = 1 ∨ r + 1 = n ∨ c (l - 1) (r + 1) ≠ .gt
  up : c l (r - 1) = .gt ∨ l + 1 < m ∧ c (l + 1) (r - 1) = .gt

/-- What the search promises of its result on a diagonal. -/
def SearchResult.Ok (c : Nat → Nat → Ordering) (m n diagonal : Nat) : SearchResult → Prop
  | .intersection l r => Corner c m n l r ∧ l + r = diagonal
  | .near l r => Near c m n l r ∧ l + r = diagonal

variable (real : ∀ i j, i < m → j < n → compare i j = some (c i j)) (stairs : Staircase c m n)

include real stairs

theorem adjust_spec {l r : Nat} (near : Near c m n l r) :
    ∃ l' r', adjust compare l r = some (l', r') ∧ Corner c m n l' r' ∧ l' + r' = l + r := by
  obtain ⟨lpos, llt, rpos, rlt, down, up⟩ := near
  rw [adjust, pred_of_pos lpos, pred_of_pos rpos]
  simp only [bind_eq_bind, bind_some]
  rw [real l (r - 1) llt (by omega), real (l - 1) r (by omega) rlt]
  simp only [bind_some]
  split_ifs with both gt less
  · refine ⟨l, r, rfl, stairs.corner llt.le rlt.le ?_ ?_, rfl⟩
    · intro _ _
      rw [both.2]
      exact Ordering.noConfusion
    · intro _ _
      rw [both.1]
      exact Ordering.noConfusion
  · refine ⟨l - 1, r + 1, rfl, stairs.corner_down (by omega) rlt ?_ ?_, by omega⟩
    · exact fun less => both ⟨gt, less⟩
    · obtain _ | last | notGreater := down
      · exact .inl (by omega)
      · exact .inr (.inl last)
      · exact .inr (.inr notGreater)
  · refine ⟨l + 1, r - 1, rfl, stairs.corner llt (by omega) ?_ ?_, by omega⟩
    · intro _ _
      exact gt
    · intro pos fit hsm
      obtain gt' | ⟨_, gt'⟩ := up
      · exact gt gt'
      · have := stairs.gt gt' (le_refl _) fit (sub_le (r - 1) 1) (by omega)
        rw [hsm] at this
        exact Ordering.noConfusion this
  · refine ⟨l, r, rfl, stairs.corner llt.le rlt.le ?_ ?_, rfl⟩
    · intro _ _ gt'
      exact gt (stairs.gt gt' (sub_le _ _) llt (sub_le _ _) rlt)
    · intro _ _ less'
      exact less (stairs.lt less' (sub_le _ _) llt (sub_le _ _) rlt)

/-- The state of the binary search: the entries outside of `li` to `ri` are decided. -/
structure Searched (c : Nat → Nat → Ordering) (m n lOffset rOffset space li ri : Nat)
    (last : Option (Nat × Nat)) : Prop where
  ri_lt : ri < space
  li_le : li ≤ ri + 1
  low : li = 0 ∨ 2 ≤ li ∧ c (lOffset - (li - 1)) (rOffset + (li - 1)) = .gt
  high : ri + 1 = space ∨ c (lOffset - (ri + 1)) (rOffset + (ri + 1)) ≠ .gt
  found : ri < li → ∃ l r, last = some (l, r) ∧ Near c m n l r ∧ l + r = lOffset + rOffset

omit real stairs in
/-- What is next to a decided entry, or to the end of the segment. -/
theorem DiagonalSegment.edge {lOffset rOffset space k : Nat}
    (seg : DiagonalSegment m n lOffset rOffset space)
    (high : k + 1 = space ∨ c (lOffset - (k + 1)) (rOffset + (k + 1)) ≠ .gt) :
    lOffset - k = 1 ∨ rOffset + k + 1 = n ∨ c (lOffset - k - 1) (rOffset + k + 1) ≠ .gt := by
  obtain _ | notGreater := high
  · obtain _ | _ := seg.stop
    · exact .inl (by omega)
    · exact .inr (.inl (by omega))
  · exact .inr (.inr notGreater)

omit real in
theorem not_gt_down {l r : Nat} (left : l < m) (right : r < n) (notGreater : c l r ≠ .gt) :
    r + 1 = n ∨ c (l - 1) (r + 1) ≠ .gt := by
  rcases Nat.lt_or_ge (r + 1) n with fit | _
  · refine .inr fun greater => notGreater ?_
    exact stairs.gt greater (sub_le _ _) left (le_succ r) fit
  · exact .inl (by omega)

theorem search_start {lOffset rOffset space : Nat} (seg : DiagonalSegment m n lOffset rOffset space)
    {fuel ri : Nat} {last : Option (Nat × Nat)} (le : ri ≤ 1)
    (st : Searched c m n lOffset rOffset space 0 ri last) :
    ∃ res, search compare m n lOffset rOffset (fuel + 1) 0 ri last = some res ∧
      res.Ok c m n (lOffset + rOffset) := by
  have hb := fun k => @DiagonalSegment.edge c m n lOffset rOffset space k seg
  obtain ⟨_, left_le, _, _, lo, _⟩ := seg
  obtain ⟨_, -, -, high, -⟩ := st
  have middle : (0 + ri) / 2 = 0 := by omega
  rw [search, if_neg (by omega), middle, if_neg (by omega)]
  dsimp only
  rw [Nat.sub_zero, add_zero, if_pos lo, pred_of_pos (by omega)]
  simp only [bind_eq_bind, bind_some]
  rw [real _ _ (by omega) (by omega), bind_some]
  split_ifs with gt edge
  · refine ⟨_, rfl, stairs.corner_down (by omega) (by omega) ?_ ?_, by omega⟩
    · rw [gt]
      exact Ordering.noConfusion
    · obtain zero | last := edge
      · exact .inl zero
      · exact .inr (.inl last)
  · refine ⟨_, rfl, ⟨by omega, by omega, by omega, by omega, ?_, ?_⟩, by omega⟩
    · obtain rfl | rfl : ri = 0 ∨ ri = 1 := by omega
      · obtain _ | notGreater := high
        · omega
        · exact .inr (not_gt_down stairs (by omega) (by omega) notGreater)
      · exact hb 1 high
    · exact .inl gt
  · refine ⟨_, rfl, stairs.corner left_le (by omega) ?_ ?_, rfl⟩
    · intro _ _
      exact gt
    · intro _ _
      omega

theorem search_spec {lOffset rOffset space : Nat} (seg : DiagonalSegment m n lOffset rOffset space)
    {fuel li ri : Nat} {last : Option (Nat × Nat)} (enough : ri + 2 - li ≤ fuel)
    (st : Searched c m n lOffset rOffset space li ri last) :
    ∃ res, search compare m n lOffset rOffset fuel li ri last = some res ∧
      res.Ok c m n (lOffset + rOffset) := by
  induction fuel generalizing li ri last with
  | zero =>
    have := st.li_le
    omega
  | succ fuel ih =>
    by_cases first : (li + ri) / 2 = 0
    · have low : li = 0 := by
        obtain zero | ⟨two, _⟩ := st.low
        · exact zero
        · have := st.li_le
          omega
      subst low
      exact search_start real stairs seg (by omega) st
    have hb := fun k => @DiagonalSegment.edge c m n lOffset rOffset space k seg
    obtain ⟨_, _, _, _, _, _⟩ := seg
    obtain ⟨ri_lt, _, low, high, got⟩ := st
    rw [search]
    split_ifs with finished wrapped
    · obtain ⟨l, r, rfl, near, sum⟩ := got finished
      exact ⟨.near l r, rfl, near, sum⟩
    · omega
    generalize middle_eq : (li + ri) / 2 = middle at *
    rw [if_neg (by omega), real _ _ (by omega) (by omega), bind_eq_bind, bind_some]
    split_ifs with gt
    · refine ih (by omega) ⟨ri_lt, by omega, .inr ⟨by omega, gt⟩, high, ?_⟩
      intro end'
      refine ⟨_, _, rfl, ⟨by omega, by omega, by omega, by omega, ?_, ?_⟩, by omega⟩
      · obtain rfl : ri = middle := by omega
        exact hb ri high
      · exact .inl (stairs.gt gt (le_refl _) (by omega) (sub_le _ _) (by omega))
    · rw [pred_of_pos (by omega), bind_eq_bind, bind_some]
      refine ih (by omega) ⟨by omega, by omega, low, .inr ?_, ?_⟩
      · rwa [Nat.sub_add_cancel (by omega)]
      · intro end'
        obtain rfl : li = middle := by omega
        refine ⟨_, _, rfl, ⟨by omega, by omega, by omega, by omega, ?_, ?_⟩, by omega⟩
        · exact .inr (not_gt_down stairs (by omega) (by omega) gt)
        · obtain _ | ⟨_, gt'⟩ := low
          · omega
          · rw [show lOffset - (li - 1) = lOffset - li + 1 by omega,
              show rOffset + (li - 1) = rOffset + li - 1 by omega] at gt'
            exact .inr ⟨by omega, gt'⟩

omit real stairs in
theorem segment_of_diagonal {d : Nat} (less : d < m + n) (pos : 0 < d)
    (left : 0 < m) (right : 0 < n) : DiagonalSegment m n (min m d) (d - m) (searchSpace m n d) := by
  rw [searchSpace]
  split_ifs with far
  · exact ⟨by omega, by omega, by omega, by omega, by omega, by omega⟩
  · exact ⟨by omega, by omega, by omega, by omega, by omega, by omega⟩

theorem searchDiagonal_spec {d : Nat} (less : d < m + n) (pos : 0 < d)
    (left : 0 < m) (right : 0 < n) :
    ∃ l r, searchDiagonal compare m n d = some (l, r) ∧ Corner c m n l r ∧ l + r = d := by
  have seg := segment_of_diagonal less pos left right
  have space := seg.positive
  have st : Searched c m n (min m d) (d - m) (searchSpace m n d) 0 (searchSpace m n d - 1) none :=
    ⟨by omega, zero_le _, .inl rfl, .inl (by omega), fun wrong => by omega⟩
  obtain ⟨res, got, ok⟩ := @search_spec compare c m n real stairs _ _ _ seg
    (searchSpace m n d + 1) _ _ _ (by omega) st
  rw [show min m d + (d - m) = d by omega] at ok
  rw [searchDiagonal, pred_of_pos space]
  simp only [bind_eq_bind, bind_some, got]
  cases res with
  | intersection l r => exact ⟨l, r, rfl, ok.1, ok.2⟩
  | near l r =>
    obtain ⟨l', r', adjusted, corner, sum⟩ := adjust_spec real stairs ok.1
    exact ⟨l', r', adjusted, corner, sum.trans ok.2⟩

theorem getIntersection_spec (d : Nat) :
    ∃ l r, getIntersection compare m n d = some (l, r) ∧ Corner c m n l r ∧
      l + r = min d (m + n) := by
  rw [getIntersection]
  split_ifs with hb zero noLeft noRight
  · exact ⟨m, n, rfl, Corner.full c m n, (min_eq_right hb).symm⟩
  · exact ⟨0, 0, rfl, Corner.origin c m n, by omega⟩
  · refine ⟨0, d, rfl, stairs.corner (zero_le _) (by omega) ?_ ?_, by omega⟩
    · intro less
      omega
    · intro _ less
      omega
  · refine ⟨d, 0, rfl, stairs.corner (by omega) (zero_le _) ?_ ?_, by omega⟩
    · intro _ less
      omega
    · intro less
      omega
  · rw [Nat.min_eq_left (by omega)]
    exact searchDiagonal_spec real stairs (by omega) (by omega) (by omega) (by omega)

end

/-! ## Partitions -/

section

variable {α : Type} (cmp : α → α → Ordering) (left right : SortedBlock α)

/-- What a thread takes under the lock: slices of both blocks, and where they end. -/
structure Partition (α : Type) where
  left : SBScanState α
  right : SBScanState α
  lEnd : Nat
  rEnd : Nat

/-- Where the partition ends that starts after the given rows. -/
def partitionEnd (blockCapacity lStart rStart : Nat) : Option (Nat × Nat) :=
  if lStart + rStart + blockCapacity < left.count + right.count then
    getIntersection (compareUsingGlobalIndex cmp left right lStart rStart)
      left.count right.count (lStart + rStart + blockCapacity)
  else some (left.count, right.count)

/-- `GetNextPartition` for one pair of blocks. -/
def getNextPartition (blockCapacity lStart rStart : Nat) : Option (Partition α) := do
  let (lEnd, rEnd) ← partitionEnd cmp left right blockCapacity lStart rStart
  return ⟨left.createSlice lStart lEnd, right.createSlice rStart rEnd, lEnd, rEnd⟩

variable {cmp left right}

theorem compareUsingGlobalIndex_eq {lStart rStart i j : Nat} (inLeft : i < left.rows.length)
    (inRight : j < right.rows.length) : compareUsingGlobalIndex cmp left right lStart rStart i j =
      some (resumed (rowMatrix cmp left.rows right.rows) lStart rStart i j) := by
  rw [compareUsingGlobalIndex, resumed, left.row_eq inLeft, right.row_eq inRight,
    rowMatrix_eq inLeft inRight, List.getElem?_eq_getElem inLeft,
    List.getElem?_eq_getElem inRight]
  split_ifs with shortcut shortcut'
  · rfl
  · rfl
  · rfl

/-- The rows of the two slices of a partition. -/
structure Partition.Takes (partition : Partition α) (left right : List α) (lStart rStart : Nat) :
    Prop where
  left_mono : lStart ≤ partition.lEnd
  right_mono : rStart ≤ partition.rEnd
  left_rows : partition.left.rows = (left.take partition.lEnd).drop lStart
  right_rows : partition.right.rows = (right.take partition.rEnd).drop rStart
  left_inside : partition.left.Inside
  right_inside : partition.right.Inside

section

variable [Std.TransCmp cmp] (asc : SortedBy cmp left.rows) (asc' : SortedBy cmp right.rows)

include asc asc'

section

variable (cap : Nat) {lStart rStart : Nat}
  (lo : Corner (rowMatrix cmp left.rows right.rows) left.rows.length right.rows.length lStart rStart)
include cap lo

/-- From a point of the path to the next one, a capacity further or at the end. -/
theorem partitionEnd_spec :
    ∃ lEnd rEnd, partitionEnd cmp left right cap lStart rStart = some (lEnd, rEnd) ∧
      lStart ≤ lEnd ∧ rStart ≤ rEnd ∧
      Corner (rowMatrix cmp left.rows right.rows) left.rows.length right.rows.length lEnd rEnd ∧
      lEnd + rEnd = min (lStart + rStart + cap) (left.rows.length + right.rows.length) := by
  rw [partitionEnd, left.count_eq, right.count_eq]
  split_ifs with more
  · obtain ⟨l, r, got, corner, sum⟩ := getIntersection_spec
      (fun i j inLeft inRight => compareUsingGlobalIndex_eq inLeft inRight)
      ((asc.staircase asc').resumed lStart rStart) (lStart + rStart + cap)
    obtain ⟨left_le, right_le, corner'⟩ := lo.resume corner (by omega)
    exact ⟨l, r, got, left_le, right_le, corner', sum⟩
  · exact ⟨_, _, rfl, lo.left_le, lo.right_le, Corner.full _ _ _, by omega⟩

theorem getNextPartition_spec : ∃ p, getNextPartition cmp left right cap lStart rStart = some p ∧
      p.Takes left.rows right.rows lStart rStart ∧
      Corner (rowMatrix cmp left.rows right.rows) left.rows.length right.rows.length
        p.lEnd p.rEnd ∧ p.lEnd + p.rEnd =
        min (lStart + rStart + cap) (left.rows.length + right.rows.length) := by
  obtain ⟨lEnd, rEnd, got, left_le, right_le, corner, sum⟩ := partitionEnd_spec asc asc' cap lo
  obtain ⟨leftRows, leftInside⟩ := left.createSlice_spec left_le corner.left_le
  obtain ⟨rightRows, rightInside⟩ := right.createSlice_spec right_le corner.right_le
  refine ⟨⟨left.createSlice lStart lEnd, right.createSlice rStart rEnd, lEnd, rEnd⟩, ?_,
    ⟨left_le, right_le, leftRows, rightRows, leftInside, rightInside⟩, corner, sum⟩
  rw [getNextPartition, got]
  rfl

end

end

end

end AccessPath
