import AccessPath.Constants
import AccessPath.Sort.MergeSorter

/-!
# Merging a partition

For a batch of rows it is first computed from which side each row comes, and then the rows are
copied. The loops have a bound on their rounds here, and `none` stands for one that does not end.
-/

namespace AccessPath

open Library SBScanState List Option

section

variable {α : Type} (cmp : α → α → Ordering)

/-- `ComputeMerge`: for each of the next rows, whether it comes from the left. The loop
through two blocks is taken row by row, as moving on does nothing inside of a block. -/
def computeMerge : Nat → Nat → SBScanState α → SBScanState α → Option (List Bool)
  | _, 0, _, _ => some []
  | 0, _ + 1, _, _ => none
  | fuel + 1, count + 1, l, r =>
    if l.nextBlock.done || r.nextBlock.done then some []
    else
      match l.nextBlock.current, r.nextBlock.current with
      | some a, some b =>
        if cmp a b = .lt then
          (computeMerge fuel count (l.nextBlock.advance 1) r.nextBlock).map (true :: ·)
        else (computeMerge fuel count l.nextBlock (r.nextBlock.advance 1)).map (false :: ·)
      | _, _ => computeMerge fuel (count + 1) l.nextBlock r.nextBlock

/-- `MergeRadix`, with `MergeRows` as long as both sides have rows and `FlushRows` after that,
into a target block of a fixed capacity. -/
def mergeRadix (capacity : Nat) : Nat → Nat → List Bool → SBScanState α → SBScanState α → List α →
    Option (SBScanState α × SBScanState α × List α)
  | _, 0, _, l, r, target => some (l, r, target)
  | 0, _ + 1, _, _, _, _ => none
  | fuel + 1, count + 1, leftSmaller, l, r, target =>
    if r.nextBlock.done then
      let rows := l.nextBlock.blockRows.take (min (count + 1) (capacity - target.length))
      mergeRadix capacity fuel (count + 1 - rows.length) (leftSmaller.drop rows.length)
        (l.nextBlock.advance rows.length) r.nextBlock (target ++ rows)
    else if l.nextBlock.done then
      let rows := r.nextBlock.blockRows.take (min (count + 1) (capacity - target.length))
      mergeRadix capacity fuel (count + 1 - rows.length) (leftSmaller.drop rows.length)
        l.nextBlock (r.nextBlock.advance rows.length) (target ++ rows)
    else if target.length < capacity then
      match l.nextBlock.current, r.nextBlock.current with
      | some a, some b =>
        match leftSmaller with
        | [] => none
        | lSmaller :: leftSmaller =>
          if lSmaller then
            mergeRadix capacity fuel count leftSmaller (l.nextBlock.advance 1) r.nextBlock
              (target ++ [a])
          else
            mergeRadix capacity fuel count leftSmaller l.nextBlock (r.nextBlock.advance 1)
              (target ++ [b])
      | _, _ => mergeRadix capacity fuel (count + 1) leftSmaller l.nextBlock r.nextBlock target
    else mergeRadix capacity fuel (count + 1) leftSmaller l.nextBlock r.nextBlock target

/-- Rounds that are enough for a batch. -/
def batchRounds (count : Nat) (l r : SBScanState α) : Nat := count + l.blocksLeft + r.blocksLeft

/-- The merge of a batch is not computed if one side is exhausted. -/
def batchSides (next : Nat) (l r : SBScanState α) : Option (List Bool) :=
  if l.remaining ≠ 0 ∧ r.remaining ≠ 0 then computeMerge cmp (batchRounds next l r) next l r
  else some []

/-- The loop of `MergePartition`. -/
def mergeBatches (capacity : Nat) : Nat → SBScanState α → SBScanState α → List α → Option (List α)
  | 0, _, _, _ => none
  | fuel + 1, l, r, target =>
    if l.remaining + r.remaining = 0 then some target
    else do
      let next := min (l.remaining + r.remaining) standardVectorSize
      let leftSmaller ← batchSides cmp next l r
      let (l', r', target) ← mergeRadix capacity (batchRounds next l r) next leftSmaller l r target
      mergeBatches capacity fuel l' r' target

/-- The capacity of the block that `InitializeWrite` creates for entries of some size. -/
def targetCapacity (entrySize blockCapacity : Nat) : Nat :=
  max ((blockSize + entrySize - 1) / entrySize) blockCapacity

def mergePartition (entrySize blockCapacity : Nat) (l r : SBScanState α) : Option (List α) :=
  mergeBatches cmp (targetCapacity entrySize blockCapacity) (l.remaining + r.remaining + 1) l r []

end

/-! ## Which side is next -/

section

variable {α : Type} {cmp : α → α → Ordering}

/-- The sides of the first rows of a merge, as long as both sides have rows. -/
def leftFirst (cmp : α → α → Ordering) : Nat → List α → List α → List Bool
  | 0, _, _ => []
  | _ + 1, [], _ => []
  | _ + 1, _ :: _, [] => []
  | count + 1, a :: l, b :: r =>
    if cmp a b = .lt then true :: leftFirst cmp count l (b :: r)
    else false :: leftFirst cmp count (a :: l) r

theorem leftFirst_nil_left (n : Nat) (r : List α) : leftFirst cmp n [] r = [] := by
  cases n with
  | zero => rfl
  | succ n => rfl

theorem leftFirst_nil_right (n : Nat) (l : List α) : leftFirst cmp n l [] = [] := by
  cases n with
  | zero => rfl
  | succ n =>
    cases l with
    | nil => rfl
    | cons a l => rfl

section

variable {m n : Nat} {l r : SBScanState α} (hl : l.Inside) (hr : r.Inside)
include hl hr

theorem rounds_nextBlock (le : batchRounds (n + 1) l r ≤ m + 1) :
    batchRounds n l.nextBlock r.nextBlock ≤ m := by
  have hl' := nextBlock_blocksLeft hl
  have hr' := nextBlock_blocksLeft hr
  rw [batchRounds] at le ⊢
  omega

theorem rounds_stuck (le : batchRounds (n + 1) l r ≤ m + 1)
    (fewer : l.nextBlock.blocksLeft < l.blocksLeft ∨ r.nextBlock.blocksLeft < r.blocksLeft) :
    batchRounds (n + 1) l.nextBlock r.nextBlock ≤ m := by
  have hl' := nextBlock_blocksLeft hl
  have hr' := nextBlock_blocksLeft hr
  rw [batchRounds] at le ⊢
  omega

theorem computeMerge_eq (le : batchRounds n l r ≤ m) :
    computeMerge cmp m n l r = some (leftFirst cmp n l.rows r.rows) := by
  induction m generalizing n l r with
  | zero =>
    obtain rfl : n = 0 := by rw [batchRounds] at le; omega
    rfl
  | succ m ih =>
    cases n with
    | zero => rfl
    | succ n =>
      have hl' := nextBlock_inside hl
      have hr' := nextBlock_inside hr
      rw [computeMerge, ← nextBlock_rows hl, ← nextBlock_rows hr]
      cases doneLeft : l.nextBlock.done with
      | true =>
        rw [Bool.true_or, if_pos rfl, done_rows hl' doneLeft, leftFirst_nil_left]
      | false =>
      cases doneRight : r.nextBlock.done with
      | true =>
        rw [Bool.or_true, if_pos rfl, done_rows hr' doneRight, leftFirst_nil_right]
      | false =>
      rw [Bool.or_self, if_neg Bool.false_ne_true]
      cases currentLeft : l.nextBlock.current with
      | none =>
        exact ih hl' hr' (rounds_stuck hl hr le (.inl (nextBlock_stuck hl doneLeft currentLeft)))
      | some a =>
      cases currentRight : r.nextBlock.current with
      | none =>
        exact ih hl' hr' (rounds_stuck hl hr le (.inr (nextBlock_stuck hr doneRight currentRight)))
      | some b =>
      have rounds := rounds_nextBlock hl hr le
      rw [current_rows currentLeft, current_rows currentRight, leftFirst]
      dsimp only
      split_ifs with less
      · rw [ih (current_inside hl' currentLeft) hr' rounds, current_rows currentRight]
        rfl
      · rw [ih hl' (current_inside hr' currentRight) rounds, current_rows currentLeft]
        rfl

end

/-! ## Copying -/

/-- What a batch does: rows are moved from the front of the merge to the target. -/
structure Copied (cmp : α → α → Ordering) (count : Nat) (l r : List α) (target : List α)
    (l' r' : SBScanState α) (target' : List α) : Prop where
  left_inside : l'.Inside
  right_inside : r'.Inside
  target_eq : target' = target ++ (mergeRows cmp l r).take count
  rest : mergeRows cmp l'.rows r'.rows = (mergeRows cmp l r).drop count

theorem length_mergeRows (l r : List α) : (mergeRows cmp l r).length = l.length + r.length := by
  rw [mergeRows, length_merge]

theorem Copied.prepend {n : Nat} {l r l₁ r₁ t t' : List α} {l' r' : SBScanState α}
    (rows : List α) (split : mergeRows cmp l r = rows ++ mergeRows cmp l₁ r₁) (le : rows.length ≤ n)
    (copied : Copied cmp (n - rows.length) l₁ r₁ (t ++ rows) l' r' t') :
    Copied cmp n l r t l' r' t' := by
  obtain ⟨hl, hr, target_eq, rest⟩ := copied
  obtain ⟨_, rfl⟩ := Nat.exists_eq_add_of_le le
  rw [Nat.add_sub_cancel_left] at target_eq rest
  refine ⟨hl, hr, ?_, ?_⟩
  · rw [target_eq, split, take_length_add_append, append_assoc]
  · rw [rest, split, drop_length_add_append]

/-- A batch of `count` rows that is copied as it should be. -/
def Copies (cmp : α → α → Ordering) (capacity fuel count : Nat) (l r : SBScanState α)
    (target : List α) : Prop :=
  ∃ l' r' target', mergeRadix capacity fuel count (leftFirst cmp count l.rows r.rows) l r target =
    some (l', r', target') ∧ Copied cmp count l.rows r.rows target l' r' target'

/-- What is asked of a batch. -/
structure Batch (capacity fuel count : Nat) (l r : SBScanState α) (target : List α) : Prop where
  left : l.Inside
  right : r.Inside
  enough : batchRounds count l r ≤ fuel
  available : count ≤ l.rows.length + r.rows.length
  fits : target.length + count ≤ capacity

section

variable {cap m n : Nat} {l r : SBScanState α} {target : List α}
variable (batch : Batch cap (m + 1) (n + 1) l r target)
variable (ih : ∀ {n l r target}, Batch cap m n l r target → Copies cmp cap m n l r target)

include batch ih

theorem Copies.flush_left (doneRight : r.nextBlock.done = true) :
    Copies cmp cap (m + 1) (n + 1) l r target := by
  obtain ⟨hl, hr, hn, available, _⟩ := batch
  have hr' := nextBlock_inside hr
  have rightBlocks := nextBlock_blocksLeft hr
  have noRight := done_rows hr' doneRight
  have same := nextBlock_rows hr
  rw [← same, noRight, length_nil, Nat.add_zero] at available
  obtain ⟨rows, ht, rows_eq, fit, hsh, _⟩ := flush_spec hl available
  have length := congrArg List.length rows_eq
  rw [length_append] at length
  rw [batchRounds] at hn
  obtain ⟨l', r', target', res, copied⟩ := @ih (n + 1 - rows.length)
    (l.nextBlock.advance rows.length) r.nextBlock (target ++ rows)
    ⟨fit, hr', show _ + l.nextBlock.blocksLeft + _ ≤ m by omega, by omega,
      by rw [length_append]; omega⟩
  rw [noRight, leftFirst_nil_right] at res
  rw [noRight] at copied
  rw [Copies, ← same, noRight, mergeRadix, if_pos doneRight, leftFirst_nil_right,
    show min (n + 1) (cap - target.length) = n + 1 by omega, ht]
  dsimp only
  rw [drop_nil]
  refine ⟨l', r', target', res, copied.prepend rows ?_ hsh⟩
  rw [mergeRows_nil_right, mergeRows_nil_right, rows_eq]

theorem Copies.flush_right (moreRight : r.nextBlock.done = false)
    (doneLeft : l.nextBlock.done = true) : Copies cmp cap (m + 1) (n + 1) l r target := by
  obtain ⟨hl, hr, hn, available, _⟩ := batch
  have hl' := nextBlock_inside hl
  have leftBlocks := nextBlock_blocksLeft hl
  have noLeft := done_rows hl' doneLeft
  have same := nextBlock_rows hl
  rw [← same, noLeft, length_nil, Nat.zero_add] at available
  obtain ⟨rows, ht, rows_eq, fit, hsh, _⟩ := flush_spec hr available
  have length := congrArg List.length rows_eq
  rw [length_append] at length
  rw [batchRounds] at hn
  obtain ⟨l', r', target', res, copied⟩ := @ih (n + 1 - rows.length)
    l.nextBlock (r.nextBlock.advance rows.length) (target ++ rows)
    ⟨hl', fit, show _ + _ + r.nextBlock.blocksLeft ≤ m by omega, by omega,
      by rw [length_append]; omega⟩
  rw [noLeft, leftFirst_nil_left] at res
  rw [noLeft] at copied
  rw [Copies, ← same, noLeft, mergeRadix, if_neg (Bool.not_eq_true _ ▸ moreRight),
    if_pos doneLeft, leftFirst_nil_left,
    show min (n + 1) (cap - target.length) = n + 1 by omega, ht]
  dsimp only
  rw [drop_nil]
  refine ⟨l', r', target', res, copied.prepend rows ?_ hsh⟩
  rw [mergeRows_nil_left, mergeRows_nil_left, rows_eq]

/-- A round in which both sides have rows, but maybe not in the block. -/
theorem Copies.merge (moreLeft : l.nextBlock.done = false) (moreRight : r.nextBlock.done = false) :
    Copies cmp cap (m + 1) (n + 1) l r target := by
  obtain ⟨hl, hr, hn, available, fits⟩ := batch
  have hl' := nextBlock_inside hl
  have hr' := nextBlock_inside hr
  have sameLeft := nextBlock_rows hl
  have sameRight := nextBlock_rows hr
  rw [← sameLeft, ← sameRight] at available
  rw [Copies, ← sameLeft, ← sameRight, mergeRadix, if_neg (Bool.not_eq_true _ ▸ moreRight),
    if_neg (Bool.not_eq_true _ ▸ moreLeft), if_pos (by omega)]
  cases currentLeft : l.nextBlock.current with
  | none =>
    exact ih ⟨hl', hr', rounds_stuck hl hr hn
      (.inl (nextBlock_stuck hl moreLeft currentLeft)), available, fits⟩
  | some a =>
  cases currentRight : r.nextBlock.current with
  | none =>
    exact ih ⟨hl', hr', rounds_stuck hl hr hn
      (.inr (nextBlock_stuck hr moreRight currentRight)), available, fits⟩
  | some b =>
  have rounds := rounds_nextBlock hl hr hn
  have leftRows := current_rows currentLeft
  have rightRows := current_rows currentRight
  have target_le : ∀ x : α, (target ++ [x]).length + n ≤ cap := by
    intro x
    rw [length_append, length_singleton]
    omega
  rw [leftRows, rightRows, length_cons, length_cons] at available
  rw [leftRows, rightRows, leftFirst]
  by_cases less : cmp a b = .lt
  · obtain ⟨l', r', target', res, copied⟩ := @ih n (l.nextBlock.advance 1) r.nextBlock
      (target ++ [a]) ⟨current_inside hl' currentLeft, hr', rounds,
        by rw [rightRows, length_cons]; omega, target_le a⟩
    rw [if_pos less]
    dsimp only
    rw [if_pos rfl, ← rightRows]
    refine ⟨l', r', target', res, Copied.prepend [a] ?_ (Nat.succ_pos _) copied⟩
    rw [rightRows, mergeRows_cons, if_pos less]
    rfl
  · obtain ⟨l', r', target', res, copied⟩ := @ih n l.nextBlock (r.nextBlock.advance 1)
      (target ++ [b]) ⟨hl', current_inside hr' currentRight, rounds,
        by rw [leftRows, length_cons]; omega, target_le b⟩
    rw [if_neg less]
    dsimp only
    rw [if_neg Bool.false_ne_true, ← leftRows]
    refine ⟨l', r', target', res, Copied.prepend [b] ?_ (Nat.succ_pos _) copied⟩
    rw [leftRows, mergeRows_cons, if_neg less]
    rfl

end

/-- The rows of a batch are copied in the order of the merge. -/
theorem mergeRadix_spec {cap m n : Nat} {l r : SBScanState α} {t : List α}
    (batch : Batch cap m n l r t) : Copies cmp cap m n l r t := by
  induction m generalizing n l r t with
  | zero =>
    obtain rfl : n = 0 := by
      have hn := batch.enough
      rw [batchRounds] at hn
      omega
    exact ⟨l, r, t, rfl, batch.left, batch.right, (append_nil _).symm, rfl⟩
  | succ m ih =>
    cases n with
    | zero => exact ⟨l, r, t, rfl, batch.left, batch.right, (append_nil _).symm, rfl⟩
    | succ n =>
      cases doneRight : r.nextBlock.done with
      | true => exact Copies.flush_left batch ih doneRight
      | false =>
        cases doneLeft : l.nextBlock.done with
        | true => exact Copies.flush_right batch ih doneRight doneLeft
        | false => exact Copies.merge batch ih doneLeft doneRight

/-! ## The partition -/

theorem batchSides_eq {l r : SBScanState α} (hl : l.Inside) (hr : r.Inside) (next : Nat) :
    batchSides cmp next l r = some (leftFirst cmp next l.rows r.rows) := by
  rw [batchSides]
  split_ifs with both
  · exact computeMerge_eq hl hr (le_refl _)
  · rw [l.remaining_eq, r.remaining_eq, ne_eq, ne_eq, length_eq_zero_iff,
      length_eq_zero_iff, Classical.not_and_iff_not_or_not, not_not, not_not] at both
    obtain exhausted | exhausted := both
    · rw [exhausted, leftFirst_nil_left]
    · rw [exhausted, leftFirst_nil_right]

theorem mergeBatches_eq {cap n : Nat} {l r : SBScanState α} {t : List α}
    (hl : l.Inside) (hr : r.Inside) (fits : t.length + (l.rows.length + r.rows.length) ≤ cap)
    (lt : l.rows.length + r.rows.length < n) :
    mergeBatches cmp cap n l r t = some (t ++ mergeRows cmp l.rows r.rows) := by
  induction n generalizing l r t with
  | zero => omega
  | succ n ih =>
    have tot := @length_mergeRows α cmp l.rows r.rows
    rw [mergeBatches, l.remaining_eq, r.remaining_eq]
    split_ifs with finished
    · rw [← tot, length_eq_zero_iff] at finished
      rw [finished, append_nil]
    · have vector := standardVectorSize_pos
      dsimp only
      generalize next_eq : min (l.rows.length + r.rows.length) standardVectorSize = next
      obtain ⟨_, _, _, res, fit, fit', rfl, rest⟩ := @mergeRadix_spec α cmp
        cap (batchRounds next l r) next l r t
        ⟨hl, hr, le_refl _, by omega, by omega⟩
      have left_total := congrArg List.length rest
      rw [length_mergeRows, length_drop, tot] at left_total
      rw [batchSides_eq hl hr, bind_eq_bind, bind_some, res]
      simp only [bind_eq_bind, bind_some]
      rw [ih fit fit' ?_ (by omega), rest, append_assoc, take_append_drop]
      rw [length_append, length_take, tot]
      omega

theorem mergePartition_eq (entrySize : Nat) {blockCapacity : Nat} {l r : SBScanState α}
    (hl : l.Inside) (hr : r.Inside) (fits : l.rows.length + r.rows.length ≤ blockCapacity) :
    mergePartition cmp entrySize blockCapacity l r = some (mergeRows cmp l.rows r.rows) := by
  rw [mergePartition, l.remaining_eq, r.remaining_eq,
    mergeBatches_eq hl hr ?_ (Nat.lt_succ_self _), nil_append]
  rw [length_nil, Nat.zero_add, targetCapacity]
  exact le_max_of_le_right fits

end

end AccessPath
