import AccessPath.Sort.MergePartition

/-!
# Merging two sorted blocks

Partitions are taken one after the other under a lock and merged independently, each into a
place that is fixed when it is taken.
-/

namespace AccessPath

open Library List Option

/-- A merged partition, with the rows of both blocks at which it starts and ends. -/
structure MergedPartition (α : Type) where
  lStart : Nat
  rStart : Nat
  lEnd : Nat
  rEnd : Nat
  rows : List α

section

variable {α : Type} (cmp : α → α → Ordering) (left right : SortedBlock α)
variable (entrySize blockCapacity : Nat)

/-- The part of `PerformInMergeRound` for one pair of blocks: it goes on to the next pair when
both blocks are at their ends. -/
def mergePair : Nat → Nat → Nat → Option (List (MergedPartition α))
  | 0, _, _ => none
  | fuel + 1, lStart, rStart => do
    let partition ← getNextPartition cmp left right blockCapacity lStart rStart
    let rows ← mergePartition cmp entrySize blockCapacity partition.left partition.right
    let merged := ⟨lStart, rStart, partition.lEnd, partition.rEnd, rows⟩
    if partition.lEnd = left.count ∧ partition.rEnd = right.count then return [merged]
    else (mergePair fuel partition.lEnd partition.rEnd).map (merged :: ·)

end

/-- Partitions from some rows to the end of both lists, each with the rows between its start
and its end. -/
inductive Partitions {α : Type} (left right : List α) : Nat → Nat → List (MergedPartition α) → Prop
  | done : Partitions left right left.length right.length []
  | next {lStart rStart lEnd rEnd : Nat} {rows : List α} {later : List (MergedPartition α)}
      (left_mono : lStart ≤ lEnd) (right_mono : rStart ≤ rEnd)
      (perm : rows.Perm ((left.take lEnd).drop lStart ++ (right.take rEnd).drop rStart))
      (rest : Partitions left right lEnd rEnd later) :
      Partitions left right lStart rStart (⟨lStart, rStart, lEnd, rEnd, rows⟩ :: later)

/-- All rows of some partitions. -/
def mergedRows {α : Type} (partitions : List (MergedPartition α)) : List α :=
  partitions.flatMap MergedPartition.rows

section

variable {α : Type} {cmp : α → α → Ordering} {lh rh : SortedBlock α}

theorem drop_take_append_drop (rows : List α) {lo stop : Nat} (le : lo ≤ stop) :
    (rows.take stop).drop lo ++ rows.drop stop = rows.drop lo := by
  obtain ⟨_, rfl⟩ := Nat.exists_eq_add_of_le le
  rw [drop_take, Nat.add_sub_cancel_left, ← drop_drop, take_append_drop]

theorem Partitions.perm {lh rh : List α} {lStart rStart : Nat}
    {partitions : List (MergedPartition α)} (covered : Partitions lh rh lStart rStart partitions) :
    (mergedRows partitions).Perm (lh.drop lStart ++ rh.drop rStart) := by
  induction covered with
  | done => rw [drop_length, drop_length]; exact List.Perm.nil
  | @next lStart rStart lEnd rEnd rows hl left_mono right_mono perm rest ih =>
    rw [← drop_take_append_drop lh left_mono, ← drop_take_append_drop rh right_mono]
    refine (perm.append ih).trans ?_
    rw [append_assoc, append_assoc]
    refine List.Perm.append_left _ ?_
    rw [← append_assoc, ← append_assoc]
    exact List.Perm.append_right _ perm_append_comm

section

variable [Std.TransCmp cmp] (asc : SortedBy cmp lh.rows) (asc' : SortedBy cmp rh.rows)
variable {entrySize blockCapacity : Nat}

/-- What a run from a point on leaves. -/
structure MergedInOrder (cmp : α → α → Ordering) (left right : List α)
    (blockCapacity lStart rStart : Nat) (partitions : List (MergedPartition α)) : Prop where
  covered : Partitions left right lStart rStart partitions
  full : ∀ partition ∈ partitions.dropLast, partition.rows.length = blockCapacity
  limit : ∀ partition ∈ partitions, partition.rows.length ≤ blockCapacity
  ordered : SortedBy cmp (mergedRows partitions)

omit [Std.TransCmp cmp] in
/-- One more partition before others that start at a split of the lists. -/
theorem MergedInOrder.cons {lh rh : List α} {lStart rStart lEnd rEnd : Nat} {rows : List α}
    {ps : List (MergedPartition α)}
    (merged : MergedInOrder cmp lh rh blockCapacity lEnd rEnd ps)
    (split : IsSplit cmp lh rh lEnd rEnd) (left_mono : lStart ≤ lEnd) (right_mono : rStart ≤ rEnd)
    (perm : rows.Perm ((lh.take lEnd).drop lStart ++ (rh.take rEnd).drop rStart))
    (ord : SortedBy cmp rows) (limit : rows.length ≤ blockCapacity)
    (full : ps ≠ [] → rows.length = blockCapacity) :
    MergedInOrder cmp lh rh blockCapacity lStart rStart
      (⟨lStart, rStart, lEnd, rEnd, rows⟩ :: ps) := by
  refine ⟨.next left_mono right_mono perm merged.covered, ?_, ?_, ?_⟩
  · cases ps with
    | nil =>
      intro p mem
      exact absurd mem not_mem_nil
    | cons snd ps =>
      rw [dropLast_cons_of_ne_nil (cons_ne_nil _ _)]
      intro p mem
      obtain rfl | mem := mem_cons.mp mem
      · exact full (cons_ne_nil _ _)
      · exact merged.full p mem
  · intro p mem
    obtain rfl | mem := mem_cons.mp mem
    · exact limit
    · exact merged.limit p mem
  · refine pairwise_append.mpr ⟨ord, merged.ordered, ?_⟩
    intro a old b aft
    exact split.between (perm.mem_iff.mp old) (merged.covered.perm.mem_iff.mp aft)

include asc asc'

/-- From every point on, the partitions are those of the rest of both blocks. -/
theorem mergePair_spec {fuel lStart rStart : Nat}
    (lo : Corner (rowMatrix cmp lh.rows rh.rows) lh.rows.length rh.rows.length
      lStart rStart) (promised : lh.rows.length + rh.rows.length ≠ 0 → 0 < blockCapacity)
    (enough : lh.rows.length + rh.rows.length < fuel + (lStart + rStart)) :
    ∃ partitions, mergePair cmp lh rh entrySize blockCapacity fuel lStart rStart = some partitions ∧
      MergedInOrder cmp lh.rows rh.rows blockCapacity lStart rStart partitions := by
  induction fuel generalizing lStart rStart with
  | zero =>
    have := lo.left_le
    have := lo.right_le
    omega
  | succ fuel ih =>
    obtain ⟨p, ht, takes, corner, _⟩ := getNextPartition_spec asc asc' blockCapacity lo
    obtain ⟨left_mono, right_mono, leftRows, rightRows, leftInside, rightInside⟩ := takes
    have left_le := corner.left_le
    have right_le := corner.right_le
    have lengths : p.left.rows.length + p.right.rows.length =
        p.lEnd + p.rEnd - (lStart + rStart) := by
      rw [leftRows, rightRows]
      simp only [length_drop, length_take]
      omega
    have merged := @mergePartition_eq α cmp entrySize blockCapacity _ _ leftInside rightInside
      (by omega)
    have perm : (mergeRows cmp p.left.rows p.right.rows).Perm
        ((lh.rows.take p.lEnd).drop lStart ++
          (rh.rows.take p.rEnd).drop rStart) := by
      rw [leftRows, rightRows]
      exact merge_perm_append _
    have ord : SortedBy cmp (mergeRows cmp p.left.rows p.right.rows) := by
      rw [leftRows, rightRows]
      exact (asc.sublist ((drop_sublist _ _).trans (take_sublist _ _))).merge
        (asc'.sublist ((drop_sublist _ _).trans (take_sublist _ _)))
    have length : (mergeRows cmp p.left.rows p.right.rows).length =
        p.lEnd + p.rEnd - (lStart + rStart) := by
      rw [length_mergeRows, lengths]
    have split := corner.isSplit asc asc'
    rw [mergePair, ht, bind_eq_bind, bind_some, merged, bind_eq_bind,
      bind_some, lh.count_eq, rh.count_eq]
    split_ifs with finished
    · refine ⟨_, rfl, MergedInOrder.cons ?_ split left_mono right_mono perm ord (by omega) ?_⟩
      · rw [finished.1, finished.2]
        exact ⟨.done, fun _ mem => absurd mem not_mem_nil,
          fun _ mem => absurd mem not_mem_nil, List.Pairwise.nil⟩
      · exact fun more => absurd rfl more
    · obtain ⟨_, r, rest⟩ := ih corner (by omega)
      rw [r]
      exact ⟨_, rfl, rest.cons split left_mono right_mono perm ord (by omega) fun _ => by omega⟩

end

/-- Two sorted blocks are merged to a sorted permutation of their rows, in partitions that
follow each other in both blocks and have exactly the capacity, except for the last one. The
capacity is the number of rows of one of the blocks to be merged, so it is positive if there
are rows. -/
theorem mergePair_correct [Std.TransCmp cmp] (left right : SortedBlock α)
    (sorted : SortedBy cmp left.rows) (sorted' : SortedBy cmp right.rows)
    (entrySize blockCapacity : Nat) (promised : left.count + right.count ≠ 0 → 0 < blockCapacity) :
    ∃ partitions, mergePair cmp left right entrySize blockCapacity (left.count + right.count + 1)
        0 0 = some partitions ∧ Partitions left.rows right.rows 0 0 partitions ∧
      (∀ partition ∈ partitions.dropLast, partition.rows.length = blockCapacity) ∧
      (∀ partition ∈ partitions, partition.rows.length ≤ blockCapacity) ∧
      SortedBy cmp (mergedRows partitions) ∧
      (mergedRows partitions).Perm (left.rows ++ right.rows) := by
  rw [left.count_eq, right.count_eq] at promised ⊢
  obtain ⟨partitions, result, covered, full, limit, ordered⟩ := mergePair_spec sorted sorted'
    (Corner.origin _ _ _) promised (Nat.lt_succ_self _)
  exact ⟨partitions, result, covered, full, limit, ordered, covered.perm⟩

/-- Rows that are equal on both sides, in blocks of different sizes. -/
theorem mergePair_correct_ties :
    ∃ partitions, mergePair compare ⟨[[1, 3], [3, 3, 5]], by decide⟩ ⟨[[2, 3, 3]], by decide⟩
        8 3 9 0 0 = some partitions ∧ SortedBy compare (mergedRows partitions) ∧
      (mergedRows partitions).Perm [1, 3, 3, 3, 5, 2, 3, 3] := by
  obtain ⟨partitions, result, _, _, _, ordered, perm⟩ :=
    @mergePair_correct Nat compare _ ⟨[[1, 3], [3, 3, 5]], by decide⟩
      ⟨[[2, 3, 3]], by decide⟩ (by unfold SortedBy; decide) (by unfold SortedBy; decide) 8 3
      fun _ => by decide
  exact ⟨partitions, result, ordered, perm⟩

end

end AccessPath
