import Mathlib.Data.List.Basic
import Mathlib.Order.Basic
import Mathlib.Data.Nat.Basic

/-!
# Merging along a path

In the matrix of comparisons of two sorted lists, a staircase separates what is greater from what
is less. A point on it splits both lists so that all elements before it are at most those after it,
and the parts between such points can be merged one by one.
-/

namespace AccessPath.Library

open List Nat

variable {i j l l' r r' : Nat}

/-! ## The matrix -/

/-- Comparisons that only become greater with the row and only become less with the column. -/
structure Staircase (c : Nat → Nat → Ordering) (m n : Nat) : Prop where
  gt : ∀ {i i' j j'}, c i j = .gt → i ≤ i' → i' < m → j' ≤ j → j < n → c i' j' = .gt
  lt : ∀ {i i' j j'}, c i j = .lt → i' ≤ i → i < m → j ≤ j' → j' < n → c i' j' = .lt

/-- A point of the staircase. -/
structure Corner (c : Nat → Nat → Ordering) (m n l r : Nat) : Prop where
  left_le : l ≤ m
  right_le : r ≤ n
  before : ∀ {i j}, i < l → r ≤ j → j < n → c i j ≠ .gt
  after : ∀ {i j}, l ≤ i → i < m → j < r → c i j ≠ .lt

section

variable {c : Nat → Nat → Ordering} {m n : Nat}

/-- It is enough to look at the two entries next to the point. -/
theorem Staircase.corner (stairs : Staircase c m n) (lh : l ≤ m) (rh : r ≤ n)
    (pre : 0 < l → r < n → c (l - 1) r ≠ .gt) (aft : 0 < r → l < m → c l (r - 1) ≠ .lt) :
    Corner c m n l r := by
  refine ⟨lh, rh, ?_, ?_⟩
  · intro i j less more fit gt
    exact pre (by omega) (by omega) (stairs.gt gt (by omega) (by omega) more fit)
  · intro i j more fit less hsm
    exact aft (by omega) (by omega) (stairs.lt hsm more fit (by omega) (by omega))

/-- One step down the diagonal from a point at which the left element is not less. -/
theorem Staircase.corner_down (stairs : Staircase c m n) (lh : l < m) (rh : r < n)
    (notLess : c l r ≠ .lt) (edge : l = 0 ∨ r + 1 = n ∨ c l (r + 1) ≠ .gt) :
    Corner c m n l (r + 1) := by
  apply stairs.corner lh.le rh
  · intro pos fit gt
    obtain _ | _ | notGreater := edge
    · omega
    · omega
    · exact notGreater (stairs.gt gt (sub_le _ _) lh (le_refl _) fit)
  · intro _ _
    exact notLess

/-! Comparisons that take what lies before a known point for granted. -/

/-- Left of the point everything is less, and above it greater. -/
def resumed (c : Nat → Nat → Ordering) (l r i j : Nat) : Ordering :=
  if i < l then .lt else if j < r then .gt else c i j

theorem resumed_eq {l r i j : Nat} (lh : l ≤ i) (rh : r ≤ j) : resumed c l r i j = c i j := by
  rw [resumed, if_neg (Nat.not_lt_of_le lh), if_neg (Nat.not_lt_of_le rh)]

theorem Staircase.resumed (stairs : Staircase c m n) (l r : Nat) :
    Staircase (resumed c l r) m n := by
  constructor
  · intro i i' j j' gt more fit less fit'
    rw [Library.resumed] at gt ⊢
    split_ifs at gt with lh rh
    · rw [if_neg (by omega), if_pos (by omega)]
    · rw [if_neg (by omega)]
      split_ifs with rh'
      · rfl
      · exact stairs.gt gt more fit less fit'
  · intro i i' j j' hsm less fit more fit'
    rw [Library.resumed] at hsm ⊢
    split_ifs at hsm with lh rh
    · rw [if_pos (by omega)]
    · split_ifs with lh' rh'
      · rfl
      · omega
      · exact stairs.lt hsm less fit more fit'

/-- A point that is found from a known one lies behind it, and is a point of the staircase. -/
theorem Corner.resume (known : Corner c m n l r) (corner : Corner (resumed c l r) m n l' r')
    (le : l + r ≤ l' + r') : l ≤ l' ∧ r ≤ r' ∧ Corner c m n l' r' := by
  have left_le : l ≤ l' := by
    by_contra less
    have fit := known.left_le
    refine corner.after (i := l') (j := 0) (le_refl _) (by omega) (by omega) ?_
    rw [resumed, if_pos (by omega)]
  have right_le : r ≤ r' := by
    by_contra less
    have fit := known.right_le
    refine corner.before (i := l' - 1) (j := r') (by omega) (le_refl _) (by omega) ?_
    rw [resumed, if_neg (by omega), if_pos (by omega)]
  refine ⟨left_le, right_le, corner.left_le, corner.right_le, ?_, ?_⟩
  · intro i j pre aft fit
    rcases lt_or_ge i l with less | more
    · exact known.before less (right_le.trans aft) fit
    · rw [← @resumed_eq c l r i j more (right_le.trans aft)]
      exact corner.before pre aft fit
  · intro i j aft fit pre
    rcases lt_or_ge j r with less | more
    · exact known.after (left_le.trans aft) fit less
    · rw [← @resumed_eq c l r i j (left_le.trans aft) more]
      exact corner.after aft fit pre

theorem Corner.origin (c : Nat → Nat → Ordering) (m n : Nat) : Corner c m n 0 0 := by
  refine ⟨zero_le _, zero_le _, ?_, ?_⟩
  · intro i j less
    omega
  · intro i j _ _ less
    omega

theorem Corner.full (c : Nat → Nat → Ordering) (m n : Nat) : Corner c m n m n := by
  refine ⟨le_refl _, le_refl _, ?_, ?_⟩
  · intro i j _ more less
    omega
  · intro i j more less
    omega

end

/-! ## Lists -/

section

variable {α : Type} (cmp : α → α → Ordering)

/-- Rows in ascending order, with ties in any order. -/
def SortedBy (rows : List α) : Prop := rows.Pairwise fun a b => (cmp a b).isLE = true

/-- Rows of both lists, where a row of the left list goes first only if it is less. -/
def mergeRows (left right : List α) : List α := left.merge right fun a b => cmp a b == .lt

/-- Both lists are split so that all rows before are at most the rows after. -/
structure IsSplit (left right : List α) (l r : Nat) : Prop where
  left_le : l ≤ left.length
  right_le : r ≤ right.length
  across : ∀ a ∈ left.take l ++ right.take r, ∀ b ∈ left.drop l ++ right.drop r,
    (cmp a b).isLE = true

/-- The comparisons of two lists. -/
def rowMatrix (left right : List α) (i j : Nat) : Ordering :=
  match left[i]?, right[j]? with
  | some a, some b => cmp a b
  | _, _ => .eq

variable {cmp} {lh rh : List α}

theorem rowMatrix_eq (inLeft : i < lh.length) (inRight : j < rh.length) :
    rowMatrix cmp lh rh i j = cmp lh[i] rh[j] := by
  rw [rowMatrix, getElem?_eq_getElem inLeft, getElem?_eq_getElem inRight]

theorem SortedBy.getElem {rows : List α} (asc : SortedBy cmp rows) [Std.ReflCmp cmp] (le : i ≤ j)
    (lt : j < rows.length) : (cmp rows[i] rows[j]).isLE = true := by
  obtain rfl | less := le.eq_or_lt
  · exact Ordering.isLE_of_eq_eq Std.ReflCmp.compare_self
  · exact pairwise_iff_getElem.mp asc i j (by omega) lt less

theorem SortedBy.take_drop {rows : List α} (asc : SortedBy cmp rows) (n : Nat) {a b : α}
    (pre : a ∈ rows.take n) (aft : b ∈ rows.drop n) : (cmp a b).isLE = true := by
  have split : SortedBy cmp (rows.take n ++ rows.drop n) := by
    rw [take_append_drop]
    exact asc
  exact (pairwise_append.mp split).2.2 a pre b aft

/-- Rows between two points come before those after the second. -/
theorem IsSplit.between {a b : α} (split : IsSplit cmp lh rh l' r')
    (pre : a ∈ (lh.take l').drop l ++ (rh.take r').drop r)
    (aft : b ∈ lh.drop l' ++ rh.drop r') : (cmp a b).isLE = true := by
  refine split.across a ?_ b aft
  obtain inLeft | inRight := mem_append.mp pre
  · exact mem_append_left _ (mem_of_mem_drop inLeft)
  · exact mem_append_right _ (mem_of_mem_drop inRight)

theorem SortedBy.sublist {rows rows' : List α} (asc : SortedBy cmp rows)
    (sublist : rows'.Sublist rows) : SortedBy cmp rows' :=
  List.Pairwise.sublist sublist asc

theorem mem_merge {l r : List α} {x : α} (mem : x ∈ mergeRows cmp l r) : x ∈ l ∨ x ∈ r :=
  mem_append.mp ((merge_perm_append _).mem_iff.mp mem)

theorem mergeRows_cons (a b : α) (l r : List α) : mergeRows cmp (a :: l) (b :: r) =
    if cmp a b = .lt then a :: mergeRows cmp l (b :: r) else b :: mergeRows cmp (a :: l) r := by
  rw [mergeRows, cons_merge_cons]
  simp only [beq_iff_eq]
  rfl

theorem mergeRows_nil_left (r : List α) : mergeRows cmp [] r = r := nil_merge r

theorem mergeRows_nil_right (l : List α) : mergeRows cmp l [] = l := merge_right l

variable [Std.TransCmp cmp]

theorem isLE_of_ne_lt {a b : α} (notLess : cmp a b ≠ .lt) : (cmp b a).isLE = true := by
  rw [@Std.OrientedCmp.eq_swap α cmp _ b a]
  cases h : cmp a b with
  | lt => exact absurd h notLess
  | eq | gt => rfl

theorem gt_of_gt {a a' b b' : α} (gt : cmp a b = .gt) (left : (cmp a a').isLE = true)
    (right : (cmp b' b).isLE = true) : cmp a' b' = .gt := by
  have less := Std.OrientedCmp.gt_iff_lt.mp gt
  exact Std.OrientedCmp.gt_iff_lt.mpr
    (Std.TransCmp.lt_of_lt_of_isLE (Std.TransCmp.lt_of_isLE_of_lt right less) left)

theorem lt_of_lt {a a' b b' : α} (less : cmp a b = .lt) (lh : (cmp a' a).isLE = true)
    (rh : (cmp b b').isLE = true) : cmp a' b' = .lt :=
  Std.TransCmp.lt_of_lt_of_isLE (Std.TransCmp.lt_of_isLE_of_lt lh less) rh

theorem SortedBy.merge {l r : List α} (asc : SortedBy cmp l) (asc' : SortedBy cmp r) :
    SortedBy cmp (mergeRows cmp l r) := by
  induction l generalizing r with
  | nil => rwa [mergeRows_nil_left]
  | cons a l ihLeft =>
    obtain ⟨least, rest⟩ := pairwise_cons.mp asc
    induction r with
    | nil => rwa [mergeRows_nil_right]
    | cons b r ihRight =>
      obtain ⟨least', rest'⟩ := pairwise_cons.mp asc'
      rw [mergeRows_cons]
      split_ifs with less
      · refine pairwise_cons.mpr ⟨?_, ihLeft rest asc'⟩
        intro x mem
        obtain inLeft | inRight := mem_merge mem
        · exact least x inLeft
        · have first : (cmp a b).isLE = true := by rw [less]; rfl
          obtain rfl | hl := mem_cons.mp inRight
          · exact first
          · exact Std.TransCmp.isLE_trans first (least' x hl)
      · refine pairwise_cons.mpr ⟨?_, ihRight rest'⟩
        intro x mem
        have first := isLE_of_ne_lt less
        obtain inLeft | inRight := mem_merge mem
        · obtain rfl | hl := mem_cons.mp inLeft
          · exact first
          · exact Std.TransCmp.isLE_trans first (least x hl)
        · exact least' x inRight

theorem SortedBy.staircase (asc : SortedBy cmp lh) (asc' : SortedBy cmp rh) :
    Staircase (rowMatrix cmp lh rh) lh.length rh.length := by
  constructor
  · intro i i' j j' gt more fit less fit'
    rw [rowMatrix_eq (by omega) fit'] at gt
    rw [rowMatrix_eq fit (by omega)]
    exact gt_of_gt gt (asc.getElem more fit) (asc'.getElem less fit')
  · intro i i' j j' hsm less fit more fit'
    rw [rowMatrix_eq fit (by omega)] at hsm
    rw [rowMatrix_eq (by omega) fit']
    exact lt_of_lt hsm (asc.getElem less fit) (asc'.getElem more fit')

theorem Corner.isSplit (asc : SortedBy cmp lh) (asc' : SortedBy cmp rh)
    (corner : Corner (rowMatrix cmp lh rh) lh.length rh.length l r) :
    IsSplit cmp lh rh l r := by
  refine ⟨corner.left_le, corner.right_le, ?_⟩
  intro a pre b aft
  obtain inLeft | inRight := mem_append.mp pre
  · obtain inLeft' | inRight' := mem_append.mp aft
    · exact asc.take_drop l inLeft inLeft'
    · obtain ⟨i, less, rfl⟩ := mem_take_iff_getElem.mp inLeft
      obtain ⟨j, fit, rfl⟩ := mem_drop_iff_getElem.mp inRight'
      have e := corner.before (i := i) (j := r + j) (by omega) (by omega) (by omega)
      rw [rowMatrix_eq (by omega) (by omega)] at e
      exact Ordering.isLE_iff_ne_gt.mpr e
  · obtain inLeft' | inRight' := mem_append.mp aft
    · obtain ⟨j, _, rfl⟩ := mem_take_iff_getElem.mp inRight
      obtain ⟨i, _, rfl⟩ := mem_drop_iff_getElem.mp inLeft'
      have e := corner.after (i := l + i) (j := j) (by omega) (by omega) (by omega)
      rw [rowMatrix_eq (by omega) (by omega)] at e
      exact isLE_of_ne_lt e
    · exact asc'.take_drop r inRight inRight'

end

end AccessPath.Library
