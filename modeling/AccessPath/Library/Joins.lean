import Mathlib.Data.List.Basic

/-!
# Joins of lists

The kinds of joins as functions on lists of rows of arbitrary types, with any condition on two
rows.
-/

namespace AccessPath.Library

open List Function

inductive JoinType
  | inner
  | left
  | right
  | semi
  | anti
  | rightSemi
  | rightAnti
deriving DecidableEq, Repr

section

variable {α β : Type}

/-- The rows that are joined under a condition. -/
def join (type : JoinType) (condition : α → β → Bool) (left : List α) (right : List β) :
    List (Option α × Option β) :=
  match type with
  | .inner => left.flatMap fun a => (right.filter (condition a)).map fun b => (some a, some b)
  | .left => left.flatMap fun a =>
    if right.any (condition a) then
      (right.filter (condition a)).map fun b => (some a, some b)
    else [(some a, none)]
  | .right => right.flatMap fun b =>
    if left.any (condition · b) then
      (left.filter (condition · b)).map fun a => (some a, some b)
    else [(none, some b)]
  | .semi => (left.filter fun a => right.any (condition a)).map fun a => (some a, none)
  | .anti => (left.filter fun a => !right.any (condition a)).map fun a => (some a, none)
  | .rightSemi => (right.filter fun b => left.any (condition · b)).map fun b => (none, some b)
  | .rightAnti => (right.filter fun b => !left.any (condition · b)).map fun b => (none, some b)

variable {cond cond' : α → β → Bool} {left : List α} {right : List β}

theorem any_congr_mem {γ : Type} {rows : List γ} {p q : γ → Bool}
    (eq : ∀ x ∈ rows, p x = q x) : rows.any p = rows.any q := by
  rw [Bool.eq_iff_iff, List.any_eq_true, List.any_eq_true]
  exact exists_congr fun x => and_congr_right fun mem => by rw [eq x mem]

theorem join_congr (type : JoinType)
    (eq : ∀ a ∈ left, ∀ b ∈ right, cond a b = cond' a b) :
    join type cond left right = join type cond' left right := by
  have rights : ∀ a ∈ left, right.any (cond a) = right.any (cond' a) :=
    fun a mem => any_congr_mem (eq a mem)
  have lefts : ∀ b ∈ right, left.any (cond · b) = left.any (cond' · b) :=
    fun b mem => any_congr_mem fun a mem' => eq a mem' b mem
  cases type with
  | inner =>
    refine flatMap_congr fun a mem => ?_
    rw [filter_congr (eq a mem)]
  | left =>
    refine flatMap_congr fun a mem => ?_
    rw [filter_congr (eq a mem), rights a mem]
  | right =>
    refine flatMap_congr fun b mem => ?_
    rw [filter_congr fun a mem' => eq a mem' b mem, lefts b mem]
  | semi => rw [join, join, filter_congr rights]
  | anti =>
    rw [join, join, filter_congr fun a mem => congrArg not (rights a mem)]
  | rightSemi => rw [join, join, filter_congr lefts]
  | rightAnti =>
    rw [join, join, filter_congr fun b mem => congrArg not (lefts b mem)]

theorem join_map {α' β' : Type} (type : JoinType) (f : α' → α) (g : β' → β) (left : List α')
    (right : List β') :
    join type cond (left.map f) (right.map g) =
      (join type (fun a b => cond (f a) (g b)) left right).map
        fun row => (row.1.map f, row.2.map g) := by
  cases type with
  | inner =>
    simp only [join, flatMap_map, map_flatMap, List.filter_map, List.map_map]
    rfl
  | left | right =>
    simp only [join, flatMap_map, map_flatMap, List.filter_map, List.map_map, List.any_map]
    refine flatMap_congr fun a _ => ?_
    simp only [comp_def]
    split_ifs
    · rw [List.map_map]
      rfl
    · rfl
  | semi | anti | rightSemi | rightAnti =>
    simp only [join, List.filter_map, List.map_map, List.any_map]
    rfl

/-- The inner join and the semi join, below which both sides may be filtered. -/
def JoinType.filtersBoth : JoinType → Bool
  | .inner => true
  | .semi => true
  | _ => false

theorem any_never {γ : Type} (rows : List γ) : (rows.any fun _ => false) = false :=
  List.any_eq_false.mpr fun _ _ => Bool.false_ne_true

theorem flatMap_filter {γ δ : Type} (rows : List γ) (p : γ → Bool) (f : γ → List δ) :
    (rows.filter p).flatMap f = rows.flatMap fun x => if p x then f x else [] := by
  induction rows with
  | nil => rfl
  | cons x rows ih =>
    rw [filter_cons, flatMap_cons]
    split_ifs with kept
    · rw [flatMap_cons, ih]
    · rw [ih, nil_append]

/-- What a condition implies of single rows can be asked before the join. -/
theorem join_filter {type : JoinType} (fs : type.filtersBoth = true) {f : α → Bool}
    {g : β → Bool}
    (eq : ∀ a ∈ left, ∀ b ∈ right, cond a b = (f a && (g b && cond' a b))) :
    join type cond' (left.filter f) (right.filter g) = join type cond left right := by
  rw [← join_congr type fun a mem b mem' => (eq a mem b mem').symm]
  cases type with
  | inner =>
    simp only [join, flatMap_filter, List.filter_filter]
    refine flatMap_congr fun a _ => ?_
    cases f a with
    | true => simp [Bool.true_and, Bool.and_comm]
    | false =>
      simp
  | semi =>
    simp only [join, List.filter_filter, List.any_filter]
    congr 2
    funext a
    cases f a with
    | true => simp
    | false => simp
  | _ => cases fs

/-! ## Conditions that are never or always true -/

/-- What a join returns if no row has a partner. -/
def unmatched (type : JoinType) (left : List α) (right : List β) : List (Option α × Option β) :=
  match type with
  | .inner | .semi | .rightSemi => []
  | .left | .anti => left.map fun a => (some a, none)
  | .right | .rightAnti => right.map fun b => (none, some b)

theorem join_never (type : JoinType) (never : ∀ a ∈ left, ∀ b ∈ right, cond a b = false) :
    join type cond left right = unmatched type left right := by
  rw [join_congr type never]
  cases type with
  | inner =>
    simp only [join, filter_false, map_nil]
    exact flatMap_eq_nil_iff.mpr fun _ _ => rfl
  | left | right =>
    simp only [join, any_never, Bool.false_eq_true, if_false]
    exact map_eq_flatMap.symm
  | semi => simp only [join, any_never, filter_false, map_nil, unmatched]
  | anti => simp only [join, any_never, Bool.not_false, filter_true, unmatched]
  | rightSemi => simp only [join, any_never, filter_false, map_nil, unmatched]
  | rightAnti => simp only [join, any_never, Bool.not_false, filter_true, unmatched]

/-- All pairs of rows. -/
def product (left : List α) (right : List β) : List (Option α × Option β) :=
  left.flatMap fun a => right.map fun b => (some a, some b)

/-- Where any two rows match, one row of the other side decides. -/
theorem filter_any_always {γ δ : Type} (xs : List γ) (ys : List δ) :
    (xs.filter fun _ => ys.any fun _ => true) = (if ys.isEmpty then [] else xs) ∧
      (xs.filter fun _ => !ys.any fun _ => true) = if ys.isEmpty then xs else [] := by
  cases ys with
  | nil => exact ⟨filter_false xs, filter_true xs⟩
  | cons y ys => exact ⟨filter_true xs, filter_false xs⟩

section

variable (always : ∀ a ∈ left, ∀ b ∈ right, cond a b = true)

include always

theorem join_inner_always : join .inner cond left right = product left right := by
  rw [join_congr .inner always]
  simp only [join, filter_true, product]

theorem join_semi_always :
    join .semi cond left right =
      if right.isEmpty then [] else left.map fun a => (some a, none) := by
  rw [join_congr .semi always]
  simp only [join, filter_any_always]
  split <;> rfl

theorem join_rightSemi_always :
    join .rightSemi cond left right =
      if left.isEmpty then [] else right.map fun b => (none, some b) := by
  rw [join_congr .rightSemi always]
  simp only [join, filter_any_always]
  split <;> rfl

/-- An anti join is only empty if the other side has a row, or this side has none. -/
theorem join_anti_always : join .anti cond left right = [] ↔ ¬ (right = [] ∧ left ≠ []) := by
  rw [join_congr .anti always]
  simp only [join, filter_any_always, map_eq_nil_iff]
  cases right <;> simp

theorem join_rightAnti_always :
    join .rightAnti cond left right = [] ↔ ¬ (left = [] ∧ right ≠ []) := by
  rw [join_congr .rightAnti always]
  simp only [join, filter_any_always, map_eq_nil_iff]
  cases left <;> simp

end

end

end AccessPath.Library
