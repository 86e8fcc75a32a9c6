import AccessPath.Optimizer.ExpressionRewrites

/-!
# Propagation of statistics keeps the value of an expression

Each kind of expression is rewritten to one with the same value, if this holds of its operands.
The exception is a BETWEEN of which one bound makes it false while the other bound is NULL.
-/

namespace AccessPath.Optimizer

variable {t : SqlType}

mutual

/-- No BETWEEN in the expression is false on the row while one of its bounds is NULL. -/
def Settled (row : Nat → Cell) : {t : SqlType} → Expression t → Prop
  | _, .columnRef _ | _, .constant _ => True
  | _, .compare _ left right => Settled row left ∧ Settled row right
  | _, .between lowerInclusive upperInclusive input lower upper =>
    (eval row lower = none ∨ eval row upper = none →
      eval row (.between lowerInclusive upperInclusive input lower upper) ≠ some false) ∧
    Settled row input ∧ Settled row lower ∧ Settled row upper
  | _, .isNull child | _, .isNotNull child | _, .not child => Settled row child
  | _, .coalesce children | _, .conjunction _ children | _, .constantOrNull _ children =>
    AllSettled row children

def AllSettled (row : Nat → Cell) : {t : SqlType} → Expressions t → Prop
  | _, .nil => True
  | _, .cons child children => Settled row child ∧ AllSettled row children

end

section

variable (statisticsMap : Nat → Option BaseStatistics) (row : Nat → Cell)

/-- The values of a row agree with the statistics of the columns. -/
def RowAgrees : Prop := ∀ column, ∀ stats ∈ statisticsMap column, stats.Agrees (row column)

variable {statisticsMap row}

-- The equations of these recursions are made once, before the proofs that rewrite by them.
attribute [local simp] propagateExpression eval

theorem cell_integer (value : Cell) : SqlType.cell (t := .integer) value = value := by
  cases value <;> rfl

theorem columnRef_sound (agrees : RowAgrees statisticsMap row) (column : Nat) :
    Sound row (propagateExpression statisticsMap (.columnRef column)) (row column) where
  eval_eq := rfl
  agrees stats mem := by
    rw [cell_integer]
    exact agrees column stats mem

theorem constant_sound (v : Option t.Value) :
    Sound row (propagateExpression statisticsMap (.constant v)) v where
  eval_eq := rfl
  agrees stats mem := by
    cases mem
    exact fromConstant_agrees _

section

variable {c : Expression t} {v : Option t.Value}
variable (sound : Sound row (propagateExpression statisticsMap c) v)

include sound

theorem isNull_node :
    Sound row (propagateExpression statisticsMap (.isNull c)) (some v.isNone) := by
  have eq : some v.isNone = some (v.isNone == true) := by
    cases v <;> rfl
  refine eq ▸ isNull_sound sound ?_
  rw [← eq, eval, sound.eval_eq]
  rfl

theorem isNotNull_node :
    Sound row (propagateExpression statisticsMap (.isNotNull c)) (some v.isSome) := by
  have eq : some v.isSome = some (v.isNone == false) := by
    cases v <;> rfl
  refine eq ▸ isNull_sound sound ?_
  rw [← eq, eval, sound.eval_eq]
  rfl

end

theorem not_node {c : Expression .boolean} {v : Option Bool}
    (sound : Sound row (propagateExpression statisticsMap c) v) :
    Sound row (propagateExpression statisticsMap (.not c)) (v.map Bool.not) := by
  refine .unknown ?_
  rw [eval, sound.eval_eq]

section

variable {cs : Expressions t} {vs : List (Option t.Value)}
variable (sound : List.Forall₂ (Sound row) (propagateChildren statisticsMap cs) vs)

include sound

theorem coalesce_node :
    Sound row (propagateExpression statisticsMap (.coalesce cs)) (evalCoalesce vs) := by
  rw [propagateExpression]
  split
  case h_1 pairs have_ =>
    obtain ⟨agree, rfl⟩ := allHaveStats_sound sound pairs have_
    exact coalesce_sound agree
  case h_2 =>
    refine .unknown ?_
    rw [eval, evalChildren_ofList, map_eval_of_sound sound]

theorem constantOrNull_node (v : Bool) :
    Sound row (propagateExpression statisticsMap (.constantOrNull v cs))
      (if vs.all Option.isSome then some v else none) := by
  refine .unknown ?_
  rw [eval, evalChildren_ofList, map_eval_of_sound sound]

end

theorem conjunction_node {cs : Expressions .boolean} {vs : List (Option Bool)} (isAnd : Bool)
    (sound : List.Forall₂ (Sound row) (propagateChildren statisticsMap cs) vs) :
    Sound row (propagateExpression statisticsMap (.conjunction isAnd cs))
      (evalConjunction isAnd vs) := by
  rw [propagateExpression, ← map_eval_of_sound sound]
  exact conjunction_sound isAnd _

/-- A BETWEEN keeps its value unless it is false with a NULL bound. -/
theorem between_sound {inp lower upper : Propagated t} {x low high : Option t.Value}
    (inputSound : Sound row inp x) (lowerSound : Sound row lower low)
    (upperSound : Sound row upper high) {li ui : Bool}
    (settled : low = none ∨ high = none →
      evalBetween li ui (SqlType.cell x) (SqlType.cell low) (SqlType.cell high) ≠ some false) :
    Sound row (propagateBetween li ui inp lower upper)
      (evalBetween li ui (SqlType.cell x) (SqlType.cell low) (SqlType.cell high)) := by
  obtain ⟨inp, inputStats⟩ := inp
  obtain ⟨lower, lowerStats⟩ := lower
  obtain ⟨upper, upperStats⟩ := upper
  obtain ⟨rfl, inputAgrees⟩ := inputSound
  obtain ⟨rfl, lowerAgrees⟩ := lowerSound
  obtain ⟨rfl, upperAgrees⟩ := upperSound
  rcases inputStats with _ | inputStats
  · exact .unknown rfl
  · have agrees := inputAgrees inputStats rfl
    refine .unknown (pruneBetween_eval (boundPrune_sound agrees lowerAgrees _)
      (boundPrune_sound agrees upperAgrees _) fun null => settled ?_)
    exact null.imp Option.map_eq_none_iff.mp Option.map_eq_none_iff.mp

mutual

/-- What is left in place of an expression has its value, by one case for each kind. -/
theorem sound_eval (agrees : RowAgrees statisticsMap row) : ∀ {t : SqlType} (e : Expression t),
    Settled row e → Sound row (propagateExpression statisticsMap e) (eval row e)
  | _, .columnRef column, _ => columnRef_sound agrees column
  | _, .constant value, _ => constant_sound value
  | _, .compare comparison left right, settled =>
    compare_sound comparison (sound_eval agrees left settled.1) (sound_eval agrees right settled.2)
  | _, .between _ _ input lower upper, settled =>
    between_sound (sound_eval agrees input settled.2.1) (sound_eval agrees lower settled.2.2.1)
      (sound_eval agrees upper settled.2.2.2) settled.1
  | _, .isNull child, settled => isNull_node (sound_eval agrees child settled)
  | _, .isNotNull child, settled => isNotNull_node (sound_eval agrees child settled)
  | _, .coalesce children, settled => coalesce_node (sound_evalChildren agrees children settled)
  | _, .not child, settled => not_node (sound_eval agrees child settled)
  | _, .conjunction isAnd children, settled =>
    conjunction_node isAnd (sound_evalChildren agrees children settled)
  | _, .constantOrNull value children, settled =>
    constantOrNull_node (sound_evalChildren agrees children settled) value

theorem sound_evalChildren (agrees : RowAgrees statisticsMap row) :
    ∀ {t : SqlType} (children : Expressions t), AllSettled row children →
      List.Forall₂ (Sound row) (propagateChildren statisticsMap children)
        (evalChildren row children)
  | _, .nil, _ => .nil
  | _, .cons child children, settled =>
    .cons (sound_eval agrees child settled.1) (sound_evalChildren agrees children settled.2)

end

end

end AccessPath.Optimizer
