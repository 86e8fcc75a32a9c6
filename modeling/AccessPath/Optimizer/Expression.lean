import Mathlib.Data.List.Basic
import Mathlib.Data.Option.Basic
import AccessPath.Optimizer.Statistics

/-!
# Expressions and the propagation of statistics through them

Expressions over the integer columns of a row, what they evaluate to, and what
`StatisticsPropagator::PropagateExpression` leaves in their place.
-/

namespace AccessPath.Optimizer

open FilterPropagateResult

/-! ## Expressions -/

inductive SqlType
  | integer
  | boolean

/-- Values that are not NULL. -/
def SqlType.Value : SqlType → Type
  | .integer => Int
  | .boolean => Bool

/-- The order of values, and their statistics, are those of integers. -/
def SqlType.toInt : {t : SqlType} → t.Value → Int
  | .integer, value => value
  | .boolean, value => value.toInt

def SqlType.cell {t : SqlType} (value : Option t.Value) : Cell := value.map SqlType.toInt

mutual

/-- Bound expressions of a type. -/
inductive Expression : SqlType → Type
  | columnRef (column : Nat) : Expression .integer
  | constant {t : SqlType} (value : Option t.Value) : Expression t
  | compare {t : SqlType} (comparison : Comparison) (left right : Expression t) :
      Expression .boolean
  | between {t : SqlType} (lowerInclusive upperInclusive : Bool)
      (input lower upper : Expression t) : Expression .boolean
  | isNull {t : SqlType} (child : Expression t) : Expression .boolean
  | isNotNull {t : SqlType} (child : Expression t) : Expression .boolean
  | coalesce {t : SqlType} (children : Expressions t) : Expression t
  | not (child : Expression .boolean) : Expression .boolean
  | conjunction (isAnd : Bool) (children : Expressions .boolean) : Expression .boolean
  | constantOrNull {t : SqlType} (value : Bool) (children : Expressions t) : Expression .boolean

inductive Expressions : SqlType → Type
  | nil {t : SqlType} : Expressions t
  | cons {t : SqlType} (child : Expression t) (children : Expressions t) : Expressions t

end

def Expressions.ofList {t : SqlType} (children : List (Expression t)) : Expressions t :=
  children.foldr .cons .nil

/-! ## Evaluation -/

/-- `VectorOperations::And` and `VectorOperations::Or`: one value decides the result even if the
other one is NULL. -/
def connect (isAnd : Bool) : Option Bool → Option Bool → Option Bool
  | some a, some b => some (if isAnd then a && b else a || b)
  | some a, none => if a == isAnd then none else some a
  | none, some b => if b == isAnd then none else some b
  | none, none => none

def evalConjunction (isAnd : Bool) : List (Option Bool) → Option Bool
  | [] => some isAnd
  | first :: others => others.foldl (fun result current => connect isAnd current result) first

/-- The first value that is not NULL. -/
def evalCoalesce {α : Type} : List (Option α) → Option α
  | [] => none
  | some value :: _ => some value
  | none :: values => evalCoalesce values

/-- `BoundBetweenExpression::LowerComparisonType` -/
def lowerComparisonType (inclusive : Bool) : Comparison :=
  if inclusive then .greaterThanOrEqualTo else .greaterThan

/-- `BoundBetweenExpression::UpperComparisonType` -/
def upperComparisonType (inclusive : Bool) : Comparison :=
  if inclusive then .lessThanOrEqualTo else .lessThan

def evalBetween (lowerInclusive upperInclusive : Bool) (input lower upper : Cell) : Option Bool :=
  connect true ((lowerComparisonType lowerInclusive).eval input lower)
    ((upperComparisonType upperInclusive).eval input upper)

mutual

/-- `ExpressionExecutor::Execute` on a row; `none` is NULL. -/
def eval (row : Nat → Cell) : {t : SqlType} → Expression t → Option t.Value
  | _, .columnRef column => row column
  | _, .constant value => value
  | _, .compare comparison left right =>
    comparison.eval (SqlType.cell (eval row left)) (SqlType.cell (eval row right))
  | _, .between lowerInclusive upperInclusive input lower upper =>
    evalBetween lowerInclusive upperInclusive (SqlType.cell (eval row input))
      (SqlType.cell (eval row lower)) (SqlType.cell (eval row upper))
  | _, .isNull child => some (eval row child).isNone
  | _, .isNotNull child => some (eval row child).isSome
  | _, .coalesce children => evalCoalesce (evalChildren row children)
  | _, .not child => (eval row child).map Bool.not
  | _, .conjunction isAnd children => evalConjunction isAnd (evalChildren row children)
  | _, .constantOrNull value children =>
    if (evalChildren row children).all Option.isSome then some value else none

def evalChildren (row : Nat → Cell) : {t : SqlType} → Expressions t → List (Option t.Value)
  | _, .nil => []
  | _, .cons child children => eval row child :: evalChildren row children

end

mutual

/-- `Expression::IsFoldable` -/
def isFoldable : {t : SqlType} → Expression t → Bool
  | _, .columnRef _ => false
  | _, .constant _ => true
  | _, .compare _ left right => isFoldable left && isFoldable right
  | _, .between _ _ input lower upper => isFoldable input && isFoldable lower && isFoldable upper
  | _, .isNull child => isFoldable child
  | _, .isNotNull child => isFoldable child
  | _, .coalesce children => areFoldable children
  | _, .not child => isFoldable child
  | _, .conjunction _ children => areFoldable children
  | _, .constantOrNull _ children => areFoldable children

def areFoldable : {t : SqlType} → Expressions t → Bool
  | _, .nil => true
  | _, .cons child children => isFoldable child && areFoldable children

end

/-- `ExpressionExecutor::EvaluateScalar`, for an expression without columns. -/
def evaluateScalar {t : SqlType} (e : Expression t) : Option t.Value := eval (fun _ => none) e

/-! ## Statistics of expressions -/

/-- `BaseStatistics` with both of its flags. -/
structure BaseStatistics extends ColumnStatistics where
  canHaveNoNull : Bool
deriving DecidableEq

namespace BaseStatistics

/-- The statistics are right about a value. -/
def Agrees (stats : BaseStatistics) (value : Cell) : Prop :=
  stats.toColumnStatistics.Agrees value ∧ (stats.canHaveNoNull = false → value = none)

/-- `BaseStatistics::FromConstant` -/
def fromConstant (value : Cell) : BaseStatistics where
  min := value
  max := value
  canHaveNull := value.isNone
  canHaveNoNull := value.isSome

/-- A bound is kept only if both statistics have it. -/
def mergeBound (choose : Int → Int → Int) : Option Int → Option Int → Option Int
  | some a, some b => some (choose a b)
  | _, _ => none

/-- `BaseStatistics::Merge` -/
def merge (stats other : BaseStatistics) : BaseStatistics where
  min := mergeBound (fun a b => if b < a then b else a) stats.min other.min
  max := mergeBound (fun a b => if b > a then b else a) stats.max other.max
  canHaveNull := stats.canHaveNull || other.canHaveNull
  canHaveNoNull := stats.canHaveNoNull || other.canHaveNoNull

end BaseStatistics

/-- An expression and, if there are any, its statistics. -/
abbrev Propagated (t : SqlType) := Expression t × Option BaseStatistics

def propagatedConstant (value : Bool) : Propagated .boolean :=
  (.constant (t := .boolean) (some value), some (.fromConstant (some value.toInt)))

/-! ## Propagation -/

section

variable {t : SqlType}

/-- `PropagateExpression(BoundComparisonExpression)` after its children. -/
def propagateCompare (comparison : Comparison) (left right : Propagated t) : Propagated .boolean :=
  match left.2, right.2 with
  | some leftStats, some rightStats =>
    match propagateComparison leftStats.toColumnStatistics rightStats.toColumnStatistics
        comparison with
    | filterAlwaysTrue => propagatedConstant true
    | filterAlwaysFalse => propagatedConstant false
    | filterTrueOrNull => (.constantOrNull true (.ofList [left.1, right.1]), none)
    | filterFalseOrNull => (.constantOrNull false (.ofList [left.1, right.1]), none)
    | noPruningPossible => (.compare comparison left.1 right.1, none)
  | _, _ => (.compare comparison left.1 right.1, none)

/-- What is known of a bound of a BETWEEN. -/
def boundPrune (inputStats : BaseStatistics) (boundStats : Option BaseStatistics)
    (comparison : Comparison) : FilterPropagateResult :=
  match boundStats with
  | some stats =>
    propagateComparison inputStats.toColumnStatistics stats.toColumnStatistics comparison
  | none => noPruningPossible

/-- `PropagateExpression(BoundBetweenExpression)` after its children and their comparisons. -/
def pruneBetween (lowerInclusive upperInclusive : Bool) (input lower upper : Expression t)
    (lowerPrune upperPrune : FilterPropagateResult) : Expression .boolean :=
  if lowerPrune = filterAlwaysTrue ∧ upperPrune = filterAlwaysTrue then
    .constant (t := .boolean) (some true)
  else if lowerPrune = filterAlwaysFalse ∨ upperPrune = filterAlwaysFalse then
    .constant (t := .boolean) (some false)
  else if lowerPrune = filterFalseOrNull ∨ upperPrune = filterFalseOrNull then
    .constantOrNull false (.ofList [input, lower, upper])
  else if lowerPrune = filterTrueOrNull ∧ upperPrune = filterTrueOrNull then
    .constantOrNull true (.ofList [input, lower, upper])
  else if lowerPrune = filterAlwaysTrue then
    .compare (upperComparisonType upperInclusive) input upper
  else if upperPrune = filterAlwaysTrue then
    .compare (lowerComparisonType lowerInclusive) input lower
  else .between lowerInclusive upperInclusive input lower upper

def propagateBetween (lowerInclusive upperInclusive : Bool) (input lower upper : Propagated t) :
    Propagated .boolean :=
  match input.2 with
  | some inputStats =>
    (pruneBetween lowerInclusive upperInclusive input.1 lower.1 upper.1
      (boundPrune inputStats lower.2 (lowerComparisonType lowerInclusive))
      (boundPrune inputStats upper.2 (upperComparisonType upperInclusive)), none)
  | none => (.between lowerInclusive upperInclusive input.1 lower.1 upper.1, none)

/-- `OPERATOR_IS_NULL`, and with the constants exchanged `OPERATOR_IS_NOT_NULL`. -/
def propagateIsNull (unchanged : Expression .boolean) (ifNull : Bool)
    (stats : Option BaseStatistics) : Propagated .boolean :=
  match stats with
  | some stats =>
    if !stats.canHaveNull then propagatedConstant (!ifNull)
    else if !stats.canHaveNoNull then propagatedConstant ifNull
    else (unchanged, none)
  | none => (unchanged, none)

/-- The loop over the children of a COALESCE: a child that is always NULL is removed unless it is
the only one, and those after a child that is never NULL are erased. -/
def pruneCoalesce (kept : List (Expression t × BaseStatistics)) :
    List (Expression t × BaseStatistics) → List (Expression t × BaseStatistics)
  | [] => kept
  | child :: children =>
    if !child.2.canHaveNoNull then
      if (kept ++ child :: children).length > 1 then pruneCoalesce kept children
      else pruneCoalesce (kept ++ [child]) children
    else if !child.2.canHaveNull then kept ++ [child]
    else pruneCoalesce (kept ++ [child]) children

/-- `OPERATOR_COALESCE` of children that all have statistics. -/
def propagateCoalesce (children : List (Expression t × BaseStatistics)) : Propagated t :=
  match pruneCoalesce [] children with
  | [] => (.coalesce .nil, none)
  | [child] => (child.1, some child.2)
  | first :: others =>
    (.coalesce (.ofList ((first :: others).map Prod.fst)),
      some (others.foldl (fun stats child => stats.merge child.2) first.2))

/-- The children with their statistics, if all of them have some. -/
def allHaveStats : List (Propagated t) → Option (List (Expression t × BaseStatistics))
  | [] => some []
  | (child, some stats) :: children => (allHaveStats children).map ((child, stats) :: ·)
  | (_, none) :: _ => none

/-- The loop over the children of a conjunction: `none` if one of them decides it. -/
def pruneConjunction (isAnd : Bool) :
    List (Expression .boolean) → Option (List (Expression .boolean))
  | [] => some []
  | child :: children =>
    if isFoldable child then
      match evaluateScalar child with
      | some (value : Bool) =>
        if value == isAnd then pruneConjunction isAnd children else none
      | none => (pruneConjunction isAnd children).map (child :: ·)
    else (pruneConjunction isAnd children).map (child :: ·)

/-- `PropagateExpression(BoundConjunctionExpression)` after its children. -/
def propagateConjunction (isAnd : Bool) (children : List (Expression .boolean)) :
    Propagated .boolean :=
  match pruneConjunction isAnd children with
  | none => propagatedConstant (!isAnd)
  | some [] => propagatedConstant isAnd
  | some [child] => (child, none)
  | some children => (.conjunction isAnd (.ofList children), none)

end

mutual

/-- `StatisticsPropagator::PropagateExpression`: the expression that is left in place, and its
statistics. -/
def propagateExpression (statisticsMap : Nat → Option BaseStatistics) :
    {t : SqlType} → Expression t → Propagated t
  | _, .columnRef column => (.columnRef column, statisticsMap column)
  | _, .constant value => (.constant value, some (.fromConstant (SqlType.cell value)))
  | _, .compare comparison left right =>
    propagateCompare comparison (propagateExpression statisticsMap left)
      (propagateExpression statisticsMap right)
  | _, .between lowerInclusive upperInclusive input lower upper =>
    propagateBetween lowerInclusive upperInclusive (propagateExpression statisticsMap input)
      (propagateExpression statisticsMap lower) (propagateExpression statisticsMap upper)
  | _, .isNull child =>
    let (child, stats) := propagateExpression statisticsMap child
    propagateIsNull (.isNull child) true stats
  | _, .isNotNull child =>
    let (child, stats) := propagateExpression statisticsMap child
    propagateIsNull (.isNotNull child) false stats
  | _, .coalesce children =>
    let children := propagateChildren statisticsMap children
    match allHaveStats children with
    | some children => propagateCoalesce children
    | none => (.coalesce (.ofList (children.map Prod.fst)), none)
  | _, .not child => (.not (propagateExpression statisticsMap child).1, none)
  | _, .conjunction isAnd children =>
    propagateConjunction isAnd ((propagateChildren statisticsMap children).map Prod.fst)
  | _, .constantOrNull value children =>
    (.constantOrNull value (.ofList ((propagateChildren statisticsMap children).map Prod.fst)),
      none)

def propagateChildren (statisticsMap : Nat → Option BaseStatistics) :
    {t : SqlType} → Expressions t → List (Propagated t)
  | _, .nil => []
  | _, .cons child children =>
    propagateExpression statisticsMap child :: propagateChildren statisticsMap children

end

end AccessPath.Optimizer
