import AccessPath.Library.Joins
import AccessPath.Optimizer.Statistics

/-!
# Plans of a comparison join

The part of a plan around a comparison join, what it returns for the rows of the two sides of
the join, and the plan that the propagation of statistics leaves in its place.
-/

namespace AccessPath.Optimizer

open Library FilterPropagateResult Function

/-! ## Plans -/

/-- The columns of one side. -/
abbrev Row := List Cell

/-- A row of a plan. A side is missing where an outer join finds no partner, and all its columns
are NULL then, and where the columns of the side are not returned. -/
abbrev JoinRow := Option Row × Option Row

/-- The value of a column, with NULL for a missing side. -/
def cellAt (row : Option Row) (column : Nat) : Cell := (row.bind (·[column]?)).join

/-- `JoinCondition` between a column of the left side and one of the right side. -/
structure JoinCondition where
  left : Nat
  right : Nat
  comparison : Comparison
deriving DecidableEq, Repr

def JoinCondition.isTrue (condition : JoinCondition) (a b : JoinRow) : Bool :=
  condition.comparison.isTrue (cellAt a.1 condition.left) (cellAt b.2 condition.right)

/-- A comparison of a column with a constant. -/
structure ColumnFilter where
  column : Nat
  comparison : Comparison
  constant : Int
deriving DecidableEq, Repr

def ColumnFilter.isTrue (filter : ColumnFilter) (row : Option Row) : Bool :=
  filter.comparison.isTrue (cellAt row filter.column) (some filter.constant)

/-- The operators that the propagation leaves at a join, with its two inputs. -/
inductive Plan
  | leftInput
  | rightInput
  | filterLeft (filters : List ColumnFilter) (child : Plan)
  | filterRight (filters : List ColumnFilter) (child : Plan)
  | emptyResult
  | limitOne (child : Plan)
  | crossProduct (left right : Plan)
  | comparisonJoin (type : JoinType) (conditions : List JoinCondition) (left right : Plan)

/-- One row with the sides that two rows have. -/
def combine (a b : JoinRow) : JoinRow := (a.1.or b.1, a.2.or b.2)

/-- The rows of a plan for the rows of the two inputs. -/
def Plan.eval (left right : List Row) : Plan → List JoinRow
  | leftInput => left.map fun a => (some a, none)
  | rightInput => right.map fun b => (none, some b)
  | filterLeft filters child =>
    (child.eval left right).filter fun row => filters.all (·.isTrue row.1)
  | filterRight filters child =>
    (child.eval left right).filter fun row => filters.all (·.isTrue row.2)
  | emptyResult => []
  | limitOne child => (child.eval left right).take 1
  | crossProduct l r =>
    (l.eval left right).flatMap fun a => (r.eval left right).map (combine a)
  | comparisonJoin type conditions l r =>
    (join type (fun a b => conditions.all (·.isTrue a b)) (l.eval left right)
      (r.eval left right)).map fun row => combine (row.1.getD (none, none))
        (row.2.getD (none, none))

/-- The columns that a join returns; more columns of a plan in its place are not seen. -/
def returned : JoinType → JoinRow → JoinRow
  | .semi, row => (row.1, none)
  | .anti, row => (row.1, none)
  | .rightSemi, row => (none, row.2)
  | .rightAnti, row => (none, row.2)
  | _, row => row

def output (type : JoinType) (plan : Plan) (left right : List Row) : List JoinRow :=
  (plan.eval left right).map (returned type)

/-! ## Propagation -/

/-- The statistics of the columns of one side, as far as they are known. -/
abbrev StatisticsMap := Nat → Option ColumnStatistics

/-- The plan for a condition that is never true. -/
def falseJoin (type : JoinType) (conditions : List JoinCondition) (left right : Plan) : Plan :=
  match type with
  | .rightSemi | .semi | .inner => .emptyResult
  | .rightAnti => right
  | .anti => left
  | .left => .comparisonJoin .left conditions left .emptyResult
  | .right => .comparisonJoin .right conditions .emptyResult right

/-- The plan if the only condition is always true, for the join types that have one. -/
def trueJoin (result : FilterPropagateResult) (type : JoinType) (left right : Plan) : Option Plan :=
  if result = filterAlwaysTrue then
    match type with
    | .semi => some (.crossProduct left (.limitOne right))
    | .rightSemi => some (.crossProduct right (.limitOne left))
    | .inner => some (.crossProduct left right)
    | .anti | .rightAnti => some .emptyResult
    | .left | .right => none
  else none

/-- The bounds that are new after an update of the statistics of a column. -/
def newBounds (column : Nat) (before after : ColumnStatistics) : List ColumnFilter :=
  match before.min, before.max, after.min, after.max with
  | some minBefore, some maxBefore, some minAfter, some maxAfter =>
    (if minAfter > minBefore then [⟨column, .greaterThanOrEqualTo, minAfter⟩] else []) ++
      if maxAfter < maxBefore then [⟨column, .lessThanOrEqualTo, maxAfter⟩] else []
  | _, _, _, _ => []

/-- `CreateFilterFromJoinStats` for a column of the left side; the filter stays above the
child, which is where it has to be true. -/
def createFilterLeft (column : Nat) (before after : ColumnStatistics) (child : Plan) : Plan :=
  match newBounds column before after with
  | [] => child
  | filters => .filterLeft filters child

@[inherit_doc createFilterLeft]
def createFilterRight (column : Nat) (before after : ColumnStatistics) (child : Plan) : Plan :=
  match newBounds column before after with
  | [] => child
  | filters => .filterRight filters child

/-- `UpdateFilterStatistics` for a regular comparison of two columns. -/
def updateMaps (condition : JoinCondition) (leftStats rightStats : StatisticsMap) :
    StatisticsMap × StatisticsMap :=
  match leftStats condition.left, rightStats condition.right with
  | some l, some r =>
    let updated := updateFilterStatistics l.notNull r.notNull condition.comparison
    (update leftStats condition.left (some updated.1),
      update rightStats condition.right (some updated.2))
  | some l, none => (update leftStats condition.left (some l.notNull), rightStats)
  | none, some r => (leftStats, update rightStats condition.right (some r.notNull))
  | none, none => (leftStats, rightStats)

/-- The filters of both children after a condition. -/
def pushFilters (condition : JoinCondition) (before before' : Option ColumnStatistics)
    (after after' : Option ColumnStatistics) (left right : Plan) : Plan × Plan :=
  match before, before', after, after' with
  | some l, some r, some l', some r' =>
    (createFilterLeft condition.left l l' left, createFilterRight condition.right r r' right)
  | _, _, _, _ => (left, right)

/-- What the loop goes on with after a condition that stays: the children and the statistics.
Nothing is learned from the comparisons that take NULL for a value, and only in an inner join
and a semi join is every row that is returned one for which the condition is true. -/
def learn (type : JoinType) (condition : JoinCondition) (left right : Plan)
    (leftStats rightStats : StatisticsMap) : (Plan × Plan) × StatisticsMap × StatisticsMap :=
  if condition.comparison.isDistinct || !type.filtersBoth then
    ((left, right), leftStats, rightStats)
  else
    let maps := updateMaps condition leftStats rightStats
    (pushFilters condition (leftStats condition.left) (rightStats condition.right)
      (maps.1 condition.left) (maps.2 condition.right) left right, maps)

/-- What is found for a condition, if the statistics of both columns are known. -/
def pruneResult (condition : JoinCondition) (leftStats rightStats : StatisticsMap) :
    FilterPropagateResult :=
  match leftStats condition.left, rightStats condition.right with
  | some l, some r => propagateComparison l r condition.comparison
  | _, _ => noPruningPossible

/-- The loop of `PropagateStatistics(LogicalComparisonJoin)`: the conditions that stay before
the current one, and those from it on. -/
def propagateConditions (type : JoinType) : List JoinCondition → List JoinCondition → Plan → Plan →
    StatisticsMap → StatisticsMap → Plan
  | kept, [], left, right, _, _ => .comparisonJoin type kept left right
  | kept, condition :: conditions, left, right, leftStats, rightStats =>
    let result := pruneResult condition leftStats rightStats
    if result.isFalse then falseJoin type (kept ++ condition :: conditions) left right
    else if result = filterAlwaysTrue ∧ (kept ≠ [] ∨ conditions ≠ []) then
      propagateConditions type kept conditions left right leftStats rightStats
    else
      match trueJoin result type left right with
      | some plan => plan
      | none =>
        let next := learn type condition left right leftStats rightStats
        propagateConditions type (kept ++ [condition]) conditions next.1.1 next.1.2 next.2.1
          next.2.2

/-- The comparison join before and after the propagation of statistics. -/
def originalPlan (type : JoinType) (conditions : List JoinCondition) : Plan :=
  .comparisonJoin type conditions .leftInput .rightInput

def propagateStatistics (type : JoinType) (conditions : List JoinCondition)
    (leftStats rightStats : StatisticsMap) : Plan :=
  propagateConditions type [] conditions .leftInput .rightInput leftStats rightStats

end AccessPath.Optimizer
