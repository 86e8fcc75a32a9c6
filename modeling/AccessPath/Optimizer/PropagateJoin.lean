import AccessPath.Optimizer.JoinPlan

/-!
# Propagation of statistics through a join

The loop over the conditions keeps an invariant: the original condition is the one that is
left together with the filters below the join, and the statistics are right about all pairs of
rows for which the conditions before the current one are true.
-/

namespace AccessPath.Optimizer

open Library FilterPropagateResult Function
open List hiding product

/-! ## Plans over the rows of the inputs -/

/-- All conditions are true of a row of the left side and one of the right side. -/
def rowsMatch (conditions : List JoinCondition) (a b : Row) : Bool :=
  conditions.all (·.isTrue (some a, none) (none, some b))

def inLeft (a : Row) : JoinRow := (some a, none)

def inRight (b : Row) : JoinRow := (none, some b)

theorem rowsMatch_append (cs cs' : List JoinCondition) (a b : Row) : rowsMatch (cs ++ cs') a b =
      (rowsMatch cs a b && rowsMatch cs' a b) := all_append

theorem rowsMatch_cons (c : JoinCondition) (cs : List JoinCondition) (a b : Row) :
    rowsMatch (c :: cs) a b = (c.isTrue (inLeft a) (inRight b) && rowsMatch cs a b) := all_cons

section

variable {left right lrs rrs : List Row} {l r : Plan}

attribute [local simp] Plan.eval

theorem product_limitOne (f g : Row → JoinRow) {keep : JoinRow → JoinRow}
    (eq : ∀ a b, keep (combine (f a) (g b)) = f a) {xs ys : List Row} :
    ((xs.map f).flatMap fun a => ((ys.map g).take 1).map (combine a)).map keep =
      if ys.isEmpty then [] else xs.map f := by
  cases ys with
  | nil => exact map_eq_nil_iff.mpr (flatMap_eq_nil_iff.mpr fun _ _ => rfl)
  | cons y ys => simp [flatMap_map, eq, ← map_eq_flatMap]

section

variable (el : l.eval left right = lrs.map inLeft)
variable (er : r.eval left right = rrs.map inRight)

include el er

variable (ty : JoinType)

theorem eval_comparisonJoin (cs : List JoinCondition) :
    (Plan.comparisonJoin ty cs l r).eval left right = join ty (rowsMatch cs) lrs rrs := by
  rw [Plan.eval, el, er, join_map, List.map_map]
  refine (map_congr_left ?_).trans (List.map_id _)
  intro row _
  obtain ⟨a | _, b | _⟩ := row
  · rfl
  · rfl
  · rfl
  · rfl

theorem eval_crossProduct : (Plan.crossProduct l r).eval left right = product lrs rrs := by
  rw [Plan.eval, el, er, flatMap_map, product]
  simp only [List.map_map]
  rfl

theorem output_semiProduct : output .semi (.crossProduct l (.limitOne r)) left right =
      if rrs.isEmpty then [] else lrs.map inLeft := by
  rw [output, Plan.eval, Plan.eval, el, er]
  exact product_limitOne inLeft inRight fun _ _ => rfl

theorem output_rightSemiProduct : output .rightSemi (.crossProduct r (.limitOne l)) left right =
      if lrs.isEmpty then [] else rrs.map inRight := by
  rw [output, Plan.eval, Plan.eval, el, er]
  exact product_limitOne inRight inLeft fun _ _ => rfl

/-- A join without partners is replaced by a plan with the same rows. -/
theorem eval_falseJoin (cs : List JoinCondition) :
    (falseJoin ty cs l r).eval left right = unmatched ty lrs rrs := by
  have none : Plan.emptyResult.eval left right = ([] : List Row).map inLeft := rfl
  have none' : Plan.emptyResult.eval left right = ([] : List Row).map inRight := rfl
  cases ty with
  | inner | semi | rightSemi => rfl
  | anti => exact el
  | rightAnti => exact er
  | left =>
    rw [falseJoin, eval_comparisonJoin el none', join_never]
    · rfl
    · intro a _ b mem
      exact absurd mem not_mem_nil
  | right =>
    rw [falseJoin, eval_comparisonJoin none er, join_never]
    · rfl
    · intro a mem
      exact absurd mem not_mem_nil

end

/-! ## Filters from statistics -/

theorem eval_createFilterLeft (el : l.eval left right = lrs.map inLeft) (col : Nat)
    (pre aft : ColumnStatistics) :
    (createFilterLeft col pre aft l).eval left right =
      (lrs.filter fun a => (newBounds col pre aft).all (·.isTrue (some a))).map
        inLeft := by
  rw [createFilterLeft]
  cases newBounds col pre aft with
  | nil => simp only [all_nil, filter_true, el]
  | cons filter fs =>
    rw [Plan.eval, el, List.filter_map]
    rfl

theorem eval_createFilterRight (er : r.eval left right = rrs.map inRight)
    (col : Nat) (pre aft : ColumnStatistics) :
    (createFilterRight col pre aft r).eval left right =
      (rrs.filter fun b => (newBounds col pre aft).all (·.isTrue (some b))).map
        inRight := by
  rw [createFilterRight]
  cases newBounds col pre aft with
  | nil => simp only [all_nil, filter_true, er]
  | cons filter fs =>
    rw [Plan.eval, er, List.filter_map]
    rfl

/-- The new bounds hold of every value that the new statistics are right about. -/
theorem newBounds_true {col : Nat} {pre aft : ColumnStatistics} {row : Option Row} {a : Int}
    (cell : cellAt row col = some a) (agree : aft.Agrees (some a)) :
    (newBounds col pre aft).all (·.isTrue row) = true := by
  rw [newBounds]
  split
  case h_1 minBefore maxBefore minAfter maxAfter low high low' high' =>
    rw [all_append, Bool.and_eq_true]
    have lower := agree.1 minAfter low'
    have upper := agree.2 maxAfter high'
    constructor
    · split_ifs
      · rw [all_cons, all_nil, Bool.and_true, ColumnFilter.isTrue, cell, Comparison.isTrue_some]
        exact decide_eq_true lower
      · rfl
    · split_ifs
      · rw [all_cons, all_nil, Bool.and_true, ColumnFilter.isTrue, cell, Comparison.isTrue_some]
        exact decide_eq_true upper
      · rfl
  case h_2 => rfl

end

/-! ## Statistics of a side -/

/-- The statistics are right about a row. -/
def Known (stats : StatisticsMap) (row : Row) : Prop :=
  ∀ column columnStats, stats column = some columnStats →
    columnStats.Agrees (cellAt (some row) column)

theorem Known.update {st : StatisticsMap} {row : Row} (sure : Known st row) {col : Nat}
    {cst : ColumnStatistics} (agree : cst.Agrees (cellAt (some row) col)) :
    Known (update st col (some cst)) row := by
  intro col' columnStats got
  rcases eq_or_ne col' col with rfl | o
  · rw [update_self] at got
    obtain rfl := Option.some.inj got
    exact agree
  · rw [update_of_ne o] at got
    exact sure col' columnStats got

section

variable {condition : JoinCondition} {ls rs : StatisticsMap} {a b : Row}
variable (left : Known ls a) (right : Known rs b)

include left right

theorem pruneResult_true (res : pruneResult condition ls rs = filterAlwaysTrue) :
    condition.isTrue (inLeft a) (inRight b) = true := by
  rw [pruneResult] at res
  split at res
  case h_1 l r got got' =>
    exact propagateComparison_true (left _ l got) (right _ r got') res
  case h_2 => cases res

theorem pruneResult_false (res : (pruneResult condition ls rs).isFalse = true) :
    condition.isTrue (inLeft a) (inRight b) = false := by
  rw [pruneResult] at res
  split at res
  case h_1 l r got got' =>
    exact propagateComparison_false (left _ l got) (right _ r got') res
  case h_2 => cases res

theorem updateMaps_known (reg : condition.comparison.isDistinct = false)
    (true' : condition.isTrue (inLeft a) (inRight b) = true) :
    Known (updateMaps condition ls rs).1 a ∧ Known (updateMaps condition ls rs).2 b := by
  obtain ⟨x, y, cell, cell', _⟩ := Comparison.exists_of_isTrue reg true'
  have notNull : cellAt (some a) condition.left ≠ none := by
    change cellAt (inLeft a).1 condition.left ≠ none
    rw [cell]
    exact Option.some_ne_none x
  have notNull' : cellAt (some b) condition.right ≠ none := by
    change cellAt (inRight b).2 condition.right ≠ none
    rw [cell']
    exact Option.some_ne_none y
  rw [updateMaps]
  split
  case h_1 l r got got' =>
    obtain ⟨hag, hag'⟩ := updateFilterStatistics_agrees ((left _ l got).notNull notNull)
      ((right _ r got').notNull notNull') reg true'
    exact ⟨left.update hag, right.update hag'⟩
  case h_2 l got _ => exact ⟨left.update ((left _ l got).notNull notNull), right⟩
  case h_3 r _ got' => exact ⟨left, right.update ((right _ r got').notNull notNull')⟩
  case h_4 => exact ⟨left, right⟩

end

/-! ## The loop -/

/-- The state of the loop, with the filters that the children of the join have so far. -/
structure Progress (type : JoinType) (original kept conditions : List JoinCondition)
    (l r : Plan) (leftStats rightStats : StatisticsMap) (left right : List Row)
    (f g : Row → Bool) : Prop where
  left_eval : l.eval left right = (left.filter f).map inLeft
  right_eval : r.eval left right = (right.filter g).map inRight
  same : ∀ a ∈ left, ∀ b ∈ right,
    rowsMatch original a b = (f a && (g b && rowsMatch (kept ++ conditions) a b))
  known : ∀ a ∈ left, ∀ b ∈ right, rowsMatch kept a b = true →
    Known leftStats a ∧ Known rightStats b
  unfiltered : kept = [] ∨ type.filtersBoth = false → f = (fun _ => true) ∧ g = fun _ => true

/-- The outputs of two plans for a join have the same rows. -/
def SameOutput (type : JoinType) (plan plan' : Plan) (left right : List Row) : Prop :=
  (output type plan left right).Perm (output type plan' left right)

/-- An anti join whose other side has no row, and this side has one. -/
def Lonely (type : JoinType) (left right : List Row) : Prop :=
  type = .anti ∧ right = [] ∧ left ≠ [] ∨ type = .rightAnti ∧ left = [] ∧ right ≠ []

section

variable {ty : JoinType} {orig kept conditions : List JoinCondition} {l r : Plan}
variable {ls rs : StatisticsMap} {left right : List Row} {f g : Row → Bool}
variable {c condition : JoinCondition}

theorem eval_originalPlan (orig : List JoinCondition) (left right : List Row) :
    (originalPlan ty orig).eval left right = join ty (rowsMatch orig) left right :=
  eval_comparisonJoin rfl rfl ty orig

theorem output_originalPlan (orig : List JoinCondition)
    (left right : List Row) : output ty (originalPlan ty orig) left right =
      (join ty (rowsMatch orig) left right).map (returned ty) := by
  rw [output, eval_originalPlan]

/-- Only anti joins miss a partner. -/
theorem not_lonely (anti : ty ≠ .anti) (rightAnti : ty ≠ .rightAnti) : ¬ Lonely ty left right := by
  intro lonely
  rcases lonely with ⟨eq, _⟩ | ⟨eq, _⟩
  · exact anti eq
  · exact rightAnti eq

namespace Progress

theorem done (pr : Progress ty orig kept [] l r ls rs left right f g) :
    (Plan.comparisonJoin ty kept l r).eval left right = (originalPlan ty orig).eval left right := by
  obtain ⟨el, er, eq, _, unfiltered⟩ := pr
  rw [eval_comparisonJoin el er, eval_originalPlan]
  rw [append_nil] at eq
  cases fs : ty.filtersBoth with
  | true => exact join_filter fs eq
  | false =>
    obtain ⟨rfl, rfl⟩ := unfiltered (.inr fs)
    rw [filter_true, filter_true]
    exact (join_congr ty eq).symm

theorem never (pr : Progress ty orig kept (c :: conditions) l r ls rs
      left right f g) (res : (pruneResult c ls rs).isFalse = true)
    (conditions' : List JoinCondition) : output ty (falseJoin ty conditions' l r) left right =
      output ty (originalPlan ty orig) left right := by
  obtain ⟨el, er, eq, hk, unfiltered⟩ := pr
  have never : ∀ a ∈ left, ∀ b ∈ right, rowsMatch orig a b = false := by
    intro a mem b mem'
    rw [eq a mem b mem', rowsMatch_append, rowsMatch_cons]
    cases he : rowsMatch kept a b with
    | false => simp
    | true =>
      obtain ⟨knownLeft, knownRight⟩ := hk a mem b mem' he
      rw [pruneResult_false knownLeft knownRight res]
      simp
  rw [output, output, eval_falseJoin el er, eval_originalPlan, join_never ty never]
  cases fs : ty.filtersBoth with
  | true =>
    cases ty with
    | inner | semi => rfl
    | _ => cases fs
  | false =>
    obtain ⟨rfl, rfl⟩ := unfiltered (.inr fs)
    rw [filter_true, filter_true]

section

variable (pr : Progress ty orig kept (condition :: conditions) l r ls rs left right f g)

include pr

theorem erase (res : pruneResult condition ls rs = filterAlwaysTrue) :
    Progress ty orig kept conditions l r ls rs left right f g := by
  obtain ⟨el, er, eq, hk, unfiltered⟩ := pr
  refine ⟨el, er, ?_, hk, unfiltered⟩
  intro a mem b mem'
  rw [eq a mem b mem', rowsMatch_append, rowsMatch_append, rowsMatch_cons]
  cases he : rowsMatch kept a b with
  | false => simp
  | true =>
    obtain ⟨knownLeft, knownRight⟩ := hk a mem b mem' he
    rw [pruneResult_true knownLeft knownRight res, Bool.true_and]

theorem keep : Progress ty orig (kept ++ [condition]) conditions l r ls rs left right f g := by
  obtain ⟨el, er, eq, hk, unfiltered⟩ := pr
  refine ⟨el, er, ?_, ?_, ?_⟩
  · rw [append_assoc]
    exact eq
  · intro a mem b mem' all
    rw [rowsMatch_append, Bool.and_eq_true] at all
    exact hk a mem b mem' all.1
  · intro either
    rcases either with emp | unfiltered'
    · exact absurd emp (append_ne_nil_of_right_ne_nil _ (cons_ne_nil _ _))
    · exact unfiltered (.inr unfiltered')

/-- What a condition tells of its columns is right about the rows that it joins. -/
theorem learned (reg : condition.comparison.isDistinct = false) :
    ∀ a ∈ left, ∀ b ∈ right, rowsMatch (kept ++ [condition]) a b = true →
      Known (updateMaps condition ls rs).1 a ∧ Known (updateMaps condition ls rs).2 b := by
  intro a mem b mem' all
  rw [rowsMatch_append, rowsMatch_cons, Bool.and_eq_true, Bool.and_eq_true] at all
  obtain ⟨knownLeft, knownRight⟩ := pr.known a mem b mem' all.1
  exact updateMaps_known knownLeft knownRight reg all.2.1

/-- Filters that are true of all rows that are joined can be added below the join. -/
theorem filter {f' g' : Row → Bool} {l' r' : Plan} {leftStats' rightStats' : StatisticsMap}
    (filters : ty.filtersBoth = true)
    (el : l'.eval left right = ((left.filter f).filter f').map inLeft)
    (er : r'.eval left right = ((right.filter g).filter g').map inRight)
    (sure : ∀ a ∈ left, ∀ b ∈ right, rowsMatch (kept ++ [condition]) a b = true →
      Known leftStats' a ∧ Known rightStats' b)
    (implied : ∀ a ∈ left, ∀ b ∈ right, rowsMatch (kept ++ [condition]) a b = true →
      f' a = true ∧ g' b = true) :
    Progress ty orig (kept ++ [condition]) conditions l' r' leftStats' rightStats' left right
      (fun a => f' a && f a) fun b => g' b && g b := by
  rw [List.filter_filter] at el er
  refine ⟨el, er, ?_, sure, ?_⟩
  · intro a mem b mem'
    rw [pr.same a mem b mem', append_cons, rowsMatch_append]
    cases all : rowsMatch (kept ++ [condition]) a b with
    | false => simp
    | true =>
      obtain ⟨hh, hh'⟩ := implied a mem b mem' all
      simp only [hh, hh', Bool.true_and]
  · intro either
    rcases either with emp | unfiltered
    · exact absurd emp (append_ne_nil_of_right_ne_nil _ (cons_ne_nil _ _))
    · rw [filters] at unfiltered
      cases unfiltered

theorem update (reg : condition.comparison.isDistinct = false)
    (filters : ty.filtersBoth = true) {maps : StatisticsMap × StatisticsMap}
    {cs : Plan × Plan} (upd : updateMaps condition ls rs = maps)
    (pushed : pushFilters condition (ls condition.left) (rs condition.right)
      (maps.1 condition.left) (maps.2 condition.right) l r = cs) :
    ∃ f' g', Progress ty orig (kept ++ [condition]) conditions cs.1 cs.2 maps.1
      maps.2 left right f' g' := by
  have learned := pr.learned reg
  rw [upd] at learned
  unfold pushFilters at pushed
  split at pushed
  case h_1 pre pre' aft aft' _ _ got got' =>
    subst pushed
    refine ⟨_, _, pr.filter filters (eval_createFilterLeft pr.left_eval _ _ _)
      (eval_createFilterRight pr.right_eval _ _ _) learned ?_⟩
    intro a mem b mem' all
    obtain ⟨knownLeft, knownRight⟩ := learned a mem b mem' all
    rw [rowsMatch_append, rowsMatch_cons, Bool.and_eq_true, Bool.and_eq_true] at all
    obtain ⟨x, y, cell, cell', _⟩ := Comparison.exists_of_isTrue reg all.2.1
    have hag := knownLeft _ aft got
    have hag' := knownRight _ aft' got'
    change cellAt (some a) condition.left = some x at cell
    change cellAt (some b) condition.right = some y at cell'
    rw [cell] at hag
    rw [cell'] at hag'
    exact ⟨newBounds_true cell hag, newBounds_true cell' hag'⟩
  case h_2 =>
    subst pushed
    obtain ⟨el, er, eq, _, unfiltered⟩ := pr.keep
    exact ⟨f, g, el, er, eq, learned, unfiltered⟩

theorem learn : ∃ f' g', Progress ty orig (kept ++ [condition]) conditions
      (learn ty condition l r ls rs).1.1 (learn ty condition l r ls rs).1.2
      (learn ty condition l r ls rs).2.1 (learn ty condition l r ls rs).2.2 left right f' g' := by
  rw [Optimizer.learn]
  split_ifs with unchanged
  · exact ⟨f, g, pr.keep⟩
  · obtain ⟨reg, fs⟩ := Bool.or_eq_false_iff.mp (Bool.eq_false_of_not_eq_true unchanged)
    exact pr.update reg (Bool.not_eq_eq_eq_not.mp fs) rfl rfl

end

theorem always (pr : Progress ty orig [] [condition] l r ls rs left right f g)
    (res : pruneResult condition ls rs = filterAlwaysTrue) {plan : Plan}
    (got : trueJoin filterAlwaysTrue ty l r = some plan) :
    SameOutput ty plan (originalPlan ty orig) left right ↔ ¬ Lonely ty left right := by
  obtain ⟨el, er, eq, _, unfiltered⟩ := pr.erase res
  obtain ⟨rfl, rfl⟩ := unfiltered (.inl rfl)
  rw [filter_true] at el er
  have always : ∀ a ∈ left, ∀ b ∈ right, rowsMatch orig a b = true := eq
  rw [SameOutput, output_originalPlan]
  cases ty with
  | inner =>
    cases got
    refine iff_of_true ?_ (not_lonely JoinType.noConfusion JoinType.noConfusion)
    rw [output, eval_crossProduct el er, join_inner_always always]
  | semi =>
    cases got
    refine iff_of_true ?_ (not_lonely JoinType.noConfusion JoinType.noConfusion)
    rw [output_semiProduct el er, join_semi_always always]
    cases right.isEmpty with
    | true => exact List.Perm.nil
    | false => rw [if_neg Bool.false_ne_true, if_neg Bool.false_ne_true, List.map_map]; rfl
  | rightSemi =>
    cases got
    refine iff_of_true ?_ (not_lonely JoinType.noConfusion JoinType.noConfusion)
    rw [output_rightSemiProduct el er, join_rightSemi_always always]
    cases left.isEmpty with
    | true => exact List.Perm.nil
    | false => rw [if_neg Bool.false_ne_true, if_neg Bool.false_ne_true, List.map_map]; rfl
  | anti =>
    cases got
    rw [show output .anti .emptyResult left right = [] from rfl, nil_perm,
      map_eq_nil_iff, join_anti_always always, Lonely]
    simp
  | rightAnti =>
    cases got
    rw [show output .rightAnti .emptyResult left right = [] from rfl, nil_perm,
      map_eq_nil_iff, join_rightAnti_always always, Lonely]
    simp
  | left | right => cases got

end Progress

/-- All conditions are found to be always true. -/
def AllTrue (conditions : List JoinCondition) (leftStats rightStats : StatisticsMap) : Prop :=
  ∀ condition ∈ conditions, pruneResult condition leftStats rightStats = filterAlwaysTrue

/-- From every state of the loop on, only an anti join can become a plan with other rows. -/
theorem Progress.propagate (pr : Progress ty orig kept conditions l r ls rs left right f g) :
    SameOutput ty (propagateConditions ty kept conditions l r ls rs)
        (originalPlan ty orig) left right ↔
      ¬ (kept = [] ∧ conditions ≠ [] ∧ AllTrue conditions ls rs ∧ Lonely ty left right) := by
  induction conditions generalizing kept l r ls rs f g with
  | nil =>
    refine iff_of_true ?_ fun lonely => lonely.2.1 rfl
    rw [propagateConditions, SameOutput, output, output, pr.done]
  | cons condition conditions ih =>
    rw [propagateConditions]
    split_ifs with false' erased
    · refine iff_of_true ?_ ?_
      · rw [SameOutput, pr.never false']
      · intro lonely
        obtain ⟨_, _, all, _⟩ := lonely
        rw [all condition mem_cons_self] at false'
        cases false'
    · rw [ih (pr.erase erased.1), AllTrue, AllTrue, forall_mem_cons]
      have more := cons_ne_nil condition conditions
      tauto
    · cases hrp : trueJoin (pruneResult condition ls rs) ty l r with
      | some plan =>
        have true' : pruneResult condition ls rs = filterAlwaysTrue := by
          by_contra other
          unfold trueJoin at hrp
          rw [if_neg other] at hrp
          cases hrp
        have alone : kept = [] ∧ conditions = [] := by tauto
        obtain ⟨rfl, rfl⟩ := alone
        rw [true'] at hrp
        have all : AllTrue [condition] ls rs := forall_mem_singleton.mpr true'
        rw [pr.always true' hrp]
        tauto
      | none =>
        obtain ⟨_, _, next⟩ := pr.learn
        refine iff_of_true ((ih next).mpr ?_) ?_
        · intro wrong
          exact append_ne_nil_of_right_ne_nil _ (cons_ne_nil _ _) wrong.1
        · intro wrong
          obtain ⟨_, _, all, lonely⟩ := wrong
          rw [all condition mem_cons_self] at hrp
          rcases lonely with ⟨rfl, _⟩ | ⟨rfl, _⟩
          · cases hrp
          · cases hrp

end

/-- The plan that the propagation of statistics leaves for a join returns the same rows, unless
it is an anti join whose conditions are all found to be always true and whose other side has no
row: then the rows of its own side are lost. -/
theorem propagateStatistics_iff (type : JoinType) (conditions : List JoinCondition)
    (leftStats rightStats : StatisticsMap) (left right : List Row)
    (leftKnown : ∀ a ∈ left, Known leftStats a) (rightKnown : ∀ b ∈ right, Known rightStats b) :
    SameOutput type (propagateStatistics type conditions leftStats rightStats)
        (originalPlan type conditions) left right ↔
      ¬ (conditions ≠ [] ∧ AllTrue conditions leftStats rightStats ∧ Lonely type left right) := by
  have start : Progress type conditions [] conditions .leftInput .rightInput leftStats rightStats
      left right (fun _ => true) fun _ => true := by
    refine ⟨?_, ?_, fun _ _ _ _ => rfl, ?_, fun _ => ⟨rfl, rfl⟩⟩
    · rw [filter_true]
      rfl
    · rw [filter_true]
      rfl
    · intro a mem b mem' _
      exact ⟨leftKnown a mem, rightKnown b mem'⟩
  rw [propagateStatistics, start.propagate]
  simp

/-- Statistics of the first column only. -/
def firstColumn (stats : ColumnStatistics) : StatisticsMap := update (fun _ => none) 0 (some stats)

theorem known_firstColumn {st : ColumnStatistics} {cell : Cell} (agree : st.Agrees cell) :
    Known (firstColumn st) [cell] :=
  Known.update (fun _ _ got => absurd got (Option.some_ne_none _).symm) agree

/-- Values from 10 to 20 are greater than those from 1 to 5, and the join is not needed. -/
theorem propagateStatistics_semi :
    SameOutput .semi (propagateStatistics .semi [⟨0, 0, .greaterThan⟩]
        (firstColumn ⟨some 10, some 20, false⟩) (firstColumn ⟨some 1, some 5, false⟩))
      (originalPlan .semi [⟨0, 0, .greaterThan⟩]) [[some 12], [some 20]] [[some 3]] := by
  refine (propagateStatistics_iff _ _ _ _ _ _ ?_ ?_).mpr ?_
  · rw [forall_mem_cons, forall_mem_singleton]
    exact ⟨known_firstColumn ⟨by simp, by simp⟩, known_firstColumn ⟨by simp, by simp⟩⟩
  · rw [forall_mem_singleton]
    exact known_firstColumn ⟨by simp, by simp⟩
  · exact fun lonely => not_lonely JoinType.noConfusion JoinType.noConfusion lonely.2.2

/-- The row 12 has no partner in an empty table, but is lost. -/
theorem propagateStatistics_anti_empty : Known (firstColumn ⟨some 10, some 20, false⟩) [some 12] ∧
      ¬ SameOutput .anti (propagateStatistics .anti [⟨0, 0, .greaterThan⟩]
          (firstColumn ⟨some 10, some 20, false⟩) (firstColumn ⟨some 1, some 5, false⟩))
        (originalPlan .anti [⟨0, 0, .greaterThan⟩]) [[some 12]] [] := by
  refine ⟨known_firstColumn ⟨by simp, by simp⟩, ?_⟩
  intro same
  exact absurd same.length_eq (by decide)

end AccessPath.Optimizer
