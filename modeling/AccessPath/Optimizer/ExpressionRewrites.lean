import Mathlib.Data.Fintype.Option
import AccessPath.Optimizer.Expression

/-!
# Rewriting one expression by the statistics of its operands

What is left in place of a comparison, COALESCE, conjunction or BETWEEN, and the statistics that
are returned for it.
-/

namespace AccessPath.Optimizer

open FilterPropagateResult List

variable {hasNull : Bool} {c : Comparison} {lmax lmin rmax rmin : Int}

/-! ## Three-valued logic -/

theorem connect_unit (isAnd : Bool) (v : Option Bool) : connect isAnd v (some isAnd) = v := by
  rcases v with _ | v
  · exact if_pos (beq_self_eq_true isAnd)
  · cases isAnd <;> cases v <;> rfl

theorem connect_assoc (isAnd : Bool) (a b c : Option Bool) :
    connect isAnd (connect isAnd b a) c = connect isAnd a (connect isAnd b c) := by
  revert a b c
  cases isAnd <;> decide

theorem foldl_connect (isAnd : Bool) (fst : Option Bool) (os : List (Option Bool)) :
    os.foldl (fun res cur => connect isAnd cur res) fst =
      connect isAnd fst (evalConjunction isAnd os) := by
  induction os generalizing fst with
  | nil => exact (connect_unit isAnd fst).symm
  | cons snd os ih =>
    rw [foldl_cons, ih, connect_assoc, evalConjunction, ih]

section

variable (isAnd : Bool) (v : Option Bool)
include isAnd v

theorem evalConjunction_cons (vs : List (Option Bool)) :
    evalConjunction isAnd (v :: vs) = connect isAnd v (evalConjunction isAnd vs) :=
  foldl_connect isAnd v vs

theorem connect_decided : connect isAnd (some (!isAnd)) v = some (!isAnd) := by
  revert v
  cases isAnd <;> decide

theorem connect_decided_right : connect isAnd v (some (!isAnd)) = some (!isAnd) := by
  revert v
  cases isAnd <;> decide

theorem connect_unit_left : connect isAnd (some isAnd) v = v := by
  revert v
  cases isAnd <;> decide

end

/-! ## Comparisons -/

/-- The constant that a comparison is, where it is not NULL. -/
def FilterPropagateResult.constant? : FilterPropagateResult → Option Bool
  | filterAlwaysTrue | filterTrueOrNull => some true
  | filterAlwaysFalse | filterFalseOrNull => some false
  | noPruningPossible => none

/-- A constant, or NULL if one of two values is. -/
def orNull (constant : Bool) (x y : Cell) : Option Bool :=
  if x.isSome && y.isSome then some constant else none

theorem decided_constant {always never const : Bool}
    (got : (decided always never hasNull).constant? = some const) :
    decided always never false = if const then filterAlwaysTrue else filterAlwaysFalse := by
  revert always never hasNull const
  decide

theorem propagateRanges_constant {const : Bool}
    (got : (propagateRanges lmin lmax rmin rmax hasNull c).constant? = some const) :
    c.isDistinct = false ∧ propagateRanges lmin lmax rmin rmax false c =
      if const then filterAlwaysTrue else filterAlwaysFalse := by
  cases c with
  | notEqual | distinctFrom | notDistinctFrom => cases got
  | _ => exact ⟨rfl, decided_constant got⟩

theorem propagateRanges_holds {lmin lmax rmin rmax a b : Int} {const : Bool} {c : Comparison}
    (lh : lmin ≤ a ∧ a ≤ lmax) (rh : rmin ≤ b ∧ b ≤ rmax)
    (sure : propagateRanges lmin lmax rmin rmax false c =
      if const then filterAlwaysTrue else filterAlwaysFalse) : c.holds a b = const := by
  cases const with
  | true => exact propagateRanges_true lh rh sure
  | false =>
    refine @propagateRanges_false _ _ _ _ _ _ false _ lh rh ?_
    rw [sure]
    rfl

/-- A result that holds of NULLs as well. -/
def FilterPropagateResult.isCertain : FilterPropagateResult → Bool
  | filterAlwaysTrue | filterAlwaysFalse => true
  | _ => false

theorem decided_certain {always never : Bool}
    (certain : (decided always never hasNull).isCertain = true) : hasNull = false := by
  revert always never hasNull
  decide

theorem propagateRanges_certain
    (certain : (propagateRanges lmin lmax rmin rmax hasNull c).isCertain = true) :
    hasNull = false := by
  cases c with
  | notEqual | distinctFrom | notDistinctFrom => cases certain
  | _ => exact decided_certain certain

section

variable {lstats rstats : ColumnStatistics} {c : Comparison} {x y : Cell}
variable (lh : lstats.Agrees x) (rh : rstats.Agrees y)

include lh rh

/-- A comparison whose constant is known is this constant or NULL. -/
theorem propagateComparison_eval {const : Bool}
    (got : (propagateComparison lstats rstats c).constant? = some const) :
    c.eval x y = orNull const x y := by
  obtain hno | ⟨_, _, _, _, low, high, low', high', ranges⟩ :=
    propagateComparison_cases lstats rstats c
  · rw [hno] at got
    cases got
  · rw [ranges] at got
    obtain ⟨regular, got⟩ := propagateRanges_constant got
    have null : ∀ v : Option Bool, (if c.isDistinct then v else none) = none :=
      fun v => if_neg (by rw [regular]; exact Bool.false_ne_true)
    rcases x with _ | _
    · rcases y with _ | b
      · exact null _
      · exact null _
    · rcases y with _ | _
      · exact null _
      · exact congrArg some (propagateRanges_holds ⟨lh.1 _ low, lh.2 _ high⟩
          ⟨rh.1 _ low', rh.2 _ high'⟩ got)

/-- Neither value is NULL if the constant is known for certain. -/
theorem propagateComparison_some
    (certain : (propagateComparison lstats rstats c).isCertain = true) :
    x.isSome = true ∧ y.isSome = true := by
  obtain hno | ⟨_, _, _, _, -, -, -, -, ranges⟩ :=
    propagateComparison_cases lstats rstats c
  · rw [hno] at certain
    cases certain
  · rw [ranges] at certain
    obtain ⟨noNull, noNull'⟩ := Bool.or_eq_false_iff.mp (propagateRanges_certain certain)
    obtain ⟨_, rfl⟩ := lh.exists_of_notNull noNull
    obtain ⟨_, rfl⟩ := rh.exists_of_notNull noNull'
    exact ⟨rfl, rfl⟩

theorem propagateComparison_certain {const : Bool} (certain : propagateComparison lstats rstats c =
      if const then filterAlwaysTrue else filterAlwaysFalse) :
    c.eval x y = some const := by
  have hk : (propagateComparison lstats rstats c).constant? = some const := by
    rw [certain]
    cases const <;> rfl
  obtain ⟨some', some''⟩ := propagateComparison_some lh rh (c := c)
    (by rw [certain]; cases const <;> rfl)
  rw [propagateComparison_eval lh rh hk, orNull, some', some'']
  rfl

end

/-! ## Rewritten expressions -/

variable {t : SqlType} {row : Nat → Cell}

/-- What is left in place of an expression has its value, and the statistics are right about it. -/
structure Sound (row : Nat → Cell) (propagated : Propagated t) (value : Option t.Value) : Prop where
  eval_eq : eval row propagated.1 = value
  agrees : ∀ stats ∈ propagated.2, stats.Agrees (SqlType.cell value)

theorem fromConstant_agrees (v : Cell) : (BaseStatistics.fromConstant v).Agrees v := by
  cases v with
  | none => exact ⟨rfl, fun _ => rfl⟩
  | some a =>
    refine ⟨⟨?_, ?_⟩, fun noNull => absurd noNull.symm Bool.false_ne_true⟩
    · intro low mem
      cases mem
      exact le_refl _
    · intro high mem
      cases mem
      exact le_refl _

theorem Sound.constant (v : Bool) : Sound row (propagatedConstant v) (some v) where
  eval_eq := rfl
  agrees stats mem := by
    cases mem
    exact fromConstant_agrees _

theorem Sound.unknown {e : Expression t} {v : Option t.Value} (eval_eq : eval row e = v) :
    Sound row (e, none) v where
  eval_eq := eval_eq
  agrees _ mem := absurd mem (Option.not_mem_none _)

theorem isSome_cell (v : Option t.Value) : (SqlType.cell v).isSome = v.isSome := Option.isSome_map

theorem evalChildren_ofList (cs : List (Expression t)) :
    evalChildren row (.ofList cs) = cs.map (eval row) := by
  induction cs with
  | nil => rfl
  | cons c cs ih => exact congrArg (eval row c :: ·) ih

theorem eval_constantOrNull (const : Bool) (cs : List (Expression t)) :
    eval row (.constantOrNull const (.ofList cs)) =
      if cs.all fun c => (eval row c).isSome then some const else none := by
  rw [eval, evalChildren_ofList, List.all_map]
  rfl

theorem compare_sound {lh rh : Propagated t} {a b : Option t.Value} (c : Comparison)
    (soundLeft : Sound row lh a) (soundRight : Sound row rh b) :
    Sound row (propagateCompare c lh rh) (c.eval (SqlType.cell a) (SqlType.cell b)) := by
  obtain ⟨lh, ls⟩ := lh
  obtain ⟨rh, rs⟩ := rh
  obtain ⟨rfl, leftAgrees⟩ := soundLeft
  obtain ⟨rfl, rightAgrees⟩ := soundRight
  rcases ls with _ | ls
  · exact .unknown rfl
  rcases rs with _ | rs
  · exact .unknown rfl
  have agree := (leftAgrees _ rfl).1
  have agree' := (rightAgrees _ rfl).1
  have constantOrNull : ∀ const : Bool,
      (propagateComparison ls.toColumnStatistics rs.toColumnStatistics c).constant? = some const →
      Sound row (.constantOrNull const (.ofList [lh, rh]), none)
        (c.eval (SqlType.cell (eval row lh)) (SqlType.cell (eval row rh))) := by
    intro const hk
    refine .unknown ?_
    rw [eval_constantOrNull, propagateComparison_eval agree agree' hk, orNull, isSome_cell,
      isSome_cell, all_cons, all_cons, all_nil, Bool.and_true]
  simp only [propagateCompare]
  split
  case h_1 res =>
    rw [@propagateComparison_certain _ _ _ _ _ agree agree' true res]
    exact .constant true
  case h_2 res =>
    rw [@propagateComparison_certain _ _ _ _ _ agree agree' false res]
    exact .constant false
  case h_3 res => exact constantOrNull true (by rw [res]; rfl)
  case h_4 res => exact constantOrNull false (by rw [res]; rfl)
  case h_5 => exact .unknown rfl

theorem isNull_sound {c : Propagated t} {v : Option t.Value} {ifNull : Bool}
    {unchanged : Expression .boolean} (ok : Sound row c v)
    (same : eval row unchanged = some (v.isNone == ifNull)) :
    Sound row (propagateIsNull unchanged ifNull c.2) (some (v.isNone == ifNull)) := by
  obtain ⟨c, st⟩ := c
  rcases st with _ | st
  · exact .unknown same
  obtain ⟨ha, null⟩ := ok.agrees _ rfl
  simp only [propagateIsNull]
  split_ifs with never always
  · rcases v with _ | a
    · rw [show st.canHaveNull = true from ha] at never
      cases never
    · cases ifNull <;> exact .constant _
  · rcases v with _ | _
    · cases ifNull <;> exact .constant _
    · exact absurd (null (by simpa using always)) (Option.some_ne_none _)
  · exact .unknown same

/-! ### COALESCE -/

theorem evalCoalesce_append {α : Type} (vs os : List (Option α)) :
    evalCoalesce (vs ++ os) = (evalCoalesce vs).or (evalCoalesce os) := by
  induction vs with
  | nil => rfl
  | cons v vs ih =>
    rcases v with _ | _
    · exact ih
    · rfl

theorem evalCoalesce_mem {α : Type} {vs : List (Option α)} (some : vs ≠ []) :
    evalCoalesce vs ∈ vs := by
  induction vs with
  | nil => exact absurd rfl some
  | cons v vs ih =>
    rcases v with _ | _
    · rcases vs with _ | ⟨_, _⟩
      · exact mem_cons_self
      · exact mem_cons_of_mem _ (ih (cons_ne_nil _ _))
    · exact mem_cons_self

theorem mergeBound_eq_some {choose : Int → Int → Int} {x y : Option Int} {bd : Int}
    (merged : BaseStatistics.mergeBound choose x y = some bd) :
    ∃ a b, x = some a ∧ y = some b ∧ choose a b = bd := by
  rcases x with _ | a
  · cases merged
  rcases y with _ | b
  · cases merged
  exact ⟨a, b, rfl, rfl, Option.some.inj merged⟩

theorem merge_agrees {st o : BaseStatistics} {v : Cell}
    (agree : st.Agrees v ∨ o.Agrees v) : (st.merge o).Agrees v := by
  refine ⟨?_, fun noNull => ?_⟩
  · rcases v with _ | _
    · exact Bool.or_eq_true_iff.mpr (agree.imp And.left And.left)
    · refine ⟨fun low mem => ?_, fun high mem => ?_⟩
      · obtain ⟨b, c, fst, snd, rfl⟩ := mergeBound_eq_some mem
        rcases agree with ⟨⟨low, -⟩, -⟩ | ⟨⟨low, -⟩, -⟩
        · have := low b fst
          split_ifs <;> omega
        · have := low c snd
          split_ifs <;> omega
      · obtain ⟨b, c, fst, snd, rfl⟩ := mergeBound_eq_some mem
        rcases agree with ⟨⟨-, high⟩, -⟩ | ⟨⟨-, high⟩, -⟩
        · have := high b fst
          split_ifs <;> omega
        · have := high c snd
          split_ifs <;> omega
  · obtain ⟨fst, snd⟩ := Bool.or_eq_false_iff.mp noNull
    exact agree.elim (fun agree => agree.2 fst) fun agree => agree.2 snd

/-- The statistics are right about children. -/
def AllAgree (row : Nat → Cell) (children : List (Expression t × BaseStatistics)) : Prop :=
  ∀ child ∈ children, child.2.Agrees (SqlType.cell (eval row child.1))

theorem pruneCoalesce_spec {kept cs : List (Expression t × BaseStatistics)}
    (agree : AllAgree row (kept ++ cs)) :
    AllAgree row (pruneCoalesce kept cs) ∧
      evalCoalesce ((pruneCoalesce kept cs).map fun c => eval row c.1) =
        evalCoalesce ((kept ++ cs).map fun c => eval row c.1) := by
  induction cs generalizing kept with
  | nil =>
    rw [append_nil] at agree ⊢
    exact ⟨agree, rfl⟩
  | cons c cs ih =>
    have keep := @ih (kept ++ [c]) (by rwa [append_assoc])
    rw [append_assoc, singleton_append] at keep
    obtain ⟨childAgrees, null⟩ := agree c (mem_append_right _ mem_cons_self)
    rw [pruneCoalesce]
    split_ifs with always several never
    · have v : eval row c.1 = none := Option.map_eq_none_iff.mp (null (by simpa using always))
      obtain ⟨agree', same⟩ := @ih kept fun o mem => agree o
        (mem_append.mpr ((mem_append.mp mem).imp_right (mem_cons_of_mem _)))
      refine ⟨agree', same.trans ?_⟩
      rw [map_append, map_append, map_cons, v, evalCoalesce_append, evalCoalesce_append]
      rfl
    · exact keep
    · obtain ⟨_, v⟩ := childAgrees.exists_of_notNull (by simpa using never)
      obtain ⟨_, v, -⟩ := Option.map_eq_some_iff.mp v
      refine ⟨fun o mem => agree o ?_, ?_⟩
      · rw [append_cons]
        exact mem_append_left _ mem
      · rw [map_append, map_append, map_cons, map_cons, v, evalCoalesce_append, evalCoalesce_append]
        rfl
    · exact keep

variable {os : List (Expression t × BaseStatistics)}

theorem foldl_merge_agrees {v : Cell} {st : BaseStatistics}
    (agree : st.Agrees v ∨ ∃ o ∈ os, o.2.Agrees v) :
    (os.foldl (fun st c => st.merge c.2) st).Agrees v := by
  induction os generalizing st with
  | nil =>
    rcases agree with agree | ⟨_, mem, _⟩
    · exact agree
    · exact absurd mem not_mem_nil
  | cons o os ih =>
    refine ih ?_
    rcases agree with agree | ⟨c, mem, agree⟩
    · exact .inl (merge_agrees (.inl agree))
    · rcases mem_cons.mp mem with rfl | mem
      · exact .inl (merge_agrees (.inr agree))
      · exact .inr ⟨c, mem, agree⟩

/-- The merged statistics are right about the value of a COALESCE. -/
theorem coalesce_agrees {fst : Expression t × BaseStatistics} (agree : AllAgree row (fst :: os)) :
    (os.foldl (fun st c => st.merge c.2) fst.2).Agrees
      (SqlType.cell (evalCoalesce ((fst :: os).map fun c => eval row c.1))) := by
  have some : (fst :: os).map (fun c => eval row c.1) ≠ [] := cons_ne_nil _ _
  obtain ⟨c, mem, v⟩ := List.mem_map.mp (evalCoalesce_mem some)
  rw [← v]
  refine foldl_merge_agrees ?_
  rcases mem_cons.mp mem with rfl | mem
  · exact .inl (agree _ mem_cons_self)
  · exact .inr ⟨c, mem, agree c (mem_cons_of_mem _ mem)⟩

theorem coalesce_sound {cs : List (Expression t × BaseStatistics)} (agree : AllAgree row cs) :
    Sound row (propagateCoalesce cs) (evalCoalesce (cs.map fun c => eval row c.1)) := by
  obtain ⟨agree', same⟩ := @pruneCoalesce_spec _ _ [] _ agree
  rw [nil_append] at same
  rw [← same, propagateCoalesce]
  generalize pruneCoalesce [] cs = kept at agree'
  rcases kept with _ | ⟨fst, _ | ⟨_, _⟩⟩
  · exact .unknown rfl
  · refine ⟨?_, fun st mem => ?_⟩
    · simp only [map_cons, map_nil]
      cases eval row fst.1 <;> rfl
    · cases mem
      exact coalesce_agrees agree'
  · refine ⟨?_, fun st mem => ?_⟩
    · rw [eval, evalChildren_ofList, List.map_map]
      rfl
    · cases mem
      exact coalesce_agrees agree'

theorem map_eval_of_sound {cs : List (Propagated t)} {vs : List (Option t.Value)}
    (ok : List.Forall₂ (Sound row) cs vs) : (cs.map Prod.fst).map (eval row) = vs := by
  induction ok with
  | nil => rfl
  | cons head _ ih => rw [map_cons, map_cons, head.eval_eq, ih]

theorem allHaveStats_sound {cs : List (Propagated t)} {vs : List (Option t.Value)}
    (ok : List.Forall₂ (Sound row) cs vs) :
    ∀ pairs ∈ allHaveStats cs, AllAgree row pairs ∧ pairs.map (fun c => eval row c.1) = vs := by
  induction ok with
  | nil =>
    intro pairs mem
    cases mem
    exact ⟨fun _ mem => absurd mem not_mem_nil, rfl⟩
  | @cons c v cs vs head _ ih =>
    obtain ⟨c, st⟩ := c
    obtain ⟨rfl, ha⟩ := head
    intro pairs mem
    rcases st with _ | st
    · cases mem
    · obtain ⟨pairs, rest, rfl⟩ := Option.map_eq_some_iff.mp mem
      obtain ⟨agree, rfl⟩ := ih pairs rest
      exact ⟨forall_mem_cons.mpr ⟨ha st rfl, agree⟩, rfl⟩

/-! ### Conjunctions -/

mutual

theorem eval_foldable (row : Nat → Cell) :
    ∀ {t : SqlType} (e : Expression t), isFoldable e = true → eval row e = evaluateScalar e
  | _, .columnRef _, hfo => absurd hfo Bool.false_ne_true
  | _, .constant _, _ => rfl
  | _, .compare _ lh rh, hfo => by
    obtain ⟨hfo, hfo'⟩ := Bool.and_eq_true_iff.mp hfo
    rw [evaluateScalar, eval, eval, eval_foldable row lh hfo, eval_foldable row rh hfo']
    rfl
  | _, .between _ _ inp lo hi, hfo => by
    obtain ⟨hfo, upperFoldable⟩ := Bool.and_eq_true_iff.mp hfo
    obtain ⟨inputFoldable, lowerFoldable⟩ := Bool.and_eq_true_iff.mp hfo
    rw [evaluateScalar, eval, eval, eval_foldable row inp inputFoldable,
      eval_foldable row lo lowerFoldable, eval_foldable row hi upperFoldable]
    rfl
  | _, .isNull c, hfo => by
    rw [evaluateScalar, eval, eval, eval_foldable row c hfo]
    rfl
  | _, .isNotNull c, hfo => by
    rw [evaluateScalar, eval, eval, eval_foldable row c hfo]
    rfl
  | _, .coalesce cs, hfo => by
    rw [evaluateScalar, eval, eval, evalChildren_foldable row cs hfo]
  | _, .not c, hfo => by
    rw [evaluateScalar, eval, eval, eval_foldable row c hfo]
    rfl
  | _, .conjunction _ cs, hfo => by
    rw [evaluateScalar, eval, eval, evalChildren_foldable row cs hfo]
  | _, .constantOrNull _ cs, hfo => by
    rw [evaluateScalar, eval, eval, evalChildren_foldable row cs hfo]

theorem evalChildren_foldable (row : Nat → Cell) :
    ∀ {t : SqlType} (cs : Expressions t), areFoldable cs = true →
      evalChildren row cs = evalChildren (fun _ => none) cs
  | _, .nil, _ => rfl
  | _, .cons c cs, hfo => by
    obtain ⟨hfo, hfo'⟩ := Bool.and_eq_true_iff.mp hfo
    rw [evalChildren, evalChildren, eval_foldable row c hfo, evalChildren_foldable row cs hfo']
    rfl

end

/-- What the loop over the children of a conjunction leaves has its value. -/
theorem pruneConjunction_eval (isAnd : Bool) (cs : List (Expression .boolean)) :
    evalConjunction isAnd (cs.map (eval row)) =
      (pruneConjunction isAnd cs).elim (some (!isAnd)) fun kept =>
        evalConjunction isAnd (kept.map (eval row)) := by
  induction cs with
  | nil => rfl
  | cons c cs ih =>
    have step : evalConjunction isAnd ((c :: cs).map (eval row)) =
        connect isAnd (eval row c) (evalConjunction isAnd (cs.map (eval row))) :=
      evalConjunction_cons _ _ _
    have kept : evalConjunction isAnd ((c :: cs).map (eval row)) =
        ((pruneConjunction isAnd cs).map (c :: ·)).elim (some (!isAnd)) fun kept =>
          evalConjunction isAnd (kept.map (eval row)) := by
      rw [step, ih]
      rcases pruneConjunction isAnd cs with _ | kept
      · exact connect_decided_right _ _
      · exact (evalConjunction_cons _ _ _).symm
    rw [pruneConjunction]
    split_ifs with hfo
    · split
      case h_1 v const =>
        rw [step, eval_foldable row c hfo, const]
        split_ifs with unit
        · rw [beq_iff_eq.mp unit]
          exact (connect_unit_left _ _).trans ih
        · rw [Bool.eq_not.mpr fun heq => unit (beq_iff_eq.mpr heq)]
          exact connect_decided _ _
      case h_2 => exact kept
    · exact kept

theorem conjunction_sound (isAnd : Bool) (cs : List (Expression .boolean)) :
    Sound row (propagateConjunction isAnd cs) (evalConjunction isAnd (cs.map (eval row))) := by
  rw [pruneConjunction_eval, propagateConjunction]
  rcases pruneConjunction isAnd cs with _ | _ | ⟨_, _ | ⟨_, _⟩⟩
  · exact .constant _
  · exact .constant _
  · exact .unknown rfl
  · refine .unknown ?_
    rw [eval, evalChildren_ofList]
    rfl

/-! ### BETWEEN -/

theorem lowerComparisonType_null (inclusive : Bool) {inp lo : Cell}
    (null : inp = none ∨ lo = none) : (lowerComparisonType inclusive).eval inp lo = none := by
  rcases null with rfl | rfl
  · cases inclusive <;> cases lo <;> rfl
  · cases inclusive <;> cases inp <;> rfl

theorem upperComparisonType_null (inclusive : Bool) {inp hi : Cell}
    (null : inp = none ∨ hi = none) : (upperComparisonType inclusive).eval inp hi = none := by
  rcases null with rfl | rfl
  · cases inclusive <;> cases hi <;> rfl
  · cases inclusive <;> cases inp <;> rfl

theorem connect_null {a b : Option Bool} (null : a = none ∨ b = none) :
    connect true a b ≠ some true := by
  revert a b
  decide

theorem connect_orNull (x lo hi : Cell) : connect true (orNull true x lo) (orNull true x hi) =
      if x.isSome && (lo.isSome && hi.isSome) then some true else none := by
  rcases x with _ | _
  · rfl
  rcases lo with _ | _
  · cases hi <;> rfl
  · cases hi <;> rfl

/-- What is known of a comparison with a bound. -/
structure PruneSound (result : FilterPropagateResult) (comparison : Comparison) (x y : Cell) :
    Prop where
  eval_eq : ∀ constant, result.constant? = some constant → comparison.eval x y = orNull constant x y
  isSome : result.isCertain = true → x.isSome = true ∧ y.isSome = true

theorem boundPrune_sound {inputStats : BaseStatistics} {bd : Option BaseStatistics} {x y : Cell}
    (agree : inputStats.Agrees x) (boundAgrees : ∀ st ∈ bd, st.Agrees y) (cmp : Comparison) :
    PruneSound (boundPrune inputStats bd cmp) cmp x y := by
  rcases bd with _ | _
  · exact ⟨fun const hk => absurd hk.symm (Option.some_ne_none _), fun certain =>
      absurd certain Bool.false_ne_true⟩
  · have ha' := (boundAgrees _ rfl).1
    exact ⟨fun const => propagateComparison_eval agree.1 ha', propagateComparison_some agree.1 ha'⟩

theorem PruneSound.certain {res : FilterPropagateResult} {cmp : Comparison} {x y : Cell}
    (ok : PruneSound res cmp x y) {const : Bool}
    (sure : res = if const then filterAlwaysTrue else filterAlwaysFalse) :
    cmp.eval x y = some const := by
  obtain ⟨some', some''⟩ := ok.isSome (by rw [sure]; cases const <;> rfl)
  rw [ok.eval_eq const (by rw [sure]; cases const <;> rfl), orNull, some', some'']
  rfl

/-- A constant or NULL in place of a BETWEEN is NULL for any operand that is. -/
theorem eval_constantOrNull_between (inp lo hi : Expression t) (const : Bool) :
    eval row (.constantOrNull const (.ofList [inp, lo, hi])) =
      if (SqlType.cell (eval row inp)).isSome && ((SqlType.cell (eval row lo)).isSome &&
        (SqlType.cell (eval row hi)).isSome) then some const else none := by
  rw [eval_constantOrNull, isSome_cell, isSome_cell, isSome_cell, all_cons, all_cons,
    all_cons, all_nil, Bool.and_true]

section

variable {li ui : Bool} {inp lo hi : Expression t}
variable {lowerPrune upperPrune : FilterPropagateResult}
variable (lowerSound : PruneSound lowerPrune (lowerComparisonType li)
  (SqlType.cell (eval row inp)) (SqlType.cell (eval row lo)))
variable (upperSound : PruneSound upperPrune (upperComparisonType ui)
  (SqlType.cell (eval row inp)) (SqlType.cell (eval row hi)))
variable (settled : SqlType.cell (eval row lo) = none ∨ SqlType.cell (eval row hi) = none →
  evalBetween li ui (SqlType.cell (eval row inp)) (SqlType.cell (eval row lo))
    (SqlType.cell (eval row hi)) ≠ some false)

include lowerSound upperSound settled

/-- False or NULL in place of a BETWEEN is NULL if a bound is, and then the BETWEEN must not be
false. -/
theorem eval_falseOrNull (weak : lowerPrune = filterFalseOrNull ∨ upperPrune = filterFalseOrNull) :
    eval row (.constantOrNull false (.ofList [inp, lo, hi])) =
      evalBetween li ui (SqlType.cell (eval row inp)) (SqlType.cell (eval row lo))
        (SqlType.cell (eval row hi)) := by
  rw [eval_constantOrNull_between]
  generalize SqlType.cell (eval row inp) = x at *
  generalize SqlType.cell (eval row lo) = low at *
  generalize SqlType.cell (eval row hi) = high at *
  rcases x with _ | x
  · rw [evalBetween, lowerComparisonType_null _ (.inl rfl), upperComparisonType_null _ (.inl rfl)]
    rfl
  rcases Classical.em (low = none ∨ high = none) with null | notNull
  · have notTrue : evalBetween li ui (some x) low high ≠ some true :=
      connect_null (null.imp (fun null => lowerComparisonType_null _ (.inr null)) fun null =>
        upperComparisonType_null _ (.inr null))
    have isNull : (low.isSome && high.isSome) = false := by
      rcases null with rfl | rfl
      · rfl
      · exact Bool.and_false _
    rw [isNull, Bool.and_false, if_neg Bool.false_ne_true]
    rcases value : evalBetween li ui (some x) low high with _ | constant
    · rfl
    · cases constant with
      | true => exact absurd value notTrue
      | false => exact absurd value (settled null)
  · obtain ⟨_, rfl⟩ := Option.ne_none_iff_exists'.mp (not_or.mp notNull).1
    obtain ⟨_, rfl⟩ := Option.ne_none_iff_exists'.mp (not_or.mp notNull).2
    symm
    rcases weak with rfl | rfl
    · rw [evalBetween, lowerSound.eval_eq false rfl]
      exact connect_decided true _
    · rw [evalBetween, upperSound.eval_eq false rfl]
      exact connect_decided_right true _

/-- A rewritten BETWEEN has the same value. -/
theorem pruneBetween_eval : eval row (pruneBetween li ui inp lo hi lowerPrune upperPrune) =
      evalBetween li ui (SqlType.cell (eval row inp)) (SqlType.cell (eval row lo))
        (SqlType.cell (eval row hi)) := by
  have lowerCertain := fun const => @PruneSound.certain _ _ _ _ lowerSound const
  have upperCertain := fun const => @PruneSound.certain _ _ _ _ upperSound const
  rw [pruneBetween]
  split_ifs with bothTrue oneFalse weak bothTrueOrNull lowerTrue upperTrue
  · rw [evalBetween, lowerCertain true bothTrue.1, upperCertain true bothTrue.2]
    rfl
  · rw [evalBetween]
    rcases oneFalse with lowerFalse | upperFalse
    · rw [lowerCertain false lowerFalse]
      exact (connect_decided true _).symm
    · rw [upperCertain false upperFalse]
      exact (connect_decided_right true _).symm
  · exact eval_falseOrNull lowerSound upperSound settled weak
  · rw [eval_constantOrNull_between, evalBetween,
      lowerSound.eval_eq true (by rw [bothTrueOrNull.1]; rfl),
      upperSound.eval_eq true (by rw [bothTrueOrNull.2]; rfl), connect_orNull]
  · rw [eval, evalBetween, lowerCertain true lowerTrue, connect_unit_left]
  · rw [eval, evalBetween, upperCertain true upperTrue, connect_unit]
  · rw [eval]

end

end AccessPath.Optimizer
