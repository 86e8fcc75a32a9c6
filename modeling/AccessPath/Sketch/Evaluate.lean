import AccessPath.Sketch.ColumnSketch

/-!
# What the evaluation of a sketch selects

Each evaluation selects the rows whose codes, and values where they are read, satisfy its
predicates. It is right for exactly those values for which an endpoint separates a row that is
decided by its code from the constant.
-/

namespace AccessPath

open Library List Option Nat

variable {codeX : BitVec 8} {i size : Nat} {row : Nat → Bool}

/-- The selection, its count and the bitmask are those of the rows that satisfy a predicate. -/
structure ManagedSelection.Describes (msel : ManagedSelection) (size : Nat) (row : Nat → Bool) :
    Prop where
  selection : msel.selection.take msel.count = (range size).filter row
  count : msel.count = ((range size).filter row).length
  bit : ∀ i, msel.bit i = (decide (i < size) && row i)

/-- An evaluation returns the number of the rows that satisfy a predicate, and describes them. -/
def Evaluates (result : Nat × ManagedSelection) (size : Nat) (row : Nat → Bool) : Prop :=
  result.1 = ((range size).filter row).length ∧ result.2.Describes size row

/-- No row is selected, and no bit is set. -/
def ManagedSelection.IsEmpty (msel : ManagedSelection) : Prop :=
  msel.count = 0 ∧ ∀ i, msel.bit i = false

theorem Evaluates.congr {r : Nat × ManagedSelection} {row' : Nat → Bool}
    (evaluates : Evaluates r size row) (same : ∀ i < size, row i = row' i) :
    Evaluates r size row' := by
  have filter : (range size).filter row = (range size).filter row' :=
    filter_congr fun i mem => same i (mem_range.mp mem)
  obtain ⟨returned, selection, n, bit⟩ := evaluates
  refine ⟨by rw [returned, filter], by rw [selection, filter], by rw [n, filter], ?_⟩
  intro i
  rw [bit i]
  rcases lt_or_ge i size with fit | out
  · rw [same i fit]
  · rw [decide_eq_false (Nat.not_lt.mpr out), Bool.false_and, Bool.false_and]

theorem Evaluates.iff_of {r : Nat × ManagedSelection} (evaluates : Evaluates r size row)
    (row' : Nat → Bool) : Evaluates r size row' ↔ ∀ i < size, row i = row' i := by
  constructor
  · intro o i fit
    have bits := (evaluates.2.bit i).symm.trans (o.2.bit i)
    rwa [decide_eq_true fit, Bool.true_and, Bool.true_and] at bits
  · exact evaluates.congr

variable {msel : ManagedSelection}

/-- Where no row satisfies the predicate, the selection must have been empty before. -/
theorem evaluates_untouched (none : ∀ i < size, row i = false) :
    Evaluates (0, msel) size row ↔ msel.IsEmpty := by
  have nil : (range size).filter row = [] :=
    filter_eq_nil_iff.mpr fun i mem => by simp [none i (mem_range.mp mem)]
  have off : ∀ i, (decide (i < size) && row i) = false := by
    intro i
    rcases lt_or_ge i size with fit | out
    · rw [none i fit, Bool.and_false]
    · rw [decide_eq_false (Nat.not_lt.mpr out), Bool.false_and]
  constructor
  · intro evaluates
    refine ⟨by rw [evaluates.2.count, nil]; rfl, fun i => ?_⟩
    rw [evaluates.2.bit, off]
  · intro emp
    refine ⟨by rw [nil]; rfl, ?_, by rw [nil]; exact emp.1, fun i => ?_⟩
    · rw [nil, emp.1, take_zero]
    · rw [emp.2, off]

namespace ColumnSketch

variable {α : Type} [LinearOrder α] (sketch : ColumnSketch α)

/-! ## Codes -/

theorem minData_eq : sketch.minData = sketch.sample.get ⟨0, sketch.sample_pos⟩ :=
  head_eq_getElem sketch.sample_ne_nil

variable {value : α}

theorem minData_le (mem : value ∈ sketch.baseData) : sketch.minData ≤ value := by
  obtain ⟨i, rfl⟩ := mem_iff_get.mp (sketch.sample_perm.mem_iff.mpr mem)
  rw [minData_eq]
  exact sketch.sample_le (zero_le _) i.isLt

theorem getElem?_sample (i : Nat) :
    sketch.sample[min ((i + 1) * sketch.sample.length / sketch.numCodes - 1)
      (sketch.sample.length - 1)]? = some (sketch.endpoint i) :=
  getElem?_eq_getElem _

section

variable {sketch} {v x : α} (valueLe : v ≤ sketch.maxData) (xLe : x ≤ sketch.maxData)

include valueLe xLe

theorem ult_code_iff : (sketch.code v).ult (sketch.code x) = true ↔ sketch.Separated v x := by
  rw [BitVec.ult_eq_decide, decide_eq_true_iff, sketch.toNat_code valueLe, sketch.toNat_code xLe,
    CodedColumn.lowerBound_lt_iff]

theorem ule_code_iff : (sketch.code v).ule (sketch.code x) = true ↔ ¬sketch.Separated x v := by
  rw [BitVec.ule_eq_decide, decide_eq_true_iff, sketch.toNat_code valueLe, sketch.toNat_code xLe,
    ← CodedColumn.lowerBound_lt_iff, not_lt]

theorem code_beq_iff : (sketch.code v == sketch.code x) = true ↔
    ¬sketch.Separated v x ∧ ¬sketch.Separated x v := by
  rw [beq_iff_eq, ← BitVec.toNat_inj, sketch.toNat_code valueLe, sketch.toNat_code xLe,
    ← CodedColumn.lowerBound_lt_iff, ← CodedColumn.lowerBound_lt_iff]
  omega

/-- Codes, and a property of the values with the code of the constant, decide a property that the
smaller codes have and the greater ones do not have. -/
theorem refine_below {b : Bool} (lo : sketch.Separated v x → b = true)
    (up : sketch.Separated x v → b = false) :
    ((sketch.code v).ult (sketch.code x) || (sketch.code v == sketch.code x && b)) = b := by
  rw [Bool.eq_iff_iff, Bool.or_eq_true, Bool.and_eq_true, ult_code_iff valueLe xLe,
    code_beq_iff valueLe xLe]
  constructor
  · rintro (sep | ⟨-, yes⟩)
    · exact lo sep
    · exact yes
  · intro yes
    rcases Classical.em (sketch.Separated v x) with sep | not
    · exact .inl sep
    · exact .inr ⟨⟨not, fun o => Bool.false_ne_true ((up o).symm.trans yes)⟩, yes⟩

theorem refine_above {b : Bool} (up : sketch.Separated x v → b = true)
    (lo : sketch.Separated v x → b = false) :
    ((sketch.code x).ult (sketch.code v) || (sketch.code v == sketch.code x && b)) = b := by
  rw [Bool.beq_comm, refine_below xLe valueLe up lo]

/-- Values with the code of the constant already satisfy the comparison of codes. -/
theorem ule_or_beq (b : Bool) :
    ((sketch.code v).ule (sketch.code x) || (sketch.code v == sketch.code x && b)) =
      (sketch.code v).ule (sketch.code x) := by
  rw [Bool.or_eq_left_iff_imp, Bool.and_eq_true, code_beq_iff valueLe xLe, ule_code_iff valueLe xLe]
  exact fun both => both.1.2

theorem ult_code_eq_iff : (sketch.code v).ult (sketch.code x) = decide (v < x) ↔
    (v < x → sketch.Separated v x) := by
  rw [Bool.eq_iff_iff, ult_code_iff valueLe xLe, decide_eq_true_iff]
  exact ⟨Iff.mpr, fun sep => ⟨CodedColumn.Separated.lt, sep⟩⟩

theorem ule_code_eq_iff : (sketch.code v).ule (sketch.code x) = decide (v ≤ x) ↔
    (x < v → sketch.Separated x v) := by
  rw [Bool.eq_iff_iff, ule_code_iff valueLe xLe, decide_eq_true_iff, ← not_lt, not_iff_not]
  exact ⟨Iff.mpr, fun sep => ⟨CodedColumn.Separated.lt, sep⟩⟩

end

/-! ## Runs of the evaluation -/

section

variable (predicate : Predicate α) (codeX : BitVec 8)

/-- Whether a value is selected, in a whole block or after them. -/
def keeps (inBlock : Bool) (value : α) : Bool := if inBlock then
    if sketch.needCheckBase then
      predicate.side (sketch.code value) || (sketch.code value == codeX && predicate.base value)
    else predicate.trusted (sketch.code value)
  else predicate.tail (sketch.code value) value

/-- The rows whose values satisfy a predicate. -/
def rowsOf (holds : α → Bool) (i : Nat) : Bool := (sketch.baseData[i]?).any holds

/-- The rows that are selected. -/
def selected (i : Nat) : Bool :=
  sketch.rowsOf (sketch.keeps predicate codeX (decide (i < 64 * sketch.numBlocks))) i

theorem getElem?_codes (i : Nat) : sketch.codes[i]? = (sketch.baseData[i]?).map sketch.code :=
  getElem?_map

omit [LinearOrder α] in
theorem numBlocks_le : 64 * sketch.numBlocks ≤ sketch.baseData.length := mul_div_le _ _

theorem getLsbD_lanes (lane : Nat → Bool) (i : Nat) :
    (lanes lane).getLsbD i = (decide (i < 64) && lane i) := by
  rw [lanes, getLsbD_bitsOf, ← Bool.and_assoc, Bool.and_self]

theorem getLsbD_blockMask {b : Nat} (full : b < sketch.numBlocks) (lt : i < 64) :
    (sketch.blockMask predicate codeX (64 * b)).getLsbD i =
      sketch.selected predicate codeX (64 * b + i) := by
  have hb := sketch.numBlocks_le
  have row : 64 * b + i < 64 * sketch.numBlocks := by omega
  have sto : sketch.baseData[64 * b + i]? = some sketch.baseData[64 * b + i] :=
    getElem?_eq_getElem _
  rw [blockMask, selected, rowsOf, decide_eq_true row, sto, any_some, keeps, if_pos rfl]
  cases sketch.needCheckBase with
  | false =>
    simp only [Bool.false_eq_true, if_false]
    rw [getLsbD_lanes, decide_eq_true lt, getElem?_codes, sto]
    rfl
  | true =>
    simp only [if_true]
    rw [BitVec.getLsbD_or, getLsbD_clearUnless_scanBits, getLsbD_lanes, getLsbD_lanes,
      decide_eq_true lt, getElem?_codes, sto]
    rfl

/-- The rows of one more block, after those of the blocks before. -/
theorem filter_range_add (row : Nat → Bool) (start n : Nat) :
    (range (start + n)).filter row = (range start).filter row ++
      ((range n).filter fun i => row (start + i)).map (start + ·) := by
  rw [range_add, filter_append, List.filter_map]
  rfl

/-- The blocks select their rows, and have a word for each block. -/
theorem evaluateBlocks_eq {bs : Nat} (le : bs ≤ sketch.numBlocks) :
    sketch.evaluateBlocks predicate codeX bs =
      ((range (64 * bs)).filter (sketch.selected predicate codeX),
        (range bs).map fun b => sketch.blockMask predicate codeX (64 * b)) := by
  induction bs with
  | zero => rfl
  | succ bs ih =>
    have scanned : scanBits 64 (sketch.blockMask predicate codeX (64 * bs)) =
        (range 64).filter fun i => sketch.selected predicate codeX (64 * bs + i) := by
      rw [scanBits_width]
      exact filter_congr fun i mem =>
        sketch.getLsbD_blockMask predicate codeX le (mem_range.mp mem)
    rw [evaluateBlocks, ih (le_of_succ_le le)]
    simp only [scanned]
    rw [mul_succ, filter_range_add, @range_succ bs, map_append]
    rfl

theorem tailRow_eq (aft : 64 * sketch.numBlocks ≤ i) :
    sketch.tailRow predicate i = sketch.selected predicate codeX i := by
  rw [tailRow, selected, rowsOf, getElem?_codes, decide_eq_false (Nat.not_lt.mpr aft)]
  cases sketch.baseData[i]? <;> rfl

variable (selection : List Nat)

/-- The tail adds its rows to the selection, and has their bits in one word. -/
theorem evaluateTail_eq (tailBits : Nat) :
    sketch.evaluateTail predicate selection tailBits =
      (selection ++ ((range tailBits).filter fun i =>
          sketch.selected predicate codeX (64 * sketch.numBlocks + i)).map
            (64 * sketch.numBlocks + ·),
        bitsOf (fun i => sketch.selected predicate codeX (64 * sketch.numBlocks + i))
          tailBits) := by
  induction tailBits with
  | zero =>
    rw [evaluateTail, range_zero, filter_nil, map_nil, append_nil]
    rfl
  | succ tailBits ih =>
    rw [evaluateTail, ih, bitsOf, range_succ, filter_append, map_append, ← append_assoc]
    simp only [sketch.tailRow_eq predicate codeX (le_add_right _ tailBits)]
    cases chosen : sketch.selected predicate codeX (64 * sketch.numBlocks + tailBits) with
    | false | true => simp [chosen]

theorem bit_blocks (n i : Nat) : ManagedSelection.bit ⟨selection, n,
        (range sketch.numBlocks).map (fun b => sketch.blockMask predicate codeX (64 * b)) ++
          [bitsOf (fun i => sketch.selected predicate codeX (64 * sketch.numBlocks + i))
            (sketch.baseData.length % 64)]⟩ i =
      (decide (i < sketch.baseData.length) && sketch.selected predicate codeX i) := by
  have split := div_add_mod i 64
  have lt : i % 64 < 64 := mod_lt _ (by decide)
  have size : 64 * sketch.numBlocks + sketch.baseData.length % 64 = sketch.baseData.length :=
    div_add_mod _ _
  rw [ManagedSelection.bit]
  rcases lt_trichotomy (i / 64) sketch.numBlocks with old | heq | aft
  · rw [getElem?_append_left (by simpa using old), getElem?_map,
      getElem?_range old, map_some, any_some,
      sketch.getLsbD_blockMask predicate codeX old lt, split,
      decide_eq_true (by omega), Bool.true_and]
  · rw [getElem?_append_right (by simp [heq]), length_map, length_range, heq,
      Nat.sub_self, getElem?_cons_zero, any_some, getLsbD_bitsOf, decide_eq_true lt,
      Bool.true_and, ← heq, split]
    congr 1
    rw [decide_eq_decide]
    omega
  · rw [getElem?_eq_none (by simpa [succ_le_iff] using aft), any_none,
      decide_eq_false (by omega), Bool.false_and]

theorem evaluates_selected (some : predicate.noRow = false) (notAll : predicate.allRows = false) :
    Evaluates (sketch.evaluate predicate codeX msel) sketch.baseData.length
      (sketch.selected predicate codeX) := by
  have size : 64 * sketch.numBlocks + sketch.baseData.length % 64 = sketch.baseData.length :=
    div_add_mod _ _
  have rows := filter_range_add (sketch.selected predicate codeX) (64 * sketch.numBlocks)
    (sketch.baseData.length % 64)
  rw [size] at rows
  rw [evaluate, some, notAll]
  rw [sketch.evaluateBlocks_eq predicate codeX le_rfl]
  simp only
  rw [sketch.evaluateTail_eq predicate codeX, ← rows]
  refine ⟨rfl, take_length, rfl, ?_⟩
  exact sketch.bit_blocks predicate codeX _ _

end

theorem getLsbD_cut {n : Nat} (lt : n < 64) :
    (BitVec.twoPow 64 n - 1).getLsbD i = decide (i < n) := by
  have power : (BitVec.twoPow 64 n).toNat = 2 ^ n := BitVec.toNat_twoPow_of_lt lt
  rw [← BitVec.testBit_toNat, toNat_sub_one (by rw [power]; exact Nat.one_le_two_pow), power,
    testBit_two_pow_sub_one]

theorem bit_allBits (sel n size i) :
    ManagedSelection.bit ⟨sel, n, allBits size⟩ i = decide (i < size) := by
  have lt : i % 64 < 64 := mod_lt _ (by decide)
  rw [ManagedSelection.bit, allBits]
  split_ifs with partly
  · rw [getElem?_set, length_replicate, getElem?_replicate]
    split_ifs with last exists_ full
    · rw [any_some, getLsbD_cut (mod_lt _ (by decide)), decide_eq_decide]
      omega
    · omega
    · rw [any_some, BitVec.getLsbD_allOnes, decide_eq_true lt]
      exact (decide_eq_true (by omega)).symm
    · rw [any_none]
      exact (decide_eq_false (by omega)).symm
  · rw [getElem?_replicate]
    split_ifs with full
    · rw [any_some, BitVec.getLsbD_allOnes, decide_eq_true lt]
      exact (decide_eq_true (by omega)).symm
    · rw [any_none]
      exact (decide_eq_false (by omega)).symm

variable {pred : Predicate α}

theorem evaluates_all (some : pred.noRow = false) (all : pred.allRows = true) :
    Evaluates (sketch.evaluate pred codeX msel) sketch.baseData.length fun _ => true := by
  have rows : (range sketch.baseData.length).filter (fun _ => true) =
      range sketch.baseData.length := filter_true _
  rw [evaluate, some, all]
  simp only [Bool.false_eq_true, if_false, if_true]
  refine ⟨?_, ?_, ?_, fun i => ?_⟩
  · rw [rows, length_range]
  · rw [rows]
    exact take_of_length_le (length_range).le
  · rw [rows, length_range]
  · rw [bit_allBits, Bool.and_true]

omit [LinearOrder α] in
theorem rowsOf_eq {has : α → Bool} (sto : sketch.baseData[i]? = some value) :
    sketch.rowsOf has i = has value := by
  rw [rowsOf, sto, any_some]

theorem keeps_eq_iff {codeX : BitVec 8} {inBlock : Prop} [Decidable inBlock] {want : Bool}
    (refined : (pred.side (sketch.code value) ||
      (sketch.code value == codeX && pred.base value)) = want) :
    sketch.keeps pred codeX (decide inBlock) value = want ↔
      (inBlock → sketch.needCheckBase = false → pred.trusted (sketch.code value) = want) ∧
      (¬inBlock → pred.tail (sketch.code value) value = want) := by
  rw [keeps, refined]
  rcases Classical.em inBlock with fit | out
  · cases sketch.needCheckBase <;> simp [fit]
  · simp [out]

/-- An evaluation is right if a selection that it leaves as it is was empty, and if each value
after the early exits is kept if and only if it is to be. -/
theorem evaluates_iff {want : α → Bool}
    (none : pred.noRow = true → ∀ value ∈ sketch.baseData, want value = false)
    (all : pred.allRows = true → ∀ value ∈ sketch.baseData, want value = true) :
    Evaluates (sketch.evaluate pred codeX msel) sketch.baseData.length (sketch.rowsOf want) ↔
      (pred.noRow = true → msel.IsEmpty) ∧ (pred.noRow = false → pred.allRows = false →
        ∀ i value, sketch.baseData[i]? = some value →
          sketch.keeps pred codeX (decide (i < 64 * sketch.numBlocks)) value = want value) := by
  have sto : ∀ i < sketch.baseData.length, ∃ value ∈ sketch.baseData,
      sketch.baseData[i]? = some value := fun i fit =>
    ⟨_, getElem_mem fit, getElem?_eq_getElem fit⟩
  cases exit : pred.noRow with
  | true =>
    have hut : sketch.evaluate pred codeX msel = (0, msel) := by
      rw [evaluate, exit]
      exact if_pos rfl
    rw [hut, evaluates_untouched]
    · simp
    · intro i fit
      obtain ⟨value, mem, row⟩ := sto i fit
      rw [sketch.rowsOf_eq row, none exit value mem]
  | false =>
    cases every : pred.allRows with
    | true =>
      have wanted : ∀ i < sketch.baseData.length, true = sketch.rowsOf want i := by
        intro i fit
        obtain ⟨value, mem, row⟩ := sto i fit
        rw [sketch.rowsOf_eq row, all every value mem]
      simp [(sketch.evaluates_all exit every).congr wanted]
    | false =>
      rw [(sketch.evaluates_selected pred codeX exit every).iff_of]
      simp only [Bool.false_eq_true, false_implies, true_and, forall_const]
      constructor
      · intro same i value row
        have agree := same i (List.getElem?_eq_some_iff.mp row).1
        rwa [selected, sketch.rowsOf_eq row, sketch.rowsOf_eq row] at agree
      · intro same i fit
        obtain ⟨value, _, row⟩ := sto i fit
        rw [selected, sketch.rowsOf_eq row, sketch.rowsOf_eq row, same i value row]

/-! ## The four comparisons -/

section

variable {sketch} {x v : α} {inBlock : Prop} [Decidable inBlock]
variable (valueLe : v ≤ sketch.maxData) (xLe : x ≤ sketch.maxData)

include valueLe xLe

theorem keeps_lessThan :
    sketch.keeps (sketch.lessThan x) (sketch.code x) (decide inBlock) v = decide (v < x) ↔
      (inBlock → sketch.needCheckBase = false → v < x → sketch.Separated v x) := by
  have exact := @refine_below _ _ sketch v x valueLe xLe (decide (v < x))
    (fun sep => decide_eq_true sep.lt) fun sep => decide_eq_false (not_lt.mpr sep.lt.le)
  rw [keeps_eq_iff]
  · simp only [lessThan, exact, implies_true, and_true, ult_code_eq_iff valueLe xLe]
  · simpa only [lessThan, ← decide_not, not_le, ge_iff_le] using exact

theorem keeps_lessThanOrEqual :
    sketch.keeps (sketch.lessThanOrEqual x) (sketch.code x) (decide inBlock) v = decide (v ≤ x) ↔
      (sketch.needCheckBase = false ∨ ¬inBlock → x < v → sketch.Separated x v) := by
  have exact := @refine_below _ _ sketch v x valueLe xLe (decide (v ≤ x))
    (fun sep => decide_eq_true sep.lt.le) fun sep => decide_eq_false (not_le.mpr sep.lt)
  rw [keeps_eq_iff]
  · simp only [lessThanOrEqual, ule_or_beq valueLe xLe, ule_code_eq_iff valueLe xLe]
    tauto
  · simpa only [lessThanOrEqual, ← decide_not, not_lt, gt_iff_lt] using exact

theorem keeps_greaterThan : sketch.keeps (sketch.greaterThan x) (sketch.code x) (decide inBlock) v =
        decide (x < v) ↔
      (inBlock → sketch.needCheckBase = false → x < v → sketch.Separated x v) := by
  have exact := @refine_above _ _ sketch v x valueLe xLe (decide (x < v))
    (fun sep => decide_eq_true sep.lt) fun sep => decide_eq_false (not_lt.mpr sep.lt.le)
  rw [keeps_eq_iff]
  · simp only [greaterThan, gt_iff_lt, exact, implies_true, and_true, ult_code_eq_iff xLe valueLe]
  · simpa only [greaterThan, ← decide_not, not_le] using exact

theorem keeps_greaterThanOrEqual :
    sketch.keeps (sketch.greaterThanOrEqual x) (sketch.code x) (decide inBlock) v = decide (x ≤ v) ↔
      (sketch.needCheckBase = false ∨ ¬inBlock → v < x → sketch.Separated v x) := by
  have exact := @refine_above _ _ sketch v x valueLe xLe (decide (x ≤ v))
    (fun sep => decide_eq_true sep.lt.le) fun sep => decide_eq_false (not_le.mpr sep.lt)
  rw [keeps_eq_iff]
  · simp only [greaterThanOrEqual, Bool.beq_comm (a := sketch.code v), ule_or_beq xLe valueLe,
      ule_code_eq_iff xLe valueLe]
    tauto
  · simpa only [greaterThanOrEqual, ← decide_not, not_lt] using exact

end

variable (x : α) (msel : ManagedSelection)

/-- The rows below a constant are selected exactly if the selection is empty when no code is
looked at, and if an endpoint separates the smaller values when the values are not. -/
theorem evaluateLessThan_iff : Evaluates (sketch.evaluateLessThan x msel) sketch.baseData.length
        (sketch.rowsOf fun value => value < x) ↔
      (x ≤ sketch.minData → msel.IsEmpty) ∧
      (sketch.needCheckBase = false → ∀ i value, sketch.baseData[i]? = some value →
        i < 64 * (sketch.baseData.length / 64) → value < x → sketch.Separated value x) := by
  rw [evaluateLessThan, evaluates_iff]
  · simp only [lessThan, decide_eq_true_iff, decide_eq_false_iff_not, not_le, not_lt, gt_iff_lt]
    refine and_congr_right fun _ => ⟨fun same need i value row inside less => ?_, ?_⟩
    · have mem := mem_of_getElem? row
      rcases le_or_gt x sketch.maxData with xLe | greater
      · have above := (sketch.minData_le mem).trans_lt less
        exact (keeps_lessThan (sketch.le_maxData mem) xLe).mp (same above xLe i value row) inside
          need less
      · exact ⟨_, sketch.maxData_mem_endpoints, sketch.le_maxData mem, greater⟩
    · intro separated _ xLe i value row
      refine (keeps_lessThan (sketch.le_maxData (mem_of_getElem? row)) xLe).mpr ?_
      exact fun inside need => separated need i value row inside
  · intro exit value mem
    exact decide_eq_false (not_lt.mpr ((of_decide_eq_true exit).trans (sketch.minData_le mem)))
  · intro exit value mem
    exact decide_eq_true ((sketch.le_maxData mem).trans_lt (of_decide_eq_true exit))

/-- A value that one row has, and the quantile of no code. -/
def skewed : ColumnSketch Nat where
  baseData := 1 :: replicate 255 0 ++ [2]
  nonempty := cons_ne_nil _ _
  size_le := by decide +kernel

theorem not_separated_skewed : ¬skewed.Separated 1 2 := by
  have sample : skewed.sample = replicate 255 0 ++ [1, 2] := by decide +kernel
  have codes : skewed.numCodes = 256 := by decide +kernel
  rintro ⟨_, mem, _, _⟩
  obtain ⟨i, fit, rfl⟩ := List.mem_map.mp mem
  rw [codes, mem_range] at fit
  have one : skewed.endpoint i = 1 := by omega
  have got := skewed.getElem?_sample i
  -- Only the row before the last of the sorted values is 1, and no quantile is there.
  rw [one, codes, sample, length_append, length_replicate] at got
  have only : ∀ j < 257, (replicate 255 0 ++ [1, 2])[j]? = some 1 → j = 255 := by
    decide +kernel
  have index := only _ (by simp) got
  simp only [length_cons, length_nil] at index
  omega

/-- The row with the value is missed, although it is less than the constant. -/
theorem evaluateLessThan_skewed :
    ¬Evaluates (skewed.evaluateLessThan 2 ⟨[], 0, []⟩) skewed.baseData.length
      (skewed.rowsOf fun value => value < 2) := by
  intro evaluates
  have bounds : skewed.minData = 0 ∧ skewed.maxData = 2 := by decide +kernel
  have blocks : 0 < 64 * skewed.numBlocks := by decide +kernel
  have trusted : skewed.needCheckBase = false := by decide +kernel
  have some : (skewed.lessThan 2).noRow = false := by rw [lessThan, bounds.1]; rfl
  have notAll : (skewed.lessThan 2).allRows = false := by rw [lessThan, bounds.2]; rfl
  have first : skewed.baseData[0]? = .some 1 := by decide +kernel
  have kept := ((skewed.evaluates_selected _ _ some notAll).iff_of _).mp evaluates 0
    (List.getElem?_eq_some_iff.mp first).1
  rw [selected, skewed.rowsOf_eq first, skewed.rowsOf_eq first] at kept
  refine not_separated_skewed ((keeps_lessThan ?_ ?_).mp kept blocks trusted (by decide))
  · rw [bounds.2]
    decide
  · exact bounds.2.ge

/-- The rows above a constant, as for `evaluateLessThan_iff`. -/
theorem evaluateGreaterThan_iff :
    Evaluates (sketch.evaluateGreaterThan x msel) sketch.baseData.length
        (sketch.rowsOf fun value => x < value) ↔
      (sketch.maxData ≤ x → msel.IsEmpty) ∧
      (sketch.minData ≤ x → sketch.needCheckBase = false →
        ∀ i value, sketch.baseData[i]? = some value →
          i < 64 * (sketch.baseData.length / 64) → x < value → sketch.Separated x value) := by
  rw [evaluateGreaterThan, evaluates_iff]
  · simp only [greaterThan, decide_eq_true_iff, decide_eq_false_iff_not, not_le, not_lt, ge_iff_le]
    refine and_congr_right fun _ => ⟨fun same minLe need i value row inside less => ?_, ?_⟩
    · have valueLe := sketch.le_maxData (mem_of_getElem? row)
      have below := less.trans_le valueLe
      exact (keeps_greaterThan valueLe below.le).mp (same below minLe i value row) inside need less
    · intro separated below minLe i value row
      refine (keeps_greaterThan (sketch.le_maxData (mem_of_getElem? row)) below.le).mpr ?_
      exact fun inside need => separated minLe need i value row inside
  · intro exit value mem
    exact decide_eq_false (not_lt.mpr ((sketch.le_maxData mem).trans (of_decide_eq_true exit)))
  · intro exit value mem
    exact decide_eq_true ((of_decide_eq_true exit).trans_le (sketch.minData_le mem))

/-- The constant has the code of the greatest value, which is missed. -/
theorem evaluateGreaterThan_gap : ¬Evaluates (evaluateGreaterThan
        ⟨⟨replicate 63 0 ++ [10], by decide⟩, by decide⟩ 5 ⟨[], 0, []⟩) 64
      (rowsOf ⟨⟨replicate 63 0 ++ [10], by decide⟩, by decide⟩ fun value => 5 < value) := by
  intro evaluates
  exact absurd evaluates.1 (by decide +kernel)

/-- The comparisons that include the constant look at codes only in the rows after the blocks. -/
theorem evaluateOrEqual_iff :
    (Evaluates (sketch.evaluateLessThanOrEqual x msel) sketch.baseData.length
        (sketch.rowsOf fun value => value ≤ x) ↔
      (x < sketch.minData → msel.IsEmpty) ∧
      (sketch.minData ≤ x → ∀ i value, sketch.baseData[i]? = some value →
        sketch.needCheckBase = false ∨ 64 * (sketch.baseData.length / 64) ≤ i →
          x < value → sketch.Separated x value)) ∧
    (Evaluates (sketch.evaluateGreaterThanOrEqual x msel) sketch.baseData.length
        (sketch.rowsOf fun value => x ≤ value) ↔
      (sketch.maxData < x → msel.IsEmpty) ∧
      (x ≤ sketch.maxData → ∀ i value, sketch.baseData[i]? = some value →
        sketch.needCheckBase = false ∨ 64 * (sketch.baseData.length / 64) ≤ i →
          value < x → sketch.Separated value x)) := by
  refine ⟨?_, ?_⟩
  · rw [evaluateLessThanOrEqual, evaluates_iff]
    · simp only [lessThanOrEqual, decide_eq_true_iff, decide_eq_false_iff_not, not_lt]
      refine and_congr_right fun _ => ⟨fun same minLe i value row undecided less => ?_, ?_⟩
      · have valueLe := sketch.le_maxData (mem_of_getElem? row)
        have below := less.trans_le valueLe
        exact (keeps_lessThanOrEqual valueLe below.le).mp
          (same minLe (by simp [below.le, below]) i value row)
          (undecided.imp_right not_lt.mpr) less
      · intro separated minLe notAll i value row
        have valueLe := sketch.le_maxData (mem_of_getElem? row)
        rw [Bool.or_eq_false_iff, decide_eq_false_iff_not, gt_iff_lt, not_lt] at notAll
        exact (keeps_lessThanOrEqual valueLe notAll.1).mpr fun undecided =>
          separated minLe i value row (undecided.imp_right not_lt.mp)
    · intro exit value mem
      exact decide_eq_false (not_le.mpr ((of_decide_eq_true exit).trans_le (sketch.minData_le mem)))
    · intro exit value mem
      simp only [lessThanOrEqual, Bool.or_eq_true, Bool.and_eq_true, decide_eq_true_iff] at exit
      exact decide_eq_true ((sketch.le_maxData mem).trans (exit.elim le_of_lt And.right))
  · rw [evaluateGreaterThanOrEqual, evaluates_iff]
    · simp only [greaterThanOrEqual, decide_eq_true_iff, decide_eq_false_iff_not, gt_iff_lt, not_lt]
      refine and_congr_right fun _ => ⟨fun same xLe i value row undecided less => ?_, ?_⟩
      · have mem := mem_of_getElem? row
        have above := (sketch.minData_le mem).trans_lt less
        exact (keeps_greaterThanOrEqual (sketch.le_maxData mem) xLe).mp
          (same xLe (by simp [above.le, above]) i value row)
          (undecided.imp_right not_lt.mpr) less
      · intro separated xLe _ i value row
        exact (keeps_greaterThanOrEqual (sketch.le_maxData (mem_of_getElem? row)) xLe).mpr
          fun undecided => separated xLe i value row (undecided.imp_right not_lt.mp)
    · intro exit value mem
      exact decide_eq_false (not_le.mpr ((sketch.le_maxData mem).trans_lt (of_decide_eq_true exit)))
    · intro exit value mem
      simp only [greaterThanOrEqual, Bool.or_eq_true, Bool.and_eq_true, decide_eq_true_iff] at exit
      exact decide_eq_true ((exit.elim le_of_lt And.right).trans (sketch.minData_le mem))

/-- After the last whole block, the value with the code of the constant is taken although it is
greater. -/
theorem evaluateLessThanOrEqual_gap :
    ¬Evaluates (evaluateLessThanOrEqual ⟨⟨[0, 10], by decide⟩, by decide⟩ 5 ⟨[], 0, []⟩) 2
      (rowsOf ⟨⟨[0, 10], by decide⟩, by decide⟩ fun value => value ≤ 5) := by
  intro evaluates
  exact absurd evaluates.1 (by decide +kernel)

end ColumnSketch

end AccessPath
