import AccessPath.Sketch.CodedColumn

/-!
# Evaluations that return an index list

The scalar evaluations of a sketch and the one on vectors of 32 codes (`column_sketch.hpp`). An
index is pushed as a number of 32 bits.
-/

namespace AccessPath.CodedColumn

open List Nat

variable {α : Type} [LinearOrder α] {w : Nat} (column : CodedColumn α w) (x : α)

/-- The rows that a loop over the codes and the values pushes. -/
def rowsWhere (keep : Nat → BitVec w → α → Bool) : List Nat :=
  (range column.baseData.length).filter fun i =>
    (column.codes[i]?).any fun c => (column.baseData[i]?).any (keep i c)

/-- The positions of the values with a property, in ascending order. -/
def positions (holds : α → Bool) : List Nat :=
  (range column.baseData.length).filter fun i => (column.baseData[i]?).any holds

/-- `static_cast<uint32_t>` of all rows. -/
def indexes (rows : List Nat) : List Nat := rows.map (· % 2 ^ 32)

/-- A code on the lower side, or the same code and a smaller value. -/
def keepsLess (c : BitVec w) (value : α) : Bool :=
  c.ult (column.code x) || (c == column.code x && decide (value < x))

def evaluateLessThanCPU : List Nat :=
  if x > column.maxData then indexes (range column.baseData.length)
  else indexes (column.rowsWhere fun _ => column.keepsLess x)

def evaluateGreaterThanCPU : List Nat := indexes (column.rowsWhere fun _ c value =>
    (column.code x).ult c || (c == column.code x && decide (value > x)))

def evaluateEqual : List Nat :=
  indexes (column.rowsWhere fun _ c value => c == column.code x && decide (value = x))

/-- Whole vectors of 32 codes are compared as signed bytes, and the rest as before. -/
def evaluateLessThanAVX2 (column : CodedColumn α 8) (x : α) : List Nat :=
  indexes (column.rowsWhere fun i c value =>
    if i < 32 * (column.baseData.length / 32) then c.slt (column.code x)
    else column.keepsLess x c value)

/-! ## Rows -/

variable {column}

theorem filter_range_eq_iff {size : Nat} {p q : Nat → Bool} :
    (range size).filter p = (range size).filter q ↔ ∀ i < size, p i = q i := by
  constructor
  · intro eq i fit
    have mem := congrArg (i ∈ ·) eq
    simpa [fit] using mem
  · intro eq
    exact filter_congr fun i mem => eq i (mem_range.mp mem)

theorem any_codes (keep : BitVec w → α → Bool) (i : Nat) :
    ((column.codes[i]?).any fun c => (column.baseData[i]?).any (keep c)) =
      (column.baseData[i]?).any fun v => keep (column.code v) v := by
  rw [codes, getElem?_map]
  cases column.baseData[i]? <;> rfl

/-- A loop pushes the positions of a property if and only if it decides the property of each row. -/
theorem rowsWhere_eq_iff {keep : Nat → BitVec w → α → Bool} {has : α → Bool} :
    column.rowsWhere keep = column.positions has ↔ ∀ i v, column.baseData[i]? = some v →
        keep i (column.code v) v = has v := by
  rw [rowsWhere, positions, filter_range_eq_iff]
  constructor
  · intro eq i v sto
    have row := eq i (List.getElem?_eq_some_iff.mp sto).1
    rwa [any_codes, sto] at row
  · intro eq i fit
    have sto := getElem?_eq_getElem fit
    rw [any_codes, sto]
    exact eq i _ sto

theorem indexes_eq_iff {rows : List Nat} : indexes rows = rows ↔ ∀ i ∈ rows, i < 2 ^ 32 := by
  have mapped : indexes rows = rows.map id ↔ ∀ i ∈ rows, i % 2 ^ 32 = id i := map_inj_left
  rw [List.map_id] at mapped
  refine mapped.trans (forall₂_congr fun i _ => ?_)
  simp only [id]
  omega

/-! ## Codes of a constant -/

variable {x}

theorem lt_iff_lowerBound {low high : α} : low < high ↔
    column.lowerBound low < column.lowerBound high ∨
      column.lowerBound low = column.lowerBound high ∧ low < high := by
  have order {low high : α} (less : column.lowerBound low < column.lowerBound high) :
      low < high := by
    obtain ⟨_, _, le, less⟩ := column.lowerBound_lt_iff.mp less
    exact le.trans_lt less
  constructor
  · intro less
    rcases lt_trichotomy (column.lowerBound low) (column.lowerBound high)
      with old | eq | aft
    · exact .inl old
    · exact .inr ⟨eq, less⟩
    · exact absurd (order aft) less.asymm
  · rintro (old | ⟨_, less⟩)
    · exact order old
    · exact less

variable {value : α} (valueLe : value ≤ column.maxData)
include valueLe

/-- The code of a constant above all values is the number of codes, or 0 if that does not fit. -/
theorem lowerBound_le_code_iff (lt : column.maxData < x) :
    column.lowerBound value ≤ (column.code x).toNat ↔
      (column.numCodes = 2 ^ w → value ≤ column.endpoint 0) := by
  have few : column.numCodes ≤ 2 ^ w := min_le_right _ _
  have last : column.lowerBound x = column.numCodes := by
    rw [lowerBound, ← length_endpoints, findIdx_eq_length]
    intro endpoint mem
    obtain ⟨_, -, rfl⟩ := List.mem_map.mp mem
    refine decide_eq_false (not_le.mpr (lt_of_le_of_lt ?_ lt))
    rw [maxData_eq]
    exact column.sample_le (min_le_right _ _) _
  have less : column.lowerBound value < column.numCodes :=
    last ▸ column.lowerBound_lt_iff.mpr ⟨_, column.maxData_mem_endpoints, valueLe, lt⟩
  rw [code, BitVec.toNat_ofNat, last]
  rcases lt_or_eq_of_le few with fits | full
  · rw [mod_eq_of_lt fits]
    exact iff_of_true less.le fun full => absurd full fits.ne
  · rw [full, mod_self, ← column.le_endpoint_iff column.numCodes_pos]
    exact ⟨fun le _ => le, fun le => le rfl⟩

theorem keepsLess_eq_iff : column.keepsLess x (column.code value) value = decide (value < x) ↔
    (column.maxData < x → column.numCodes = 2 ^ w → value ≤ column.endpoint 0) := by
  rw [keepsLess, BitVec.ult_eq_decide, column.toNat_code valueLe, Bool.eq_iff_iff, Bool.or_eq_true,
    Bool.and_eq_true, beq_iff_eq, ← BitVec.toNat_inj, column.toNat_code valueLe,
    decide_eq_true_iff, decide_eq_true_iff]
  rcases lt_or_ge column.maxData x with hi | xLe
  · have less := valueLe.trans_lt hi
    simp only [less, hi, and_true, iff_true, true_implies, ← le_iff_lt_or_eq]
    exact lowerBound_le_code_iff valueLe hi
  · rw [column.toNat_code xLe]
    exact iff_of_true lt_iff_lowerBound.symm fun hi => absurd hi (not_lt.mpr xLe)

theorem keepsGreater_eq_iff : ((column.code x).ult (column.code value) ||
        (column.code value == column.code x && decide (value > x))) = decide (x < value) ↔
      (column.maxData < x → column.numCodes = 2 ^ w → value ≤ column.endpoint 0) := by
  rw [BitVec.ult_eq_decide, column.toNat_code valueLe, Bool.eq_iff_iff, Bool.or_eq_true,
    Bool.and_eq_true, beq_iff_eq, ← BitVec.toNat_inj, column.toNat_code valueLe,
    decide_eq_true_iff, decide_eq_true_iff, gt_iff_lt]
  rcases lt_or_ge column.maxData x with hi | xLe
  · have less := (valueLe.trans_lt hi).not_gt
    simp only [less, hi, and_false, or_false, iff_false, true_implies, not_lt]
    exact lowerBound_le_code_iff valueLe hi
  · rw [column.toNat_code xLe, eq_comm]
    exact iff_of_true lt_iff_lowerBound.symm fun hi => absurd hi (not_lt.mpr xLe)

omit valueLe

/-! ## Index lists -/

theorem evaluateLessThanCPU_eq (x : α) :
    column.evaluateLessThanCPU x = indexes (column.positions (· < x)) := by
  rw [evaluateLessThanCPU]
  split
  · rename_i hi
    rw [positions, filter_eq_self.mpr]
    intro i mem
    have sto := getElem?_eq_getElem (mem_range.mp mem)
    rw [sto]
    exact decide_eq_true ((column.le_maxData (mem_of_getElem? sto)).trans_lt hi)
  · rename_i lo
    rw [rowsWhere_eq_iff.mpr]
    intro i value sto
    exact (keepsLess_eq_iff (column.le_maxData (mem_of_getElem? sto))).mpr
      fun hi => absurd hi lo

/-- The scalar loops find the rows below and equal to a constant whose index fits into 32 bits. -/
theorem evaluateScalar_iff (column : CodedColumn α w) (x : α) :
    (column.evaluateLessThanCPU x = column.positions (· < x) ↔
      ∀ i ∈ column.positions (· < x), i < 2 ^ 32) ∧
    (column.evaluateEqual x = column.positions (· = x) ↔
      ∀ i ∈ column.positions (· = x), i < 2 ^ 32) := by
  refine ⟨?_, ?_⟩
  · rw [evaluateLessThanCPU_eq, indexes_eq_iff]
  · rw [evaluateEqual, rowsWhere_eq_iff.mpr, indexes_eq_iff]
    intro i value _
    by_cases same : value = x
    · simp [same]
    · simp [same]

/-- A value in one more row than given. -/
def constantColumn (rows : Nat) : CodedColumn Nat 8 := ⟨replicate (rows + 1) 0, cons_ne_nil _ _⟩

/-- The row after the last one that an index can number is pushed as row 0. -/
theorem evaluateLessThanCPU_constant : (constantColumn (2 ^ 32)).evaluateLessThanCPU 1 ≠
      (constantColumn (2 ^ 32)).positions (· < 1) := by
  have last (rows : Nat) : rows ∈ (constantColumn rows).positions (· < 1) := by
    rw [positions, constantColumn, mem_filter, mem_range, length_replicate,
      getElem?_replicate, if_pos (Nat.lt_succ_self rows)]
    exact ⟨Nat.lt_succ_self rows, rfl⟩
  rw [evaluateLessThanCPU_eq, ne_eq, indexes_eq_iff]
  exact fun small => absurd (small _ (last _)) (Nat.lt_irrefl _)

/-- Above a constant, the code of one that exceeds all values must not have wrapped either. -/
theorem evaluateGreaterThanCPU_iff (column : CodedColumn α w) (x : α) :
    column.evaluateGreaterThanCPU x = column.positions (x < ·) ↔
      (column.maxData < x → column.numCodes = 2 ^ w → ∀ (i : Nat) value,
        column.baseData[i]? = some value → value ≤ column.endpoint 0) ∧
      ∀ i ∈ column.positions (x < ·), i < 2 ^ 32 := by
  have rows : column.rowsWhere (fun _ c value => (column.code x).ult c ||
      (c == column.code x && decide (value > x))) = column.positions (x < ·) ↔
      (column.maxData < x → column.numCodes = 2 ^ w → ∀ (i : Nat) value,
        column.baseData[i]? = some value → value ≤ column.endpoint 0) := by
    rw [rowsWhere_eq_iff]
    refine (forall₃_congr fun i value stored => keepsGreater_eq_iff
      (column.le_maxData (mem_of_getElem? stored))).trans ?_
    tauto
  rw [evaluateGreaterThanCPU]
  refine ⟨fun same => ?_, fun ⟨codes, small⟩ => by rw [rows.mpr codes, indexes_eq_iff.mpr small]⟩
  rcases lt_or_ge column.maxData x with above | xLe
  · have none : column.positions (x < ·) = [] := by
      refine filter_eq_nil_iff.mpr fun i mem => ?_
      have stored := getElem?_eq_getElem (mem_range.mp mem)
      have le := column.le_maxData (mem_of_getElem? stored)
      rw [stored, Option.any_some, decide_eq_true_iff]
      exact (le.trans_lt above).not_gt
    rw [none] at same rows ⊢
    exact ⟨rows.mp (map_eq_nil_iff.mp same), forall_mem_nil _⟩
  · rw [rows.mpr fun above => absurd above (not_lt.mpr xLe), indexes_eq_iff] at same
    exact ⟨fun above => absurd above (not_lt.mpr xLe), same⟩

/-- The code of a constant above 256 values is that of the least one: all others are returned. -/
theorem evaluateGreaterThanCPU_wrapped :
    evaluateGreaterThanCPU (w := 8) ⟨range 256, by decide⟩ 256 ≠
      positions (w := 8) ⟨range 256, by decide⟩ (256 < ·) := by
  decide +kernel

/-- In the whole vectors no code above 127 meets one below, and an endpoint separates the smaller
values from the constant. After them, the code of a constant above all values has not wrapped. -/
def SignedAgrees (column : CodedColumn α 8) (x : α) : Prop :=
  ∀ i value, column.baseData[i]? = some value →
    if i < 32 * (column.baseData.length / 32) then
      (128 ≤ column.numCodes → (value ≤ column.endpoint 127 ↔ x ≤ column.endpoint 127)) ∧
        (value < x → column.Separated value x)
    else column.maxData < x → column.numCodes = 2 ^ 8 → value ≤ column.endpoint 0

theorem slt_code_iff {column : CodedColumn α 8} (valueLe : value ≤ column.maxData) :
    (column.code value).slt (column.code x) = decide (value < x) ↔
      (128 ≤ column.numCodes → (value ≤ column.endpoint 127 ↔ x ≤ column.endpoint 127)) ∧
        (value < x → column.Separated value x) := by
  have fits : column.numCodes ≤ 2 ^ 8 := min_le_right _ _
  have valueCode := column.toNat_code valueLe
  have below : column.lowerBound value < column.numCodes := by
    rw [lowerBound, ← length_endpoints]
    exact findIdx_lt_length_of_exists ⟨_, column.maxData_mem_endpoints, decide_eq_true valueLe⟩
  have xCode : (column.code x).toNat = column.lowerBound x % 2 ^ 8 := BitVec.toNat_ofNat _ _
  have xBelow := column.lowerBound_le_numCodes x
  have order := @lt_iff_lowerBound α _ 8 column value x
  have halves (many : 128 ≤ column.numCodes) : (value ≤ column.endpoint 127 ↔
      x ≤ column.endpoint 127) ↔ (column.lowerBound value ≤ 127 ↔ column.lowerBound x ≤ 127) := by
    rw [column.le_endpoint_iff (by omega), column.le_endpoint_iff (by omega)]
  rw [forall_congr' halves, ← lowerBound_lt_iff, Bool.eq_iff_iff, BitVec.slt_iff_toInt_lt,
    BitVec.toInt_eq_toNat_cond, BitVec.toInt_eq_toNat_cond, valueCode, xCode, decide_eq_true_iff]
  generalize column.lowerBound value = low at *
  generalize column.lowerBound x = high at *
  by_cases less : value < x
  · simp only [less, and_true, true_iff, iff_true, true_implies] at order ⊢
    split_ifs <;> omega
  · simp only [less, and_false, or_false, false_iff, iff_false, false_implies, and_true] at order ⊢
    split_ifs <;> omega

theorem rowsWhere_signed_iff {column : CodedColumn α 8} : column.rowsWhere (fun i c value =>
      if i < 32 * (column.baseData.length / 32) then c.slt (column.code x)
      else column.keepsLess x c value) = column.positions (· < x) ↔ column.SignedAgrees x := by
  rw [rowsWhere_eq_iff]
  refine forall₃_congr fun i value stored => ?_
  have valueLe := column.le_maxData (mem_of_getElem? stored)
  split_ifs
  · exact slt_code_iff valueLe
  · exact keepsLess_eq_iff valueLe

/-- Up to `2 ^ 32` rows, which an index can number, the two evaluations return the same rows
exactly if the signed comparison of codes decides as the values do. -/
theorem evaluateLessThanAVX2_iff (column : CodedColumn α 8) (x : α)
    (numbered : column.baseData.length ≤ 2 ^ 32) :
    column.evaluateLessThanAVX2 x = column.evaluateLessThanCPU x ↔ column.SignedAgrees x := by
  have fits (keep : Nat → Bool) : indexes ((range column.baseData.length).filter keep) =
      (range column.baseData.length).filter keep :=
    indexes_eq_iff.mpr fun i mem => (mem_range.mp (mem_of_mem_filter mem)).trans_le numbered
  rw [evaluateLessThanCPU_eq, ← rowsWhere_signed_iff, evaluateLessThanAVX2, rowsWhere, positions,
    fits, fits]

/-- Three rows are compared one by one, and the constant is one of the values. -/
theorem evaluateLessThanAVX2_three : evaluateLessThanAVX2 ⟨range 3, by decide⟩ 2 =
    evaluateLessThanCPU (w := 8) ⟨range 3, by decide⟩ 2 := by
  refine (evaluateLessThanAVX2_iff ⟨range 3, by decide⟩ 2 (by decide)).mpr fun i value stored => ?_
  have last : maxData (w := 8) ⟨range 3, by decide⟩ = 2 := by decide
  rw [if_neg (by simp), last]
  exact fun above => absurd above (lt_irrefl 2)

/-- The code 128 of the constant is negative as a signed byte, so that no row is returned. -/
theorem evaluateLessThanAVX2_signed : evaluateLessThanAVX2 ⟨range 129, by decide⟩ 128 ≠
      evaluateLessThanCPU (w := 8) ⟨range 129, by decide⟩ 128 := by
  decide +kernel

end AccessPath.CodedColumn
