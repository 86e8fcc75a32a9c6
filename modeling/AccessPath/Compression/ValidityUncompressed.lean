import Mathlib.Tactic
import AccessPath.Constants
import AccessPath.Library.BitScan

/-!
# Uncompressed validity segments

`validity_uncompressed.cpp`. A scan merges 64 rows at a time into the mask of the result; where the
two are not aligned it shifts what it has read. What a shift to the right leaves behind the last row
is not masked off, so that rows after the range are merged as well (`leaked`).
-/

namespace AccessPath

open Library List Function Nat

/-- `ValidityMask`: entries of `BITS_PER_VALUE` rows each, or no buffer while all rows are valid. -/
abbrev ValidityMask := Option (Nat → BitVec 64)

/-- Row `row` of a buffer. -/
def validityBit (entries : Nat → BitVec 64) (row : Nat) : Bool :=
  (entries (row / 64)).getLsbD (row % 64)

namespace ValidityMask

def rowIsValid (mask : ValidityMask) (row : Nat) : Bool := mask.all (validityBit · row)

/-- The buffer, which `Initialize` creates with all rows valid if there is none. -/
def entries (mask : ValidityMask) : Nat → BitVec 64 := mask.getD fun _ => BitVec.allOnes 64

def setInvalid (mask : ValidityMask) (row : Nat) : ValidityMask :=
  some (update mask.entries (row / 64)
    (mask.entries (row / 64) &&& ~~~(BitVec.twoPow 64 (row % 64))))

/-- What the scan does with an entry of the result. -/
def merge (mask : ValidityMask) (entry : Nat) (inputMask : BitVec 64) : ValidityMask :=
  if inputMask ≠ BitVec.allOnes 64 then
    some (update mask.entries entry (mask.entries entry &&& inputMask))
  else mask

variable (mask : ValidityMask)

theorem validityBit_entries (r : Nat) : validityBit mask.entries r = mask.rowIsValid r := by
  cases mask with
  | none =>
    change (BitVec.allOnes 64).getLsbD (r % 64) = true
    rw [BitVec.getLsbD_allOnes, decide_eq_true (mod_lt r (by decide))]
  | some entries => rfl

theorem rowIsValid_update (e : Nat) (inputMask : BitVec 64) (r : Nat) :
    rowIsValid (some (update mask.entries e (mask.entries e &&& inputMask))) r =
      (mask.rowIsValid r && (r / 64 != e || inputMask.getLsbD (r % 64))) := by
  rw [← validityBit_entries mask]
  rcases eq_or_ne (r / 64) e with rfl | ne
  · simp [rowIsValid, validityBit]
  · simp [rowIsValid, validityBit, update_of_ne ne, bne_iff_ne.mpr ne]

theorem rowIsValid_setInvalid (r o : Nat) :
    (mask.setInvalid r).rowIsValid o = (mask.rowIsValid o && o != r) := by
  have apart : (o != r) = (o / 64 != r / 64 || o % 64 != r % 64) := by
    rw [Bool.eq_iff_iff]
    simp only [bne_iff_ne, Bool.or_eq_true]
    omega
  have cleared := getLsbD_clearBit (BitVec.allOnes 64) (o % 64) (r % 64)
  rw [BitVec.allOnes_and, BitVec.getLsbD_allOnes, decide_eq_true (mod_lt o (by decide)),
    Bool.true_and] at cleared
  rw [setInvalid, rowIsValid_update, cleared, apart]

theorem rowIsValid_merge (e : Nat) (inputMask : BitVec 64) (r : Nat) :
    (mask.merge e inputMask).rowIsValid r =
      (mask.rowIsValid r && (r / 64 != e || inputMask.getLsbD (r % 64))) := by
  unfold merge
  split_ifs with written
  · exact rowIsValid_update mask e inputMask r
  · rw [not_not.mp written, BitVec.getLsbD_allOnes, decide_eq_true (mod_lt r (by decide)),
      Bool.or_true, Bool.and_true]

end ValidityMask

/-! ## Scans -/

/-- `LOWER_MASKS[n]`: the lowest `n` bits are set. -/
def lowerMask (n : Nat) : BitVec 64 := BitVec.allOnes 64 >>> (64 - n)

/-- `UPPER_MASKS[n]`: the highest `n` bits are set. -/
def upperMask (n : Nat) : BitVec 64 := BitVec.allOnes 64 <<< (64 - n)

/-- The variables of the loop of `ValidityScanPartial`. -/
structure ValidityCursor where
  resultEntry : Nat
  resultIdx : Nat
  inputEntry : Nat
  inputIdx : Nat
  pos : Nat

/-- The first half of a pass: the part of the input entry that it takes, at its place in the entry
of the result, and the variables moved on by the rows that this covers. -/
def ValidityCursor.advance (input : Nat → BitVec 64) (c : ValidityCursor) :
    BitVec 64 × ValidityCursor :=
  let inputMask := input c.inputEntry
  if c.resultIdx < c.inputIdx then
    let shiftAmount := c.inputIdx - c.resultIdx
    let offset := 64 - c.inputIdx
    (inputMask >>> shiftAmount ||| upperMask shiftAmount,
      ⟨c.resultEntry, c.resultIdx + offset, c.inputEntry + 1, 0, c.pos + offset⟩)
  else if c.inputIdx < c.resultIdx then
    let shiftAmount := c.resultIdx - c.inputIdx
    let offset := 64 - c.resultIdx
    ((inputMask &&& ~~~(upperMask shiftAmount)) <<< shiftAmount ||| lowerMask shiftAmount,
      ⟨c.resultEntry + 1, 0, c.inputEntry, c.inputIdx + offset, c.pos + offset⟩)
  else
    (inputMask, ⟨c.resultEntry + 1, 0, c.inputEntry + 1, 0, c.pos + (64 - c.resultIdx)⟩)

/-- The loop, for a bounded number of passes. -/
def validityScanLoop (input : Nat → BitVec 64) (scanCount : Nat) :
    Nat → ValidityCursor → ValidityMask → ValidityMask
  | 0, _, mask => mask
  | passes + 1, c, mask =>
    if c.pos < scanCount then
      let (inputMask, next) := c.advance input
      let inputMask :=
        if scanCount < next.pos then inputMask ||| upperMask (next.pos - scanCount) else inputMask
      validityScanLoop input scanCount passes next (mask.merge c.resultEntry inputMask)
    else mask

/-- `ValidityScanPartial`; every pass covers a row at least. -/
def validityScanPartial (input : Nat → BitVec 64) (start scanCount : Nat) (mask : ValidityMask)
    (resultOffset : Nat) : ValidityMask :=
  validityScanLoop input scanCount scanCount
    ⟨resultOffset / 64, resultOffset - resultOffset / 64 * 64, start / 64, start - start / 64 * 64,
      0⟩ mask

/-- The row-by-row loop, which takes its place if vectors are tiny. -/
def validityCopyRows (input : Nat → BitVec 64) (start scanCount : Nat) (mask : ValidityMask)
    (resultOffset : Nat) : ValidityMask :=
  (range scanCount).foldl (fun mask i =>
    if !validityBit input (start + i) then mask.setInvalid (resultOffset + i) else mask) mask

/-- How many rows after the range are merged, by the ends of the range in the result and in the
input: those that the last pass has shifted to the right and that its mask, which counts from the
top of the entry, does not reach. -/
def leaked (resultEnd inputEnd : Nat) : Nat :=
  min (63 - (inputEnd - 1) % 64) ((inputEnd - 1) % 64 - (resultEnd - 1) % 64)

/-- The variables before the pass that merges input row `q` into result row `p`. -/
def cursorAt (p q pos : Nat) : ValidityCursor := ⟨p / 64, p % 64, q / 64, q % 64, pos⟩

theorem getLsbD_upperMask (n b : Nat) (lt : b < 64) (fits : n ≤ 64) :
    (upperMask n).getLsbD b = decide (64 ≤ b + n) := by
  simp only [upperMask, BitVec.getLsbD_shiftLeft, BitVec.getLsbD_allOnes]
  rw [Bool.eq_iff_iff]
  simp only [Bool.and_eq_true, Bool.not_eq_true', decide_eq_true_eq, decide_eq_false_iff_not]
  omega

theorem getLsbD_lowerMask (n b : Nat) (fits : n ≤ 64) :
    (lowerMask n).getLsbD b = decide (b < n) := by
  simp only [lowerMask, BitVec.getLsbD_ushiftRight, BitVec.getLsbD_allOnes, decide_eq_decide]
  omega

theorem advance_cursorAt (inp : Nat → BitVec 64) (p q pos : Nat) :
    ((cursorAt p q pos).advance inp).2 = cursorAt (p + (64 - max (p % 64) (q % 64)))
      (q + (64 - max (p % 64) (q % 64))) (pos + (64 - max (p % 64) (q % 64))) := by
  unfold ValidityCursor.advance cursorAt
  dsimp only
  split_ifs with right left <;> simp only [ValidityCursor.mk.injEq] <;> omega

theorem validityScanLoop_of_le {inp : Nat → BitVec 64} {n : Nat} {c : ValidityCursor}
    (done : n ≤ c.pos) (passes : Nat) (mask : ValidityMask) :
    validityScanLoop inp n passes c mask = mask := by
  cases passes with
  | zero => rfl
  | succ passes => rw [validityScanLoop, if_neg (Nat.not_lt.mpr done)]

section

variable {inp : Nat → BitVec 64} {p q pos : Nat} (aligned : p % 64 = 0 ∨ q % 64 = 0)

include aligned

/-- What a pass takes from the input: the rows up to the end of either entry, and ones around. -/
theorem getLsbD_advance {x : Nat} (here : x / 64 = p / 64) :
    ((cursorAt p q pos).advance inp).1.getLsbD (x % 64) =
      (decide (x < p ∨ p + (64 - max (p % 64) (q % 64)) ≤ x) || validityBit inp (q + (x - p))) := by
  have ok := mod_lt x (by decide : 0 < 64)
  unfold ValidityCursor.advance cursorAt validityBit
  dsimp only
  by_cases hou : x < p ∨ p + (64 - max (p % 64) (q % 64)) ≤ x
  · rw [decide_eq_true hou, Bool.true_or]
    split_ifs with right left
    · rw [BitVec.getLsbD_or, getLsbD_upperMask _ _ ok (by omega), decide_eq_true (by omega),
        Bool.or_true]
    · rw [BitVec.getLsbD_or, getLsbD_lowerMask _ _ (by omega), decide_eq_true (by omega),
        Bool.or_true]
    · omega
  · rw [decide_eq_false hou, Bool.false_or, show (q + (x - p)) / 64 = q / 64 by omega,
      show (q + (x - p)) % 64 = q % 64 + x % 64 - p % 64 by omega]
    split_ifs with right left
    · rw [BitVec.getLsbD_or, getLsbD_upperMask _ _ ok (by omega), decide_eq_false (by omega),
        Bool.or_false, BitVec.getLsbD_ushiftRight]
      congr 1
      omega
    · rw [BitVec.getLsbD_or, getLsbD_lowerMask _ _ (by omega), decide_eq_false (by omega),
        Bool.or_false, BitVec.getLsbD_shiftLeft, decide_eq_true ok, decide_eq_false (by omega),
        BitVec.getLsbD_and, BitVec.getLsbD_not,
        getLsbD_upperMask _ _ (by omega) (by omega), decide_eq_true (by omega),
        decide_eq_false (by omega), Bool.not_false, Bool.and_true, Bool.true_and, Bool.and_true]
      congr 1
      omega
    · congr 1
      omega

theorem rowIsValid_pass {n k : Nat} (left : pos + k = n) (mask : ValidityMask)
    (x : Nat) : let (inputMask, next) := (cursorAt p q pos).advance inp
    (mask.merge (p / 64) (if n < next.pos then
        inputMask ||| upperMask (next.pos - n) else inputMask)).rowIsValid x =
      (mask.rowIsValid x &&
        (decide (x < p ∨ p + min (64 - max (p % 64) (q % 64)) (q % 64 - p % 64 + k) ≤ x) ||
          validityBit inp (q + (x - p)))) := by
  have ok := mod_lt x (by decide : 0 < 64)
  dsimp only
  rw [ValidityMask.rowIsValid_merge, advance_cursorAt]
  congr 1
  by_cases here : x / 64 = p / 64
  · have ht := @getLsbD_advance inp p q pos aligned x here
    rw [here, bne_self_eq_false, Bool.false_or]
    change BitVec.getLsbD (if n < pos + _ then _ ||| upperMask (pos + _ - _) else _) _ = _
    split_ifs with last
    · rw [BitVec.getLsbD_or, ht, getLsbD_upperMask _ _ ok (by omega), Bool.or_right_comm,
        ← Bool.decide_or]
      congr 2
      rw [eq_iff_iff]
      omega
    · rw [ht]
      congr 2
      rw [eq_iff_iff]
      omega
  · rw [bne_iff_ne.mpr here, Bool.true_or, decide_eq_true (by omega), Bool.true_or]

theorem rowIsValid_validityScanLoop {n k passes : Nat} (left : pos + k = n)
    (rows : 0 < k) (enough : k ≤ passes) (mask : ValidityMask) (x : Nat) :
    (validityScanLoop inp n passes (cursorAt p q pos) mask).rowIsValid x =
      (mask.rowIsValid x && (decide (x < p ∨ p + k + leaked (p + k) (q + k) ≤ x) ||
        validityBit inp (q + (x - p)))) := by
  induction passes generalizing p q pos k mask with
  | zero => omega
  | succ passes ih =>
    rw [validityScanLoop, if_pos (by change pos < n; omega)]
    have pass := @rowIsValid_pass inp p q pos aligned n k left mask x
    dsimp only at pass ⊢
    change (validityScanLoop _ _ _ _ (mask.merge (p / 64) _)).rowIsValid x = _
    generalize mask.merge _ _ = merged at pass ⊢
    rw [advance_cursorAt]
    -- the rows of this pass and those of the later ones, or all that are left
    rcases lt_or_ge (64 - max (p % 64) (q % 64)) k with more | _
    · have next : (p + (64 - max (p % 64) (q % 64))) % 64 = 0 ∨
          (q + (64 - max (p % 64) (q % 64))) % 64 = 0 := by omega
      have moves : 0 < 64 - max (p % 64) (q % 64) := by omega
      generalize 64 - max (p % 64) (q % 64) = off at *
      obtain ⟨m, rfl⟩ := Nat.exists_eq_add_of_le more.le
      rw [ih next (k := m) (by omega) (by omega) (by omega), pass, Bool.and_assoc,
        ← add_assoc p, ← add_assoc q]
      congr 1
      rcases lt_or_ge x (p + off) with now | _
      · rw [decide_eq_true (Or.inl now : x < p + off ∨ _), Bool.true_or, Bool.and_true]
        congr 2
        rw [eq_iff_iff]
        omega
      · rw [decide_eq_true (by omega : x < p ∨ p + min off _ ≤ x), Bool.true_or, Bool.true_and,
          show q + off + (x - (p + off)) = q + (x - p) by omega]
        congr 2
        rw [eq_iff_iff]
        omega
    · rw [validityScanLoop_of_le (by change n ≤ pos + _; omega), pass]
      have resultLast : (p + k - 1) % 64 = p % 64 + (k - 1) := by omega
      have inputLast : (q + k - 1) % 64 = q % 64 + (k - 1) := by omega
      congr 3
      rw [eq_iff_iff, leaked, resultLast, inputLast]
      omega

end

theorem rowIsValid_validityScanPartial {inp : Nat → BitVec 64}
    {lo k ro : Nat} (aligned : lo = 0 ∨ ro = 0) (rows : 0 < k) (mask : ValidityMask) (x : Nat) :
    (validityScanPartial inp lo k mask ro).rowIsValid x =
      (mask.rowIsValid x && (decide (x < ro ∨ ro + k + leaked (ro + k) (lo + k) ≤ x) ||
        validityBit inp (lo + (x - ro)))) := by
  have cursor (n : Nat) : n - n / 64 * 64 = n % 64 := by omega
  unfold validityScanPartial
  rw [cursor, cursor]
  exact rowIsValid_validityScanLoop (by omega) (zero_add _) rows le_rfl mask x

theorem rowIsValid_validityCopyRows (inp : Nat → BitVec 64) (lo n ro : Nat)
    (mask : ValidityMask) (x : Nat) : (validityCopyRows inp lo n mask ro).rowIsValid x =
      (mask.rowIsValid x && (decide (x < ro ∨ ro + n ≤ x) || validityBit inp (lo + (x - ro)))) :=
  foldl_clear ValidityMask.rowIsValid_setInvalid _ ro n mask x

/-- On the rows before the end of the range, a scan does what the row-by-row loop does. -/
theorem validityScanPartial_copies (input : Nat → BitVec 64) (start scanCount resultOffset : Nat)
    (aligned : start = 0 ∨ resultOffset = 0) (mask : ValidityMask) :
    let scanned := validityScanPartial input start scanCount mask resultOffset
    (∀ row < resultOffset + scanCount, scanned.rowIsValid row =
      (validityCopyRows input start scanCount mask resultOffset).rowIsValid row) ∧
    (∀ row < resultOffset, scanned.rowIsValid row = mask.rowIsValid row) ∧
    ((∀ row ≥ resultOffset, mask.rowIsValid row = true) → ∀ i < scanCount,
      scanned.rowIsValid (resultOffset + i) = validityBit input (start + i)) := by
  have copies (row : Nat) (lt : row < resultOffset + scanCount) :
      (validityScanPartial input start scanCount mask resultOffset).rowIsValid row =
        (validityCopyRows input start scanCount mask resultOffset).rowIsValid row := by
    rw [rowIsValid_validityCopyRows]
    rcases Nat.eq_zero_or_pos scanCount with rfl | rows
    · rw [decide_eq_true (.inl lt), Bool.true_or, Bool.and_true]
      rfl
    · rw [rowIsValid_validityScanPartial aligned rows]
      congr 3
      rw [eq_iff_iff]
      omega
  refine ⟨copies, fun row lt => ?_, fun clear i lt => ?_⟩
  · rw [copies row (by omega), rowIsValid_validityCopyRows, decide_eq_true (.inl lt), Bool.true_or,
      Bool.and_true]
  · rw [copies _ (by omega), rowIsValid_validityCopyRows, clear _ (by omega),
      decide_eq_false (by omega), Nat.add_sub_cancel_left, Bool.true_and, Bool.false_or]

/-- Two NULLs are read from an offset of one row. -/
theorem validityScanPartial_copies_shifted :
    let scanned := validityScanPartial (fun _ => 0#64) 1 2 none 0
    scanned.rowIsValid 0 = false ∧ scanned.rowIsValid 1 = false := by
  have result := (validityScanPartial_copies (fun _ => 0#64) 1 2 0 (.inr rfl) none).2.2
    (fun _ _ => rfl)
  exact ⟨result 0 (by decide), result 1 (by decide)⟩

/-- A scan leaves the rows after its range alone exactly if the rows that leak into the result are
valid wherever the result was. -/
theorem validityScanPartial_frame_iff (input : Nat → BitVec 64) (start scanCount resultOffset : Nat)
    (aligned : start = 0 ∨ resultOffset = 0) (mask : ValidityMask) :
    (∀ row ≥ resultOffset + scanCount,
      (validityScanPartial input start scanCount mask resultOffset).rowIsValid row =
        mask.rowIsValid row) ↔
    (0 < scanCount → ∀ i < leaked (resultOffset + scanCount) (start + scanCount),
      mask.rowIsValid (resultOffset + scanCount + i) = true →
        validityBit input (start + scanCount + i) = true) := by
  rcases Nat.eq_zero_or_pos scanCount with rfl | rows
  · exact iff_of_true (fun _ _ => rfl) (fun none => absurd none (Nat.lt_irrefl 0))
  have scanned := @rowIsValid_validityScanPartial input _ _ _ aligned rows mask
  constructor
  · intro frame _ i lt valid
    have same := frame (resultOffset + scanCount + i) (by omega)
    rw [scanned, valid, decide_eq_false (by omega), Bool.true_and, Bool.false_or] at same
    rwa [show start + (resultOffset + scanCount + i - resultOffset) = start + scanCount + i by
      omega] at same
  · intro valid row ge
    obtain ⟨i, rfl⟩ := Nat.exists_eq_add_of_le ge
    rw [scanned]
    rcases Nat.lt_or_ge i (leaked (resultOffset + scanCount) (start + scanCount)) with lt | _
    · cases before : mask.rowIsValid (resultOffset + scanCount + i) with
      | false => rfl
      | true =>
        rw [show start + (resultOffset + scanCount + i - resultOffset) = start + scanCount + i by
          omega, valid rows i lt before, Bool.or_true]
        rfl
    · rw [decide_eq_true (by omega), Bool.true_or, Bool.and_true]

/-- A row after the range: the input is read from row 1 on, of which the scan asks for one row, and
row 2 is not valid. -/
theorem validityScanPartial_leaks :
    (validityScanPartial (fun _ => ~~~4#64) 1 1 none 0).rowIsValid 1 = false ∧
      ValidityMask.rowIsValid none 1 = true := by
  decide

/-- Where the range is aligned, no row after it is merged. -/
theorem validityScanPartial_frame_aligned :
    (validityScanPartial (fun _ => 0#64) 0 1 none 0).rowIsValid 1 =
      ValidityMask.rowIsValid none 1 :=
  (validityScanPartial_frame_iff (fun _ => 0#64) 0 1 0 (.inl rfl) none).mpr
    (fun _ i lt => absurd lt (Nat.not_lt_zero i)) 1 (by decide)

/-! ## Appends -/

/-- `UnifiedVectorFormat`, of which a validity segment reads the selection and the mask. -/
structure ValidityVector where
  sel : Nat → Nat
  validity : ValidityMask

def ValidityVector.row (data : ValidityVector) (i : Nat) : Bool :=
  data.validity.rowIsValid (data.sel i)

/-- A segment of which the block holds bit `i` in byte `i / 8`, which is the bit that the entries of
a mask over the block have for row `i`. -/
structure ValiditySegment where
  segmentSize : Nat
  start : Nat
  count : Nat
  bits : Nat → Bool

/-- `memset` with `0xFF`, from byte `first` to the end of the segment. -/
def setBytes (segmentSize first : Nat) (bits : Nat → Bool) (i : Nat) : Bool :=
  decide (first * 8 ≤ i ∧ i < segmentSize * 8) || bits i

namespace ValiditySegment

/-- `ValidityInitSegment`, over whatever the block held. -/
def initSegment (segmentSize start : Nat) (block : Nat → Bool) : ValiditySegment :=
  ⟨segmentSize, start, 0, setBytes segmentSize 0 block⟩

/-- A vector's rows take `STANDARD_MASK_SIZE` bytes. -/
def maxTuples (s : ValiditySegment) : Nat :=
  s.segmentSize / (standardVectorSize / 64 * 8) * standardVectorSize

def appendCount (s : ValiditySegment) (vcount : Nat) : Nat := min vcount (s.maxTuples - s.count)

/-- `ValidityAppend`. -/
def append (s : ValiditySegment) (data : ValidityVector) (offset vcount : Nat) : ValiditySegment :=
  let appendCount := s.appendCount vcount
  if data.validity.isNone then { s with count := s.count + appendCount }
  else
    { s with
      count := s.count + appendCount
      bits := (range appendCount).foldl (fun bits i =>
        if !data.row (offset + i) then update bits (s.count + i) false else bits) s.bits }

/-- `ValidityRevertAppend` and the new count, which `ColumnSegment::RevertAppend` sets. -/
def revertAppend (s : ValiditySegment) (startRow : Nat) : ValiditySegment :=
  let startBit := startRow - s.start
  if startBit % 8 ≠ 0 then
    let bitEnd := (startBit / 8 + 1) * 8
    let bits := (range' startBit (bitEnd - startBit)).foldl
      (fun bits i => update bits i true) s.bits
    { s with bits := setBytes s.segmentSize (bitEnd / 8) bits, count := startBit }
  else { s with bits := setBytes s.segmentSize (startBit / 8) s.bits, count := startBit }

/-- `ValidityFetchRow`. -/
def fetchRow (s : ValiditySegment) (row : Nat) (mask : ValidityMask) (resultIdx : Nat) :
    ValidityMask :=
  if !s.bits row then mask.setInvalid resultIdx else mask

/-- The segments that calls lead to, each with the rows that have survived them. Callers revert to
a row of the segment or to its end. -/
inductive Reaches : ValiditySegment → List Bool → Prop
  | init (segmentSize start : Nat) (block : Nat → Bool) :
    Reaches (initSegment segmentSize start block) []
  | append {s : ValiditySegment} {rows : List Bool} (data : ValidityVector) (offset vcount : Nat) :
    Reaches s rows → Reaches (s.append data offset vcount)
      (rows ++ (range (s.appendCount vcount)).map fun i => data.row (offset + i))
  | revert {s : ValiditySegment} {rows : List Bool} {startRow : Nat} :
    Reaches s rows → s.start ≤ startRow → startRow ≤ s.start + s.count →
    Reaches (s.revertAppend startRow) (rows.take (startRow - s.start))

/-- The bits are those of the rows, and set after them. -/
structure Holds (s : ValiditySegment) (rows : List Bool) : Prop where
  count : s.count = rows.length
  le : s.count ≤ s.segmentSize * 8
  bits {i : Nat} : i < s.segmentSize * 8 → s.bits i = rows[i]?.getD true

variable {s : ValiditySegment} {rows : List Bool}

/-- Skipping an append without a mask does no harm to what it would have written. -/
theorem bits_append (data : ValidityVector) (off vcount i : Nat) :
    (s.append data off vcount).bits i = (s.bits i &&
      (decide (i < s.count ∨ s.count + s.appendCount vcount ≤ i) ||
        data.row (off + (i - s.count)))) := by
  unfold append
  split_ifs with allValid
  · rw [ValidityVector.row, Option.isNone_iff_eq_none.mp allValid]
    simp [ValidityMask.rowIsValid]
  · have cleared (bits : Nat → Bool) (i j : Nat) : update bits i false j = (bits j && j != i) := by
      rcases eq_or_ne j i with rfl | ne
      · simp
      · simp [update_of_ne ne, bne_iff_ne.mpr ne]
    exact @foldl_clear _ (fun bits i => bits i) (fun bits i => update bits i false) cleared
      (fun i => data.row (off + i)) s.count _ s.bits i

theorem Holds.append (hh : s.Holds rows) (data : ValidityVector) (off vcount : Nat) :
    (s.append data off vcount).Holds
      (rows ++ (range (s.appendCount vcount)).map fun i => data.row (off + i)) := by
  have size : (s.append data off vcount).segmentSize = s.segmentSize := by
    unfold ValiditySegment.append
    split_ifs <;> rfl
  have n : (s.append data off vcount).count = s.count + s.appendCount vcount := by
    unfold ValiditySegment.append
    split_ifs <;> rfl
  refine ⟨?_, ?_, ?_⟩
  · rw [n, length_append, length_map, length_range, hh.count]
  · have room : s.maxTuples ≤ s.segmentSize * 8 := by
      simp only [maxTuples, standardVectorSize]
      omega
    have := hh.le
    rw [n, size, appendCount]
    omega
  · intro i lt
    rw [size] at lt
    rw [bits_append, hh.bits lt, getElem?_append, hh.count]
    split_ifs with old
    · rw [decide_eq_true (.inl old), Bool.true_or, Bool.and_true]
    · rw [getElem?_eq_none (Nat.le_of_not_lt old), getElem?_map]
      rcases lt_or_ge (i - rows.length) (s.appendCount vcount) with new | _
      · rw [getElem?_range new, decide_eq_false (by omega)]
        rfl
      · rw [getElem?_eq_none (by rwa [length_range]), decide_eq_true (by omega)]
        rfl

theorem foldl_set (bits : Nat → Bool) (fst n i : Nat) :
    (range' fst n).foldl (fun bits i => update bits i true) bits i =
      (decide (fst ≤ i ∧ i < fst + n) || bits i) := by
  induction n generalizing fst bits with
  | zero =>
    rw [decide_eq_false (by omega), Bool.false_or]
    rfl
  | succ n ih =>
    rw [range'_succ, foldl_cons, ih]
    rcases eq_or_ne i fst with rfl | ne
    · simp
    · rw [update_of_ne ne]
      congr 2
      rw [eq_iff_iff]
      omega

theorem Holds.revert (hh : s.Holds rows) {lo : Nat} (le : lo ≤ s.start + s.count) :
    (s.revertAppend lo).Holds (rows.take (lo - s.start)) := by
  have shorter : lo - s.start ≤ s.count := by omega
  have reverted : (s.revertAppend lo).segmentSize = s.segmentSize ∧
      (s.revertAppend lo).count = lo - s.start ∧ ∀ i < s.segmentSize * 8,
        (s.revertAppend lo).bits i = (decide (lo - s.start ≤ i) || s.bits i) := by
    unfold revertAppend setBytes
    dsimp only
    split_ifs with partByte
    · refine ⟨rfl, rfl, fun i lt => ?_⟩
      dsimp only
      rw [foldl_set, ← Bool.or_assoc, ← Bool.decide_or]
      congr 2
      rw [eq_iff_iff]
      omega
    · refine ⟨rfl, rfl, fun i lt => ?_⟩
      dsimp only
      congr 2
      rw [eq_iff_iff]
      omega
  obtain ⟨size, n, bits⟩ := reverted
  refine ⟨?_, ?_, ?_⟩
  · rw [n, length_take, ← hh.count, min_eq_left shorter]
  · rw [n, size]
    exact shorter.trans hh.le
  · intro i lt
    rw [size] at lt
    rw [bits i lt, hh.bits lt, getElem?_take]
    split_ifs with kept
    · rw [decide_eq_false (Nat.not_le.mpr kept), Bool.false_or]
    · rw [decide_eq_true (Nat.le_of_not_lt kept), Bool.true_or]
      rfl

theorem Reaches.holds (reached : Reaches s rows) : s.Holds rows := by
  induction reached with
  | init segmentSize lo b =>
    refine ⟨rfl, zero_le _, fun lt => ?_⟩
    change setBytes segmentSize 0 b _ = true
    rw [setBytes, decide_eq_true ⟨by omega, lt⟩, Bool.true_or]
  | append data off vcount _ ih => exact ih.append data off vcount
  | revert _ _ le ih => exact ih.revert le

/-- After any appends and reverts the bits before the count are the surviving rows, which is what
is fetched, and the bits after it are set. -/
theorem validityAppends_spec (reached : Reaches s rows) : s.count = rows.length ∧
    (∀ i < s.count, rows[i]? = some (s.bits i)) ∧
    (∀ i ≥ s.count, i < s.segmentSize * 8 → s.bits i = true) ∧
    ∀ i < s.count, ∀ mask resultIdx, (s.fetchRow i mask resultIdx).rowIsValid resultIdx =
      (mask.rowIsValid resultIdx && rows[i]?.getD true) := by
  have holds := reached.holds
  have row (i : Nat) (lt : i < s.count) : rows[i]? = some (s.bits i) := by
    rw [holds.bits (lt.trans_le holds.le), getElem?_eq_getElem (holds.count ▸ lt)]
    rfl
  refine ⟨holds.count, row, fun i ge lt => ?_, fun i lt mask resultIdx => ?_⟩
  · rw [holds.bits lt, getElem?_eq_none (holds.count ▸ ge)]
    rfl
  · rw [row i lt, fetchRow]
    cases s.bits i with
    | false => simp [ValidityMask.rowIsValid_setInvalid]
    | true => simp

/-- Three rows, the second of which is not valid, are appended and the last two taken back. -/
theorem validityAppends_reverted :
    let data : ValidityVector := ⟨id, some fun _ => ~~~2#64⟩
    (((initSegment 256 100 fun _ => false).append data 0 3).revertAppend 101).bits 1 = true :=
  (validityAppends_spec (.revert (.append ⟨id, some fun _ => ~~~2#64⟩ 0 3
    (.init 256 100 fun _ => false)) (by decide) (by decide))).2.2.1 1 (by decide) (by decide)

end ValiditySegment

end AccessPath
