import AccessPath.Constants
import AccessPath.Library.BitScan
import AccessPath.Sketch.CodedColumn

/-!
# Column sketches

A sketch of a vector of values has a code of one byte for each value, such that a greater value
never has a smaller code. A predicate on the values is evaluated on blocks of 64 codes at once,
and looks at the values only where a code does not decide.
-/

namespace AccessPath

open Library

/-- `ManagedSelection`: the entries of the selection vector that were set, how many of them are
valid, and a bit for each row. -/
structure ManagedSelection where
  selection : List Nat
  count : Nat
  bitmask : List (BitVec 64)
deriving DecidableEq

/-- A bit of a bitmask; there are none after its words. -/
def ManagedSelection.bit (msel : ManagedSelection) (i : Nat) : Bool :=
  (msel.bitmask[i / 64]?).any (·.getLsbD (i % 64))

/-- `ColumnSketch` of the values of a vector, with codes of a byte. -/
structure ColumnSketch (α : Type) extends CodedColumn α 8 where
  size_le : baseData.length ≤ standardVectorSize

namespace ColumnSketch

variable {α : Type} [LinearOrder α] (sketch : ColumnSketch α)

def minData : α := sketch.sample.head sketch.sample_ne_nil

/-- Codes alone are trusted if there are at most as many different values as codes. -/
def needCheckBase : Bool := !decide (sketch.sample.dedup.length ≤ sketch.numCodes)

/-! ## Evaluation -/

/-- What distinguishes the four evaluations. -/
structure Predicate (α : Type) where
  /-- No row satisfies the predicate. -/
  noRow : Bool
  /-- All rows satisfy it. -/
  allRows : Bool
  /-- Codes that are trusted. -/
  trusted : BitVec 8 → Bool
  /-- Codes on the one side of that of the constant. -/
  side : BitVec 8 → Bool
  /-- Values that stay if they have the code of the constant. -/
  base : α → Bool
  /-- Codes and values after the last whole block. -/
  tail : BitVec 8 → α → Bool

/-- The mask that a comparison of 64 lanes gives. -/
def lanes (lane : Nat → Bool) : BitVec 64 := bitsOf lane 64

section

variable (predicate : Predicate α) (codeX : BitVec 8)

/-- The rows of a block of 64 rows that satisfy the predicate. -/
def blockMask (start : Nat) : BitVec 64 :=
  if sketch.needCheckBase then
    let eqMask := lanes fun i => (sketch.codes[start + i]?).any (· == codeX)
    let refined := clearUnless (fun i => (sketch.baseData[start + i]?).any predicate.base) eqMask
      (scanBits 64 eqMask)
    (lanes fun i => (sketch.codes[start + i]?).any predicate.side) ||| refined
  else lanes fun i => (sketch.codes[start + i]?).any predicate.trusted

/-- A row after the last whole block. -/
def tailRow (i : Nat) : Bool :=
  (sketch.codes[i]?).any fun c => (sketch.baseData[i]?).any (predicate.tail c)

/-- The number of whole blocks. -/
def numBlocks : Nat := sketch.baseData.length / 64

/-- The selection and the bitmask after some blocks. -/
def evaluateBlocks : Nat → List Nat × List (BitVec 64)
  | 0 => ([], [])
  | blocks + 1 =>
    let (selection, bitmask) := evaluateBlocks blocks
    let mask := sketch.blockMask predicate codeX (64 * blocks)
    (selection ++ (scanBits 64 mask).map (64 * blocks + ·), bitmask ++ [mask])

/-- The selection and the last word of the bitmask after some rows of the tail. -/
def evaluateTail (selection : List Nat) : Nat → List Nat × BitVec 64
  | 0 => (selection, 0)
  | tailBits + 1 =>
    let (selection, tailMask) := evaluateTail selection tailBits
    let i := 64 * sketch.numBlocks + tailBits
    if sketch.tailRow predicate i then
      (selection ++ [i], tailMask ||| BitVec.twoPow 64 tailBits)
    else (selection, tailMask)

/-- The words of a bitmask for all rows, of which the last one is cut. -/
def allBits (size : Nat) : List (BitVec 64) :=
  let bitmask := List.replicate ((size + 63) / 64) (BitVec.allOnes 64)
  if size % 64 ≠ 0 then bitmask.set ((size + 63) / 64 - 1) (BitVec.twoPow 64 (size % 64) - 1)
  else bitmask

/-- The four evaluations: the number of rows, and the selection after it. -/
def evaluate (msel : ManagedSelection) : Nat × ManagedSelection :=
  let size := sketch.baseData.length
  if predicate.noRow then (0, msel)
  else if predicate.allRows then (size, ⟨List.range size, size, allBits size⟩)
  else
    let (selection, bitmask) := sketch.evaluateBlocks predicate codeX sketch.numBlocks
    let (selection, tailMask) := sketch.evaluateTail predicate selection (size % 64)
    (selection.length, ⟨selection, selection.length, bitmask ++ [tailMask]⟩)

end

variable (x : α) (msel : ManagedSelection)

def lessThan : Predicate α where
  noRow := x ≤ sketch.minData
  allRows := x > sketch.maxData
  trusted c := c.ult (sketch.code x)
  side c := c.ult (sketch.code x)
  base value := !decide (value ≥ x)
  tail c value := c.ult (sketch.code x) || (c == sketch.code x && decide (value < x))

def lessThanOrEqual : Predicate α where
  noRow := x < sketch.minData
  allRows := x > sketch.maxData || (!sketch.needCheckBase && decide (x ≥ sketch.maxData))
  trusted c := c.ule (sketch.code x)
  side c := c.ult (sketch.code x)
  base value := !decide (value > x)
  tail c value := c.ule (sketch.code x) || (c == sketch.code x && decide (value ≤ x))

def greaterThan : Predicate α where
  noRow := x ≥ sketch.maxData
  allRows := x < sketch.minData
  trusted c := (sketch.code x).ult c
  side c := (sketch.code x).ult c
  base value := !decide (value ≤ x)
  tail c value := (sketch.code x).ult c || (c == sketch.code x && decide (value > x))

def greaterThanOrEqual : Predicate α where
  noRow := x > sketch.maxData
  allRows := x < sketch.minData || (!sketch.needCheckBase && decide (x ≤ sketch.minData))
  trusted c := (sketch.code x).ule c
  side c := (sketch.code x).ult c
  base value := !decide (value < x)
  tail c value := (sketch.code x).ule c || (c == sketch.code x && decide (value ≥ x))

/-- `evaluate_less_than_AVX512` -/
def evaluateLessThan : Nat × ManagedSelection :=
  sketch.evaluate (sketch.lessThan x) (sketch.code x) msel

/-- `evaluate_lessthan_orequal_avx512` -/
def evaluateLessThanOrEqual : Nat × ManagedSelection :=
  sketch.evaluate (sketch.lessThanOrEqual x) (sketch.code x) msel

/-- `evaluate_greater_than_AVX512` -/
def evaluateGreaterThan : Nat × ManagedSelection :=
  sketch.evaluate (sketch.greaterThan x) (sketch.code x) msel

/-- `evaluate_greaterthan_orequal_avx512` -/
def evaluateGreaterThanOrEqual : Nat × ManagedSelection :=
  sketch.evaluate (sketch.greaterThanOrEqual x) (sketch.code x) msel

end ColumnSketch

end AccessPath
