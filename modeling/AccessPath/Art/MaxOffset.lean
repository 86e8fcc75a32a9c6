import Mathlib.Algebra.GroupWithZero.Nat
import Mathlib.Algebra.Order.Group.Nat

/-!
# The size of a buffer on disk

`FixedSizeBuffer::GetMaxOffset` looks for the last allocated segment of a buffer:
the last zero in its bitmask, whose words it reads from the end.
-/

namespace AccessPath

namespace FixedSizeBuffer

/-- The tables `BASE` and `SHIFT`. -/
def levels : List (BitVec 64 × Nat) :=
  [(0x00000000FFFFFFFF, 32), (0x0000FFFF, 16), (0x00FF, 8), (0x0F, 4), (0x3, 2), (0x1, 1)]

/-- A level of the search for the leftmost bit: the entry and the bits passed. -/
def leftmostLevel (found : BitVec 64 × Nat) (level : BitVec 64 × Nat) : BitVec 64 × Nat :=
  if found.1 &&& ~~~level.1 ≠ 0 then (found.1 >>> level.2, found.2 + level.2)
  else (found.1 &&& level.1, found.2)

def leftmostBit (entry : BitVec 64) : Nat := (levels.foldl leftmostLevel (entry, 0)).2

def bitmaskCount (availableSegments : Nat) : Nat :=
  availableSegments / 64 + if availableSegments % 64 ≠ 0 then 1 else 0

/-- A word of the bitmask, in which the bits after the last segment are set. -/
def maskedEntry (data : Nat → BitVec 64) (availableSegments i : Nat) : BitVec 64 :=
  if i + 1 = bitmaskCount availableSegments
  then data i ||| BitVec.allOnes 64 <<< (availableSegments % 64) else data i

/-- The loop over the words; `none` is the exception for an empty buffer. -/
def maxOffsetLoop (data : Nat → BitVec 64) (availableSegments : Nat) : Nat → Nat → Option Nat
  | 0, _ => none
  | i + 1, maxOffset =>
    let entry := maskedEntry data availableSegments i
    if entry = BitVec.allOnes 64 then maxOffsetLoop data availableSegments i (maxOffset - 64)
    else some (maxOffset - (64 - leftmostBit (~~~entry)) + 1)

/-- `FixedSizeBuffer::GetMaxOffset`. -/
def getMaxOffset (data : Nat → BitVec 64) (availableSegments : Nat) : Option Nat :=
  maxOffsetLoop data availableSegments (bitmaskCount availableSegments)
    (bitmaskCount availableSegments * 64)

/-- The bit of an allocated segment is cleared. -/
def Allocated (data : Nat → BitVec 64) (offset : Nat) : Prop :=
  (data (offset / 64)).getLsbD (offset % 64) = false

/-! ## The leftmost bit -/

/-- What is left of an entry once the bits below are passed. -/
structure Narrowed (entry : BitVec 64) (width : Nat) (found : BitVec 64 × Nat) : Prop where
  eq_div : found.1.toNat = entry.toNat / 2 ^ found.2
  ne_zero : found.1.toNat ≠ 0
  lt : found.1.toNat < 2 ^ width

theorem high_eq_zero_iff (x : BitVec 64) (s : Nat) :
    x &&& ~~~BitVec.ofNat 64 (2 ^ s - 1) = 0 ↔ x.toNat < 2 ^ s := by
  have bit (i : Nat) (hi : i < 64) : (x &&& ~~~BitVec.ofNat 64 (2 ^ s - 1)).getLsbD i =
      (x.getLsbD i && !decide (i < s)) := by
    rw [BitVec.getLsbD_and, BitVec.getLsbD_not, BitVec.getLsbD_ofNat, Nat.testBit_two_pow_sub_one]
    simp [hi]
  constructor
  · intro zero
    refine Nat.lt_pow_two_of_testBit _ fun i le => ?_
    by_cases hi : i < 64
    · have := bit i hi
      rw [zero] at this
      simpa [BitVec.testBit_toNat, Nat.not_lt.mpr le] using this.symm
    · exact Nat.testBit_lt_two_pow (x.isLt.trans_le (Nat.pow_le_pow_right Nat.two_pos (by omega)))
  · intro lt
    refine BitVec.eq_of_getLsbD_eq fun i hi => ?_
    rw [bit i hi]
    by_cases lo : i < s
    · simp [lo]
    · have abv := Nat.pow_le_pow_right Nat.two_pos (Nat.not_lt.mp lo)
      have clear := Nat.testBit_lt_two_pow (lt.trans_le abv)
      rw [BitVec.testBit_toNat] at clear
      simp [clear]

theorem Narrowed.level {e : BitVec 64} {s : Nat} {r : BitVec 64 × Nat} (ok : s ≤ 32)
    (narrowed : Narrowed e (s + s) r) :
    Narrowed e s (leftmostLevel r (BitVec.ofNat 64 (2 ^ s - 1), s)) := by
  have iff := high_eq_zero_iff r.1 s
  rw [leftmostLevel]
  split
  · next high =>
      have le : 2 ^ s ≤ r.1.toNat := Nat.not_lt.mp fun lt => high (iff.mpr lt)
      have shifted : (r.1 >>> s).toNat = r.1.toNat / 2 ^ s := by
        rw [BitVec.toNat_ushiftRight, Nat.shiftRight_eq_div_pow]
      refine ⟨?_, ?_, ?_⟩
      · rw [shifted, narrowed.eq_div, Nat.div_div_eq_div_mul, ← pow_add]
      · rw [shifted]
        exact (Nat.div_pos le (Nat.two_pow_pos s)).ne'
      · rw [shifted]
        exact Nat.div_lt_of_lt_mul (by rw [← pow_add]; exact narrowed.lt)
  · next low =>
      have lt : r.1.toNat < 2 ^ s := iff.mp (not_not.mp low)
      have kept : (r.1 &&& BitVec.ofNat 64 (2 ^ s - 1)).toNat = r.1.toNat := by
        have hsm : 2 ^ s - 1 < 2 ^ 64 :=
          (Nat.sub_le _ _).trans_lt (Nat.pow_lt_pow_right Nat.one_lt_two (by omega))
        rw [BitVec.toNat_and, BitVec.toNat_ofNat, Nat.mod_eq_of_lt hsm,
          Nat.and_two_pow_sub_one_eq_mod, Nat.mod_eq_of_lt lt]
      exact ⟨kept.trans narrowed.eq_div, kept.trans_ne narrowed.ne_zero, kept.trans_lt lt⟩

theorem leftmostBit_spec {e : BitVec 64} (ne : e ≠ 0) :
    e.toNat / 2 ^ leftmostBit e = 1 := by
  have start : Narrowed e (32 + 32) (e, 0) :=
    ⟨by simp, fun zero => ne (BitVec.eq_of_toNat_eq zero), e.isLt⟩
  have final : Narrowed e 1 (levels.foldl leftmostLevel (e, 0)) :=
    (((((start.level (by decide)).level (s := 16) (by decide)).level (s := 8)
      (by decide)).level (s := 4) (by decide)).level (s := 2) (by decide)).level (by decide)
  have := final.eq_div
  have := final.ne_zero
  have := final.lt
  rw [leftmostBit]
  omega

theorem leftmostBit_not {e : BitVec 64} (some : e ≠ BitVec.allOnes 64) :
    leftmostBit (~~~e) < 64 ∧ e.getLsbD (leftmostBit (~~~e)) = false ∧
      ∀ j < 64, e.getLsbD j = false → j ≤ leftmostBit (~~~e) := by
  have ne : ~~~e ≠ 0 := fun zero => some (by simpa using congrArg (~~~ ·) zero)
  have one := leftmostBit_spec ne
  generalize leftmostBit (~~~e) = k at one
  have hk : k < 64 := by
    by_contra ge
    have big := Nat.pow_le_pow_right Nat.two_pos (Nat.not_lt.mp ge)
    rw [Nat.div_eq_of_lt ((~~~e).isLt.trans_le big)] at one
    cases one
  have bit (j : Nat) (hj : j < 64) : e.getLsbD j = !(~~~e).toNat.testBit j := by
    rw [BitVec.testBit_toNat, BitVec.getLsbD_not]
    simp [hj]
  refine ⟨hk, ?_, fun j hj clear => ?_⟩
  · rw [bit k hk, Nat.testBit_eq_decide_div_mod_eq, one]
    rfl
  · by_contra hi
    have lt : (~~~e).toNat < 2 ^ (k + 1) := by
      rw [pow_succ]
      have := Nat.div_lt_iff_lt_mul (Nat.two_pow_pos k) |>.mp (one.trans_lt Nat.one_lt_two)
      omega
    have high := Nat.pow_le_pow_right Nat.two_pos (Nat.not_le.mp hi)
    rw [bit j hj, Nat.testBit_lt_two_pow (lt.trans_le high)] at clear
    cases clear

/-! ## The words from the end -/

section

variable {data : Nat → BitVec 64} {n : Nat}

/-- One more than the last number below a bound with a property. -/
def LastBelow (P : Nat → Prop) (stop : Nat) : Option Nat → Prop
  | none => ∀ p < stop, ¬ P p
  | some found => ∃ m < stop, found = m + 1 ∧ P m ∧ ∀ p < stop, P p → p ≤ m

theorem maxOffsetLoop_spec (i : Nat) :
    LastBelow (fun p => (maskedEntry data n (p / 64)).getLsbD (p % 64) = false) (i * 64)
      (maxOffsetLoop data n i (i * 64)) := by
  induction i with
  | zero => exact fun p lt => absurd lt (by omega)
  | succ i ih =>
    rw [maxOffsetLoop]
    split
    · next full =>
      have set (p : Nat) (lt : p < (i + 1) * 64) (ge : i * 64 ≤ p) :
          ¬ (maskedEntry data n (p / 64)).getLsbD (p % 64) = false := by
        rw [show p / 64 = i by omega, full, BitVec.getLsbD_allOnes]
        simp [Nat.mod_lt]
      rw [show (i + 1) * 64 - 64 = i * 64 by omega]
      generalize maxOffsetLoop data n i (i * 64) = res at ih
      cases res with
      | none => exact fun p lt => (Nat.lt_or_ge p (i * 64)).elim (ih p) (set p lt)
      | some got =>
        obtain ⟨m, lt, eq, clear, last⟩ := ih
        refine ⟨m, by omega, eq, clear, fun p lt' clear' => ?_⟩
        rcases Nat.lt_or_ge p (i * 64) with low | high
        · exact last p low clear'
        · exact absurd clear' (set p lt' high)
    · next some =>
      obtain ⟨hk, clear, last⟩ := leftmostBit_not some
      generalize leftmostBit (~~~maskedEntry data n i) = k at hk clear last
      refine ⟨i * 64 + k, by omega, by omega, ?_, fun p lt clear' => ?_⟩
      · dsimp only
        rwa [show (i * 64 + k) / 64 = i by omega, show (i * 64 + k) % 64 = k by omega]
      · by_contra above
        dsimp only at clear'
        rw [show p / 64 = i by omega] at clear'
        have := last _ (Nat.mod_lt p (by decide)) clear'
        omega

/-- The masked words show the segments before the last word, and in it those
before the remainder, which is none when the word is full. -/
theorem maskedEntry_eq_false_iff {p : Nat} (lt : p < bitmaskCount n * 64) :
    (maskedEntry data n (p / 64)).getLsbD (p % 64) = false ↔
      Allocated data p ∧ p < (bitmaskCount n - 1) * 64 + n % 64 := by
  have inWord := Nat.mod_lt p (show 64 > 0 by decide)
  rw [maskedEntry, Allocated]
  split
  · next last =>
    rw [BitVec.getLsbD_or, BitVec.getLsbD_shiftLeft, BitVec.getLsbD_allOnes, Bool.or_eq_false_iff]
    refine and_congr_right fun _ => ?_
    simp only [inWord, decide_true, Bool.true_and, Bool.and_eq_false_iff, Bool.not_eq_false',
      decide_eq_true_eq, decide_eq_false_iff_not]
    omega
  · next o => exact ⟨fun clear => ⟨clear, by omega⟩, And.left⟩

end

/-- The result is one more than the last allocated offset exactly when the last
word of the bitmask is not full or has no allocated segment: the shift by zero
bits sets all of a full word. -/
theorem getMaxOffset_iff (data : Nat → BitVec 64) {n : Nat} (positive : 1 ≤ n)
    (used : ∃ p < n, Allocated data p) :
    (∃ m < n, getMaxOffset data n = some (m + 1) ∧ Allocated data m ∧
      ∀ p < n, Allocated data p → p ≤ m) ↔ n % 64 ≠ 0 ∨ ∀ p < n, Allocated data p → p < n - 64 := by
  have spec := @maxOffsetLoop_spec data n (bitmaskCount n)
  have clear_iff {p : Nat} := @maskedEntry_eq_false_iff data n p
  have limit : (bitmaskCount n - 1) * 64 + n % 64 = (if n % 64 ≠ 0 then n else n - 64) ∧
      n ≤ bitmaskCount n * 64 := by
    unfold bitmaskCount
    split <;> omega
  rw [limit.1] at clear_iff
  have shown : (n % 64 ≠ 0 ∨ ∀ p < n, Allocated data p → p < n - 64) ↔
      ∀ p < n, Allocated data p → p < if n % 64 ≠ 0 then n else n - 64 := by
    split
    · next some => exact ⟨fun _ p lt _ => lt, fun _ => .inl some⟩
    · next full => simp [full]
  rw [shown, getMaxOffset]
  generalize maxOffsetLoop data n (bitmaskCount n) (bitmaskCount n * 64) = res at spec
  cases res with
  | none =>
    obtain ⟨p, lt, allocated⟩ := used
    constructor
    · rintro ⟨_, _, eq, _⟩
      cases eq
    · intro below
      have lt' := lt.trans_le limit.2
      exact absurd ((clear_iff lt').mpr ⟨allocated, below p lt allocated⟩) (spec p lt')
  | some got =>
    obtain ⟨m, lt, rfl, clear, last⟩ := spec
    obtain ⟨allocated, below⟩ := (clear_iff lt).mp clear
    constructor
    · rintro ⟨_, _, eq, _, last'⟩ p lt' allocated'
      cases eq
      exact (last' p lt' allocated').trans_lt below
    · intro shown
      refine ⟨m, by split at below <;> omega, rfl, allocated, fun p lt' allocated' => ?_⟩
      have lt'' := lt'.trans_le limit.2
      exact last p lt'' ((clear_iff lt'').mpr ⟨allocated', shown p lt' allocated'⟩)

/-- A word that is not full. -/
theorem getMaxOffset_iff_partial : ∃ m < 100, getMaxOffset (fun _ => 0) 100 = some (m + 1) ∧
    Allocated (fun _ => 0) m ∧ ∀ p < 100, Allocated (fun _ => 0) p → p ≤ m :=
  (getMaxOffset_iff (fun _ => 0) (by decide) ⟨0, by decide, rfl⟩).mpr (.inl (by decide))

/-- Of two full words the second is not read: segment 70 is cut off. -/
theorem getMaxOffset_full : let data : Nat → BitVec 64 := fun i => if i = 0 then ~~~32 else ~~~64
    Allocated data 70 ∧ getMaxOffset data 128 = some 6 :=
  ⟨rfl, by decide⟩

end FixedSizeBuffer

end AccessPath
