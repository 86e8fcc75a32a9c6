import Mathlib.Algebra.GroupWithZero.Nat
import Mathlib.Data.List.Sort
import Mathlib.Order.MinMax

/-!
# Order-preserving codes

The codes of `ColumnSketch<BaseType, CodeType>`, for any number of values and any number of bits:
the endpoints are quantiles of the values, and the code of a value is the index of the first
endpoint that is not less.
-/

namespace AccessPath

open List Nat

/-- The base data of a sketch with codes of `w` bits. -/
structure CodedColumn (α : Type) (w : Nat) where
  baseData : List α
  nonempty : baseData ≠ []

namespace CodedColumn

variable {α : Type} [LinearOrder α] {w : Nat} (column : CodedColumn α w)

def sample : List α := column.baseData.insertionSort (· ≤ ·)

theorem sample_perm : column.sample.Perm column.baseData := perm_insertionSort _ _

theorem sample_ne_nil : column.sample ≠ [] := by
  intro empty
  exact column.nonempty (perm_nil.mp (empty ▸ column.sample_perm).symm)

theorem sample_pos : 0 < column.sample.length := length_pos_of_ne_nil column.sample_ne_nil

def maxData : α := column.sample.getLast column.sample_ne_nil

def numCodes : Nat := min column.sample.length (2 ^ w)

/-- `build_order_preserving_map` -/
def endpoint (i : Nat) : α :=
  column.sample.get ⟨min ((i + 1) * column.sample.length / column.numCodes - 1)
    (column.sample.length - 1), by have := column.sample_pos; omega⟩

def endpoints : List α := (range column.numCodes).map column.endpoint

/-- `std::lower_bound` -/
def lowerBound (x : α) : Nat := column.endpoints.findIdx fun endpoint => x ≤ endpoint

def code (x : α) : BitVec w := BitVec.ofNat w (column.lowerBound x)

/-- `build_sketch_column` -/
def codes : List (BitVec w) := column.baseData.map column.code

/-! ## Endpoints -/

theorem sample_le {i j : Nat} (le : i ≤ j) (lt : j < column.sample.length) :
    column.sample.get ⟨i, le.trans_lt lt⟩ ≤ column.sample.get ⟨j, lt⟩ := by
  rcases lt_or_eq_of_le le with less | rfl
  · exact pairwise_iff_get.mp (pairwise_insertionSort _ _) _ _ less
  · exact le_refl _

theorem maxData_eq : column.maxData =
    column.sample.get ⟨column.sample.length - 1, by have := column.sample_pos; omega⟩ :=
  getLast_eq_getElem column.sample_ne_nil

theorem le_maxData {v : α} (mem : v ∈ column.baseData) : v ≤ column.maxData := by
  obtain ⟨i, rfl⟩ := mem_iff_get.mp (column.sample_perm.mem_iff.mpr mem)
  rw [maxData_eq]
  exact column.sample_le (le_sub_one_of_lt i.isLt) _

theorem numCodes_pos : 0 < column.numCodes :=
  lt_min column.sample_pos (Nat.two_pow_pos w)

theorem endpoint_mono {i j : Nat} (le : i ≤ j) : column.endpoint i ≤ column.endpoint j := by
  have quotient : (i + 1) * column.sample.length / column.numCodes ≤
      (j + 1) * column.sample.length / column.numCodes :=
    Nat.div_le_div_right (mul_le_mul_right _ (succ_le_succ le))
  exact column.sample_le (min_le_min_right _ (Nat.sub_le_sub_right quotient 1)) _

theorem endpoints_sorted : column.endpoints.Pairwise (· ≤ ·) := by
  rw [endpoints, pairwise_map]
  exact pairwise_lt_range.imp fun less => column.endpoint_mono less.le

theorem maxData_mem_endpoints : column.maxData ∈ column.endpoints := by
  have pos := column.numCodes_pos
  refine List.mem_map.mpr ⟨column.numCodes - 1, mem_range.mpr (by omega), ?_⟩
  have index : min ((column.numCodes - 1 + 1) * column.sample.length / column.numCodes - 1)
      (column.sample.length - 1) = column.sample.length - 1 := by
    rw [Nat.sub_add_cancel pos, Nat.mul_div_cancel_left _ pos, min_self]
  rw [maxData_eq, endpoint]
  simp only [index]

/-! ## Codes -/

/-- An endpoint separates two values. -/
def Separated (low high : α) : Prop :=
  ∃ endpoint ∈ column.endpoints, low ≤ endpoint ∧ endpoint < high

theorem Separated.lt {column : CodedColumn α w} {low high : α}
    (separated : column.Separated low high) : low < high := by
  obtain ⟨_, _, le, less⟩ := separated
  exact le.trans_lt less

/-- Of two values the one has a smaller code exactly if an endpoint separates them. -/
theorem lowerBound_lt_iff {low high : α} :
    column.lowerBound low < column.lowerBound high ↔ column.Separated low high := by
  constructor
  · intro less
    have lt : column.lowerBound low < column.endpoints.length :=
      less.trans_le findIdx_le_length
    refine ⟨_, getElem_mem lt, ?_, ?_⟩
    · exact of_decide_eq_true (@findIdx_getElem α (fun endpoint => decide (low ≤ endpoint))
        column.endpoints lt)
    · exact not_le.mp (of_decide_eq_false (not_of_lt_findIdx less))
  · rintro ⟨_, mem, le, less⟩
    obtain ⟨j, lt, rfl⟩ := getElem_of_mem mem
    have found : column.lowerBound low ≤ j := by
      refine Nat.le_of_not_lt fun before => ?_
      exact absurd le (of_decide_eq_false (not_of_lt_findIdx before))
    -- The endpoints are sorted, so none up to this one reaches the greater value.
    refine found.trans_lt (lt_findIdx_of_not lt fun k upTo => ?_)
    rw [decide_eq_true_iff, not_le]
    refine lt_of_le_of_lt ?_ less
    rcases lt_or_eq_of_le upTo with before | rfl
    · exact pairwise_iff_getElem.mp column.endpoints_sorted _ _ _ lt before
    · exact le_refl _

theorem length_endpoints : column.endpoints.length = column.numCodes := by
  rw [endpoints, length_map, length_range]

/-- The values up to an endpoint are those with at most its code. -/
theorem le_endpoint_iff {v : α} {i : Nat} (lt : i < column.numCodes) :
    v ≤ column.endpoint i ↔ column.lowerBound v ≤ i := by
  have stored {j : Nat} (inside : j < column.endpoints.length) :
      column.endpoints[j] = column.endpoint j := by
    simp [endpoints]
  rw [← length_endpoints] at lt
  constructor
  · intro le
    refine Nat.le_of_not_lt fun before => ?_
    exact absurd (stored lt ▸ le) (of_decide_eq_false (not_of_lt_findIdx before))
  · intro le
    have found := @findIdx_getElem α (fun endpoint => decide (v ≤ endpoint)) column.endpoints
      (le.trans_lt lt)
    exact (stored _ ▸ of_decide_eq_true found).trans (column.endpoint_mono le)

theorem lowerBound_le_numCodes (x : α) : column.lowerBound x ≤ column.numCodes :=
  column.length_endpoints ▸ findIdx_le_length

theorem toNat_code {v : α} (le : v ≤ column.maxData) :
    (column.code v).toNat = column.lowerBound v := by
  have found : column.lowerBound v < column.endpoints.length :=
    findIdx_lt_length_of_exists ⟨_, column.maxData_mem_endpoints, decide_eq_true le⟩
  rw [length_endpoints] at found
  rw [code, BitVec.toNat_ofNat]
  exact mod_eq_of_lt (found.trans_le (min_le_right _ _))

end CodedColumn

end AccessPath
