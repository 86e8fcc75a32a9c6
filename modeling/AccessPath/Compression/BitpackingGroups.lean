import AccessPath.Compression.Bitpacking

/-!
# What a group stands for

`GroupData.value` is the value of a row of a group. When a group is flushed its
rows have the values that were collected, for each of the ways to write it.
-/

namespace AccessPath

open Library List Function Nat

variable {t : IntegerType}

/-! ## Integers that wrap -/

section

variable (sg : Bool) (x y z : t.Value)

theorem readInt_emod : readInt sg x % 2 ^ t.bits = x.toNat := by
  have lt : (x.toNat : Int) < 2 ^ t.bits := by exact_mod_cast x.isLt
  cases sg with
  | false => exact Int.emod_eq_of_lt (Int.natCast_nonneg _) lt
  | true =>
    have read : readInt true x = BitVec.toInt x := rfl
    rw [read, BitVec.toInt_eq_toNat_bmod]
    have modulus : ((2 ^ t.bits : Nat) : Int) = 2 ^ t.bits := by push_cast; rfl
    rw [← modulus, Int.bmod_emod, modulus]
    exact Int.emod_eq_of_lt (Int.natCast_nonneg _) lt

theorem readInt_sub_lt : readInt sg x - readInt sg y < 2 ^ t.bits := by
  cases sg with
  | false =>
    have lt : (x.toNat : Int) < 2 ^ t.bits := by exact_mod_cast x.isLt
    have read (z : t.Value) : readInt false z = z.toNat := rfl
    rw [read, read]
    omega
  | true =>
    have upper := BitVec.two_mul_toInt_lt (x := x)
    have lower := BitVec.le_two_mul_toInt (x := y)
    have read (z : t.Value) : readInt true z = BitVec.toInt z := rfl
    rw [read, read]
    omega

variable {sg x y}

/-- The difference of two numbers, if it is not negative, is the difference of
the bit patterns. -/
theorem toNat_sub_of_le (ord : readInt sg y ≤ readInt sg x) :
    ((x - y).toNat : Int) = readInt sg x - readInt sg y := by
  have wrapped : ((x - y).toNat : Int) = ((x.toNat : Int) - y.toNat) % 2 ^ t.bits := by
    have lo : y.toNat ≤ 2 ^ t.bits := Nat.le_of_lt y.isLt
    rw [BitVec.toNat_sub]
    push_cast [lo]
    rw [show ((2 : Int) ^ t.bits - y.toNat + x.toNat) = x.toNat - y.toNat + 2 ^ t.bits by ring,
      Int.add_emod_right]
  rw [wrapped, ← readInt_emod sg x, ← readInt_emod sg y, ← Int.sub_emod]
  exact Int.emod_eq_of_lt (Int.sub_nonneg.mpr ord) (readInt_sub_lt sg x y)

theorem readInt_injective (eq : readInt sg x = readInt sg y) : x = y := by
  apply BitVec.eq_of_toNat_eq
  have := readInt_emod sg x
  rw [eq, readInt_emod] at this
  exact_mod_cast this.symm

theorem lowBits_sub {low high v : t.Value} (lower : readInt sg low ≤ readInt sg v)
    (upper : readInt sg v ≤ readInt sg high) :
    lowBits (minimumBitWidth t false (high - low)) (v - low) = v - low := by
  apply lowBits_of_lt
  have distance := toNat_sub_of_le lower
  have full := toNat_sub_of_le (lower.trans upper)
  have lo : (v - low).toNat ≤ (high - low).toNat := by omega
  exact Nat.lt_of_le_of_lt lo (lt_two_pow_minimumBitWidth _)

end

/-! ## The rows of a group -/

/-- The running sum of differences from an offset on. -/
def runningSum (offset : t.Value) (delta : Nat → t.Value) : Nat → t.Value
  | 0 => delta 0 + offset
  | i + 1 => delta (i + 1) + runningSum offset delta i

namespace GroupData

/-- The value of a row. -/
def value : GroupData t → Nat → t.Value
  | constant value, _ => value
  | constantDelta frame delta, i => delta * BitVec.ofNat _ i + frame
  | deltaFor frame width deltaOffset values, i =>
    runningSum deltaOffset (fun j => lowBits width (values j) + frame) i
  | frameOfReference frame width values, i => lowBits width (values i) + frame

/-- The width of a group is one of its type. -/
def WidthFits : GroupData t → Prop
  | deltaFor _ width _ _ => width ≤ t.bits
  | frameOfReference _ width _ => width ≤ t.bits
  | _ => True

end GroupData

/-- A group stands for a list of optional values. -/
structure BitpackingGroup.Encodes (group : BitpackingGroup t) (values : List (Option t.Value)) :
    Prop where
  count_eq : group.count = values.length
  value_eq : ∀ i v, values[i]? = some (some v) → group.data.value i = v
  width : group.data.WidthFits

/-- The state has collected the values. -/
structure BitpackingState.Holds (state : BitpackingState t) (values : List (Option t.Value)) :
    Prop where
  index : state.compressionBufferIdx = values.length
  buffer : ∀ i v, values[i]? = some (some v) → state.compressionBuffer i = v
  valid : state.allValid = true → ∀ value ∈ values, value ≠ none
  invalid : state.allInvalid = true → ∀ value ∈ values, value = none
  lower : ∀ v, some v ∈ values → readInt t.signed state.minimum ≤ readInt t.signed v
  upper : ∀ v, some v ∈ values → readInt t.signed v ≤ readInt t.signed state.maximum

section

variable (sg : Bool) (x y : t.Value)

theorem minValue_le : readInt sg (minValue sg x y) ≤ readInt sg x ∧
      readInt sg (minValue sg x y) ≤ readInt sg y := by
  unfold minValue
  split <;> omega

theorem le_maxValue : readInt sg x ≤ readInt sg (maxValue sg x y) ∧
      readInt sg y ≤ readInt sg (maxValue sg x y) := by
  unfold maxValue
  split <;> omega

/-- What a loop keeps of the values it has seen is on one side of all of them. -/
theorem foldl_extreme {r : Int → Int → Prop} (self : ∀ a, r a a)
    (trans : ∀ {a b c}, r a b → r b c → r a c) {pick : t.Value → t.Value → t.Value}
    (side : ∀ x y, r (readInt sg (pick x y)) (readInt sg x) ∧
      r (readInt sg (pick x y)) (readInt sg y))
    (f : Nat → t.Value) (indexes : List Nat) (lo : t.Value) :
    r (readInt sg (indexes.foldl (fun m i => pick m (f i)) lo)) (readInt sg lo) ∧
      ∀ i ∈ indexes, r (readInt sg (indexes.foldl (fun m i => pick m (f i)) lo))
        (readInt sg (f i)) := by
  induction indexes generalizing lo with
  | nil => exact ⟨self _, nofun⟩
  | cons j rest ih =>
    obtain ⟨first, ho⟩ := ih (pick lo (f j))
    obtain ⟨lh, rh⟩ := side lo (f j)
    refine ⟨trans first lh, fun i mem => ?_⟩
    rcases mem_cons.mp mem with rfl | hl
    · exact trans first rh
    · exact ho i hl

end

namespace BitpackingState

theorem holds_reset (st : BitpackingState t) : st.reset.Holds [] :=
  ⟨rfl, nofun, nofun, nofun, nofun, nofun⟩

variable {st : BitpackingState t} {vs : List (Option t.Value)}

theorem Holds.push (has : st.Holds vs) (x : Option t.Value) : (st.push x).Holds (vs ++ [x]) := by
  have he {i : Nat} {v : t.Value} (got : (vs ++ [x])[i]? = some (some v))
      (old : i ≠ vs.length) : vs[i]? = some (some v) := by
    have hb := (List.getElem?_eq_some_iff.mp got).1
    rw [length_append, length_singleton] at hb
    rwa [getElem?_append_left (by omega)] at got
  have member {v : t.Value} (mem : some v ∈ vs ++ [x]) : some v ∈ vs ∨ x = some v := by
    rcases mem_append.mp mem with old | new
    · exact .inl old
    · exact .inr (mem_singleton.mp new).symm
  have index : st.compressionBufferIdx + 1 = (vs ++ [x]).length := by
    rw [has.index, length_append, length_singleton]
  cases x with
  | none =>
    exact {
      index
      buffer := by
        intro i v got
        by_cases here : i = vs.length
        · subst here
          rw [getElem?_concat_length] at got
          exact nomatch Option.some.inj got
        · exact has.buffer i v (he got here)
      valid := nofun
      invalid := by
        intro all x mem
        rcases mem_append.mp mem with old | new
        · exact has.invalid all x old
        · exact mem_singleton.mp new
      lower := fun v mem => has.lower v ((member mem).resolve_right nofun)
      upper := fun v mem => has.upper v ((member mem).resolve_right nofun) }
  | some new =>
    exact {
      index
      buffer := by
        intro i v got
        change Function.update st.compressionBuffer st.compressionBufferIdx new i = v
        rw [has.index]
        by_cases here : i = vs.length
        · subst here
          rw [getElem?_concat_length] at got
          rw [update_self]
          exact Option.some.inj (Option.some.inj got)
        · rw [update_of_ne here]
          exact has.buffer i v (he got here)
      valid := by
        intro all x mem
        rcases mem_append.mp mem with old | new
        · exact has.valid all x old
        · rw [mem_singleton.mp new]
          exact nofun
      invalid := nofun
      lower := by
        intro v mem
        obtain ⟨lh, rh⟩ := minValue_le t.signed st.minimum new
        rcases member mem with old | eq
        · exact lh.trans (has.lower v old)
        · exact Option.some.inj eq ▸ rh
      upper := by
        intro v mem
        obtain ⟨lh, rh⟩ := le_maxValue t.signed st.maximum new
        rcases member mem with old | eq
        · exact (has.upper v old).trans lh
        · exact Option.some.inj eq ▸ rh }

/-- What `CalculateDeltaStats` has found out. -/
structure DeltaSpec (state : BitpackingState t) (stats : DeltaStats t) : Prop where
  several : 2 ≤ state.compressionBufferIdx
  valid : state.allValid = true
  first : stats.deltaBuffer 0 = stats.minimumDelta
  later : ∀ i, i + 1 < state.compressionBufferIdx →
    stats.deltaBuffer (i + 1) = state.compressionBuffer (i + 1) - state.compressionBuffer i
  lower : ∀ i, i + 1 < state.compressionBufferIdx →
    readInt true stats.minimumDelta ≤ readInt true (stats.deltaBuffer (i + 1))
  upper : ∀ i, i + 1 < state.compressionBufferIdx →
    readInt true (stats.deltaBuffer (i + 1)) ≤ readInt true stats.maximumDelta
  diff : stats.minMaxDeltaDiff = stats.maximumDelta - stats.minimumDelta
  offset : stats.deltaOffset = state.compressionBuffer 0 - stats.minimumDelta

theorem trySubtract_eq {sg : Bool} {lh rh r : t.Value} (ok : (trySubtract sg lh rh r).1 = true) :
    (trySubtract sg lh rh r).2 = lh - rh := by
  unfold trySubtract at ok ⊢
  split
  next => rfl
  next fails =>
    rw [if_neg fails] at ok
    exact absurd ok Bool.false_ne_true

theorem deltas_eq {deltas : Nat → t.Value} (got : st.deltas = some deltas) :
    deltas = fun i => st.compressionBuffer i - st.previous i := by
  unfold BitpackingState.deltas at got
  dsimp only at got
  split at got
  next => exact (Option.some.inj got).symm
  next =>
    split at got
    next => exact (Option.some.inj got).symm
    next => exact nomatch got

variable {stats : DeltaStats t}

theorem calculateDeltaStats_spec (got : st.calculateDeltaStats = some stats)
    : DeltaSpec st stats := by
  unfold calculateDeltaStats at got
  split at got
  · exact nomatch got
  split at got
  · exact nomatch got
  next several =>
    split at got
    · exact nomatch got
    next hv =>
      obtain ⟨deltas, differences, got⟩ := Option.bind_eq_some_iff.mp got
      dsimp only at got
      split at got
      next fits =>
        obtain ⟨diffFits, offsetFits⟩ := Bool.and_eq_true_iff.mp fits
        cases got
        have mem (i : Nat) (lt : i + 1 < st.compressionBufferIdx) :
            i + 1 ∈ List.range' 1 (st.compressionBufferIdx - 1) := by
          rw [mem_range'_1]
          omega
        have shifted (i : Nat) (v : t.Value) : Function.update deltas 0 v (i + 1) =
            deltas (i + 1) := update_of_ne (succ_ne_zero i) _ _
        exact {
          several := Nat.le_of_not_lt several
          valid := by simpa using hv
          first := by
            dsimp only
            rw [update_self]
          later := by
            intro i _
            dsimp only
            rw [shifted, deltas_eq differences]
            rfl
          lower := by
            intro i lt
            dsimp only
            rw [shifted]
            exact (foldl_extreme true le_refl le_trans (minValue_le true) deltas _ _).2 _ (mem i lt)
          upper := by
            intro i lt
            dsimp only
            rw [shifted]
            exact (foldl_extreme true (r := (· ≥ ·)) le_refl ge_trans
              (le_maxValue true) deltas _ _).2 _ (mem i lt)
          diff := trySubtract_eq diffFits
          offset := trySubtract_eq offsetFits }
      next => exact nomatch got

/-! ## Flushing -/

theorem runningSum_eq {offset : t.Value} {delta buf : Nat → t.Value} {n : Nat}
    (first : delta 0 + offset = buf 0)
    (late : ∀ i, i + 1 < n → delta (i + 1) = buf (i + 1) - buf i) (i : Nat) (lt : i < n) :
    runningSum offset delta i = buf i := by
  induction i with
  | zero => exact first
  | succ i ih =>
    rw [runningSum, ih (lt_of_succ_lt lt), late i lt, BitVec.sub_add_cancel]

theorem constantDelta_value (spec : DeltaSpec st stats)
    (eq : stats.maximumDelta = stats.minimumDelta) (i : Nat)
    (lt : i < st.compressionBufferIdx) :
    (GroupData.constantDelta (st.compressionBuffer 0) stats.maximumDelta).value i =
      st.compressionBuffer i := by
  induction i with
  | zero => simp [GroupData.value]
  | succ i ih =>
    have squeezed : readInt true (stats.deltaBuffer (i + 1)) = readInt true stats.maximumDelta :=
      le_antisymm (spec.upper i lt) (eq ▸ spec.lower i lt)
    have delta := readInt_injective squeezed
    have old := ih (lt_of_succ_lt lt)
    rw [spec.later i lt, BitVec.sub_eq_iff_eq_add] at delta
    rw [delta, ← old]
    simp only [GroupData.value, BitVec.ofNat_add]
    rw [BitVec.mul_add, BitVec.mul_one, BitVec.add_comm _ stats.maximumDelta, BitVec.add_assoc]

theorem deltaFor_value (spec : DeltaSpec st stats) (i : Nat) (lt : i < st.compressionBufferIdx) :
    (GroupData.deltaFor stats.minimumDelta (minimumBitWidth t false stats.minMaxDeltaDiff)
        stats.deltaOffset (subtractFrameOfReference st.compressionBufferIdx stats.deltaBuffer
          stats.minimumDelta)).value i = st.compressionBuffer i := by
  have unpacked (j : Nat) (le : j < st.compressionBufferIdx)
      (lower : readInt true stats.minimumDelta ≤ readInt true (stats.deltaBuffer j))
      (upper : readInt true (stats.deltaBuffer j) ≤ readInt true stats.maximumDelta) :
      lowBits (minimumBitWidth t false stats.minMaxDeltaDiff)
          (subtractFrameOfReference st.compressionBufferIdx stats.deltaBuffer
            stats.minimumDelta j) + stats.minimumDelta =
        stats.deltaBuffer j := by
    rw [subtractFrameOfReference, if_pos le, spec.diff, lowBits_sub lower upper,
      BitVec.sub_add_cancel]
  apply runningSum_eq _ _ i lt
  · have range := (spec.lower 0 spec.several).trans (spec.upper 0 spec.several)
    rw [unpacked 0 (zero_lt_of_lt lt) (spec.first ▸ le_refl _) (spec.first ▸ range),
      spec.first, spec.offset, BitVec.add_comm, BitVec.sub_add_cancel]
  · intro j le
    rw [unpacked (j + 1) le (spec.lower j le) (spec.upper j le), spec.later j le]

theorem frameOfReference_value (has : st.Holds vs) (i : Nat) (v : t.Value)
    (got : vs[i]? = some (some v)) : (GroupData.frameOfReference st.minimum
        (minimumBitWidth t false (st.maximum - st.minimum))
        (subtractFrameOfReference st.compressionBufferIdx st.compressionBuffer
          st.minimum)).value i = v := by
  have mem := mem_of_getElem? got
  have lt : i < st.compressionBufferIdx := by
    rw [has.index]
    exact (List.getElem?_eq_some_iff.mp got).1
  simp only [GroupData.value, subtractFrameOfReference, if_pos lt]
  rw [has.buffer i v got, lowBits_sub (has.lower v mem) (has.upper v mem), BitVec.sub_add_cancel]

theorem Holds.constant_value (has : st.Holds vs)
    (one : st.allInvalid = true ∨ st.maximum = st.minimum)
    (v : t.Value) (mem : some v ∈ vs) : st.maximum = v := by
  rcases one with none | eq
  · exact nomatch has.invalid none _ mem
  · have squeezed : readInt t.signed st.maximum = readInt t.signed v :=
      le_antisymm (eq ▸ has.lower v mem) (has.upper v mem)
    exact readInt_injective squeezed

theorem Holds.flushDelta (has : st.Holds vs) {minMaxDiff : t.Value} {data : GroupData t}
    (done : st.flushDelta minMaxDiff = some data) :
    BitpackingGroup.Encodes ⟨st.compressionBufferIdx, data⟩ vs := by
  obtain ⟨_, got, done⟩ := Option.bind_eq_some_iff.mp done
  have spec := calculateDeltaStats_spec got
  have of_buffer (data : GroupData t) (width : data.WidthFits)
      (rows : ∀ i < st.compressionBufferIdx, data.value i = st.compressionBuffer i) :
      BitpackingGroup.Encodes ⟨st.compressionBufferIdx, data⟩ vs := by
    refine ⟨has.index, ?_, width⟩
    intro i v got
    have fit := (List.getElem?_eq_some_iff.mp got).1
    rw [← has.index] at fit
    exact (rows i fit).trans (has.buffer i v got)
  split at done
  next constant =>
    cases done
    exact of_buffer _ trivial (constantDelta_value spec constant.1)
  next =>
    dsimp only at done
    split at done
    next =>
      cases done
      exact of_buffer _ (minimumBitWidth_le _) (deltaFor_value spec)
    next => exact nomatch done

/-- A group that is flushed stands for the values that were collected. -/
theorem Holds.flush (has : st.Holds vs) (some : vs ≠ []) (ok : st.flush.success = true) :
    ∃ g, st.flush.written = Option.some g ∧ g.Encodes vs := by
  have several : st.compressionBufferIdx ≠ 0 := by
    rw [has.index]
    exact mt eq_nil_of_length_eq_zero some
  unfold BitpackingState.flush at ok ⊢
  rw [if_neg several] at ok ⊢
  split
  next one =>
    refine ⟨_, rfl, has.index, ?_, trivial⟩
    intro i v got
    exact has.constant_value one.1 v (mem_of_getElem? got)
  next general =>
    rw [if_neg general] at ok
    dsimp only at ok ⊢
    split
    next data hfl => exact ⟨_, rfl, has.flushDelta hfl⟩
    next hno =>
      rw [hno] at ok
      split
      next fits =>
        refine ⟨_, rfl, has.index, ?_, minimumBitWidth_le _⟩
        have diff : st.calculateFORStats.2 = st.maximum - st.minimum := trySubtract_eq fits
        rw [diff]
        exact frameOfReference_value has
      next fails =>
        rw [if_neg fails] at ok
        exact nomatch ok

theorem flush_of_failed (ne : st.flush.success ≠ true) : st.flush.written = none := by
  revert ne
  unfold BitpackingState.flush
  dsimp only
  repeat' split
  all_goals intro ne
  all_goals first | rfl | exact absurd rfl ne

theorem flush_of_empty (emp : st.compressionBufferIdx = 0) :
    st.flush = ⟨true, none, st⟩ := if_pos emp

end BitpackingState

end AccessPath
