import AccessPath.Compression.BitpackingBlocks

/-!
# Reading back a column

A scan stands in a group of its block. Each round of the scan gives some of the
rows of the group that it stands in, and skipping rows gives the state that
scanning them would.
-/

namespace AccessPath

open Library BitpackingGroup BitpackingScanState List Option Nat

variable {n offset rem r : Nat} {t : IntegerType}

/-! ## Loading a group -/

theorem drop_add_of_drop {b pre xs : Bytes} (eq : b.drop offset = pre ++ xs) :
    b.drop (offset + pre.length) = xs := by
  rw [← drop_drop, eq, drop_left]

theorem loadValue_of_drop {b xs : Bytes} {v : t.Value}
    (eq : b.drop offset = putValue v ++ xs) : loadValue b offset = some v := by
  have fits : v.toNat < 256 ^ t.bytes := by
    have power : 2 ^ t.bits = 256 ^ t.bytes := pow_mul 2 8 t.bytes
    rw [← power]
    exact v.isLt
  rw [loadValue, loadWord, eq, putValue, getWord_putWord fits, map_some,
    map_some, BitVec.ofNat_toNat, BitVec.setWidth_eq]

section

variable (kernels : PackKernels t) (temporary : Nat → t.Value)

/-- The state has loaded a group. With differences it knows the row before. -/
def Loaded (block : Bytes) (group : BitpackingGroup t) (s : BitpackingScanState t) : Prop :=
  s.mode = group.data.mode ∧
  match group.data with
  | .constant value => s.constant = value
  | .constantDelta frame delta => s.frameOfReference = frame ∧ s.constant = delta
  | .frameOfReference frame width values =>
    s.frameOfReference = frame ∧ s.width = width ∧ ∃ rest, block.drop s.groupPtr =
        kernels.packBuffer temporary values group.count width ++ rest
  | .deltaFor frame width deltaOffset values =>
    (s.frameOfReference = frame ∧ s.width = width ∧ ∃ rest, block.drop s.groupPtr =
        kernels.packBuffer temporary values group.count width ++ rest) ∧
    s.deltaOffset = if s.groupOffset = 0 then deltaOffset else group.data.value (s.groupOffset - 1)

/-- The state stands in the `k`-th group of a block. -/
structure StandsIn (block : Bytes) (groups : List (BitpackingGroup t)) (top k : Nat)
    (group : BitpackingGroup t) (s : BitpackingScanState t) : Prop where
  found : groups[k]? = some group
  width : group.data.WidthFits
  loaded : Loaded kernels temporary block group s
  offset_le : s.groupOffset ≤ group.count
  next : s.metadataPtr = top - encodedMetadataSize * (k + 2)

variable {kernels temporary} {b : Bytes} {gs : List (BitpackingGroup t)} {top k : Nat}
  {group : BitpackingGroup t} {s : BitpackingScanState t}

theorem toNat_width {w : Nat} (fits : w ≤ t.bits) : (BitVec.ofNat t.bits w).toNat % 256 = w := by
  have le : t.bits ≤ 128 := by
    unfold IntegerType.bits IntegerType.bytes
    cases t.width <;> decide
  rw [BitVec.toNat_ofNat, mod_eq_of_lt (fits.trans_lt Nat.lt_two_pow_self)]
  exact mod_eq_of_lt (by omega)

/-- The start of a group is read back, and the packed values follow it. -/
theorem loadGroup_spec {md : BitpackingMetadata} {xs : Bytes}
    (mode : md.mode = group.data.mode) (w : group.data.WidthFits)
    (data : b.drop md.offset = group.bytes kernels temporary ++ xs) :
    ∃ s', s.loadGroup b md = some s' ∧ s'.groupOffset = 0 ∧
      s'.metadataPtr = s.metadataPtr ∧ Loaded kernels temporary b group s' := by
  obtain ⟨_, _⟩ := md
  obtain ⟨_, group⟩ := group
  subst mode
  unfold bytes at data
  unfold loadGroup
  have aft {o : Nat} {v : t.Value} {xs : Bytes}
      (eq : b.drop o = putValue v ++ xs) : b.drop (o + t.bytes) = xs := by
    have := drop_add_of_drop eq
    rwa [length_putValue] at this
  cases group with
  | constant v =>
    rw [loadValue_of_drop data]
    exact ⟨_, rfl, rfl, rfl, rfl, rfl⟩
  | constantDelta frame delta =>
    rw [GroupData.encode, append_assoc] at data
    rw [loadValue_of_drop data, loadValue_of_drop (aft data)]
    exact ⟨_, rfl, rfl, rfl, rfl, rfl, rfl⟩
  | frameOfReference frame w' vs =>
    rw [GroupData.encode, append_assoc, append_assoc] at data
    rw [loadValue_of_drop data, loadValue_of_drop (aft data)]
    exact ⟨_, rfl, rfl, rfl, rfl, rfl, toNat_width w, xs, aft (aft data)⟩
  | deltaFor frame w' deltaOffset vs =>
    rw [GroupData.encode, append_assoc, append_assoc, append_assoc] at data
    rw [loadValue_of_drop data, loadValue_of_drop (aft data), loadValue_of_drop (aft (aft data))]
    exact ⟨_, rfl, rfl, rfl, rfl, ⟨rfl, toNat_width w, xs, aft (aft (aft data))⟩, rfl⟩

theorem Laid.loadNextGroup (laid : Laid kernels temporary b gs top)
    (got : gs[k]? = some group) (w : group.data.WidthFits)
    (ptr : s.metadataPtr = top - encodedMetadataSize * (k + 1)) :
    ∃ s', s.loadNextGroup b = some s' ∧ s'.groupOffset = 0 ∧
      StandsIn kernels temporary b gs top k group s' := by
  obtain ⟨_, hld, mode, xs, data⟩ := laid.found k group got
  have next : s.metadataPtr - encodedMetadataSize = top - encodedMetadataSize * (k + 2) := by
    rw [ptr, Nat.sub_sub, ← mul_succ]
  obtain ⟨s', done, lo, ptr', hld'⟩ := @loadGroup_spec t kernels temporary b group
      { s with metadataPtr := s.metadataPtr - encodedMetadataSize } _ xs mode w data
  refine ⟨s', ?_, lo, got, w, hld', lo ▸ zero_le _, ptr'.trans next⟩
  unfold BitpackingScanState.loadNextGroup
  rw [ptr, hld, ← ptr]
  exact done

/-! ## Decoding rows -/

theorem applyFrameOfReference_eq (vs : List t.Value) (frame : t.Value) :
    applyFrameOfReference vs frame = vs.map (· + frame) := by
  unfold applyFrameOfReference
  split
  next zero =>
    rw [zero]
    simp
  next => rfl

theorem unpack_eq {vs : Nat → t.Value} {count n : Nat} {xs : Bytes} (fits : s.width ≤ t.bits)
    (eq : b.drop s.groupPtr = kernels.packBuffer temporary vs count s.width ++ xs)
    (within : n ≤ algorithmGroupSize - s.groupOffset % algorithmGroupSize)
    (le : s.groupOffset + n ≤ count) :
    s.unpack kernels b n = (range n).map fun i => lowBits s.width (vs (s.groupOffset + i)) := by
  apply map_congr_left
  intro i mem
  have hb := mem_range.mp mem
  have lo : s.groupPtr + s.groupOffset * s.width / 8 -
      s.groupOffset % algorithmGroupSize * s.width / 8 =
        s.groupPtr + 4 * s.width * (s.groupOffset / algorithmGroupSize) := by
    have split : s.groupOffset * s.width =
        8 * (4 * s.width * (s.groupOffset / algorithmGroupSize)) +
          s.groupOffset % algorithmGroupSize * s.width := by
      conv_lhs => rw [← div_add_mod s.groupOffset algorithmGroupSize]
      unfold algorithmGroupSize
      ring
    have eight : 0 < 8 := by decide
    rw [split, mul_add_div eight]
    omega
  have r : algorithmGroupSize * (s.groupOffset / algorithmGroupSize) +
      (s.groupOffset % algorithmGroupSize + i) = s.groupOffset + i := by
    rw [← add_assoc, div_add_mod]
  rw [lo, ← drop_drop, eq, kernels.unpack_packBuffer fits, r]
  · unfold algorithmGroupSize at *
    omega
  · rw [r]
    omega

theorem deltaDecode_eq (off : t.Value) (delta : Nat → t.Value) (lo n : Nat) :
    deltaDecode (if lo = 0 then off else runningSum off delta (lo - 1))
        ((range n).map fun i => delta (lo + i)) =
      (range n).map fun i => runningSum off delta (lo + i) := by
  induction n generalizing lo with
  | zero => rfl
  | succ n ih =>
    have first : delta lo + (if lo = 0 then off else runningSum off delta (lo - 1)) =
        runningSum off delta lo := by
      cases lo with
      | zero => rfl
      | succ lo => rfl
    have hl := ih (lo + 1)
    rw [if_neg (succ_ne_zero lo), Nat.add_sub_cancel] at hl
    rw [range_succ_eq_map, map_cons, map_cons, List.map_map, List.map_map,
      deltaDecode, add_zero, first]
    congr 1
    have shift (f : Nat → t.Value) : ((fun i => f (lo + i)) ∘ succ) = fun i => f (lo + 1 + i) := by
      funext i
      exact congrArg f (add_right_comm lo i 1)
    rw [shift, shift]
    exact hl

/-- Some rows of a group. -/
def BitpackingGroup.rows (group : BitpackingGroup t) (start n : Nat) : List t.Value :=
  (range n).map fun i => group.data.value (start + i)

@[simp] theorem BitpackingGroup.length_rows (lo n : Nat) : (group.rows lo n).length = n := by
  simp [rows]

theorem BitpackingGroup.getLastD_rows (lo n : Nat) (default : t.Value) :
    (group.rows lo (n + 1)).getLastD default = group.data.value (lo + n) := by
  simp [rows, range_succ]

/-- A step within a group. -/
structure Advances (kernels : PackKernels t) (temporary : Nat → t.Value) (block : Bytes)
    (groups : List (BitpackingGroup t)) (top k : Nat) (group : BitpackingGroup t)
    (s s' : BitpackingScanState t) (n : Nat) : Prop where
  stands : StandsIn kernels temporary block groups top k group s'
  offset : s'.groupOffset = s.groupOffset + n

theorem StandsIn.takeDeltas (ok : StandsIn kernels temporary b gs top k group s)
    (mode : s.mode = .deltaFor) (pos : 0 < n)
    (within : n ≤ algorithmGroupSize - s.groupOffset % algorithmGroupSize)
    (le : s.groupOffset + n ≤ group.count) :
    (s.takeDeltas kernels b n).1 = group.rows s.groupOffset n ∧
      Advances kernels temporary b gs top k group s (s.takeDeltas kernels b n).2 n := by
  obtain ⟨eq, hld⟩ := ok.loaded
  obtain ⟨count, data⟩ := group
  rw [mode] at eq
  cases data with
  | constant v => exact nomatch eq
  | constantDelta frame delta => exact nomatch eq
  | frameOfReference frame w vs => exact nomatch eq
  | deltaFor frame w deltaOffset vs =>
    obtain ⟨⟨frame_eq, width_eq, xs, hp⟩, old⟩ := hld
    have rows : (s.takeDeltas kernels b n).1 =
        rows ⟨count, .deltaFor frame w deltaOffset vs⟩ s.groupOffset n := by
      have fits : s.width ≤ t.bits := width_eq ▸ ok.width
      have unpacked := unpack_eq fits (width_eq ▸ hp) within le
      unfold takeDeltas
      rw [applyFrameOfReference_eq, unpacked, List.map_map, old, frame_eq, width_eq]
      exact deltaDecode_eq deltaOffset (fun j => lowBits w (vs j) + frame) _ _
    refine ⟨rows, ⟨ok.found, ok.width, ⟨mode, ⟨frame_eq, width_eq, xs, hp⟩, ?_⟩, le, ok.next⟩, rfl⟩
    obtain ⟨m, rfl⟩ := exists_eq_add_one_of_ne_zero (ne_of_gt pos)
    have last : (s.takeDeltas kernels b (m + 1)).2.deltaOffset =
        (s.takeDeltas kernels b (m + 1)).1.getLastD s.deltaOffset := rfl
    rw [last, rows, getLastD_rows]
    exact (if_neg (succ_ne_zero _)).symm

theorem StandsIn.move (pos : StandsIn kernels temporary b gs top k group s)
    (mode : s.mode ≠ .deltaFor) (le : s.groupOffset + n ≤ group.count) :
    Advances kernels temporary b gs top k group s
      { s with groupOffset := s.groupOffset + n } n := by
  refine ⟨⟨pos.found, pos.width, ?_, le, pos.next⟩, rfl⟩
  obtain ⟨eq, hld⟩ := pos.loaded
  obtain ⟨_, data⟩ := group
  cases data with
  | constant v => exact ⟨eq, hld⟩
  | constantDelta frame delta => exact ⟨eq, hld⟩
  | frameOfReference frame w vs => exact ⟨eq, hld⟩
  | deltaFor frame w deltaOffset vs => exact absurd eq mode

/-- The number of rows that a round gives. -/
def roundSize (s : BitpackingScanState t) (remaining : Nat) : Nat :=
  match s.mode with
  | .constant | .constantDelta => min remaining (metadataGroupSize - s.groupOffset)
  | _ => min remaining (algorithmGroupSize - s.groupOffset % algorithmGroupSize)

theorem roundSize_bounds (some : 0 < rem) (room : s.groupOffset < metadataGroupSize) :
    0 < roundSize s rem ∧ roundSize s rem ≤ rem ∧
      s.groupOffset + roundSize s rem ≤ metadataGroupSize := by
  have size : metadataGroupSize = 2048 := rfl
  unfold roundSize algorithmGroupSize at *
  split <;> omega

theorem StandsIn.scanRound (pos : StandsIn kernels temporary b gs top k group s)
    (some : 0 < rem) (room : s.groupOffset < metadataGroupSize)
    (le : s.groupOffset + roundSize s rem ≤ group.count) : ∃ s', s.scanRound kernels b rem =
        Option.some (group.rows s.groupOffset (roundSize s rem), s') ∧
      Advances kernels temporary b gs top k group s s' (roundSize s rem) := by
  have bounds := roundSize_bounds some room
  have hld := pos.loaded
  obtain ⟨count, data⟩ := group
  obtain ⟨mode, w', frame', constant', deltaOffset', offset, ptr, md⟩ := s
  cases data with
  | constant v =>
    obtain ⟨rfl, rfl⟩ : mode = .constant ∧ constant' = v := hld
    have other : BitpackingMode.constant ≠ .deltaFor := by decide
    refine ⟨_, ?_, pos.move (fun eq => absurd eq other) le⟩
    simp [scanRound, roundSize, rows, GroupData.value, map_const']
  | constantDelta frame delta =>
    obtain ⟨rfl, rfl, rfl⟩ : mode = .constantDelta ∧ frame' = frame ∧ constant' = delta := hld
    have other : BitpackingMode.constantDelta ≠ .deltaFor := by decide
    exact ⟨_, rfl, pos.move (fun eq => absurd eq other) le⟩
  | frameOfReference frame w vs =>
    obtain ⟨rfl, rfl, rfl, xs, hp⟩ : mode = .frameOfReference ∧ frame' = frame ∧
      w' = w ∧ ∃ xs, b.drop ptr = kernels.packBuffer temporary vs count w ++ xs := hld
    have unpacked := @unpack_eq t kernels temporary b
      ⟨.frameOfReference, w', frame', constant', deltaOffset', offset, ptr, md⟩
      vs count _ xs pos.width hp (min_le_right _ _) le
    have other : BitpackingMode.frameOfReference ≠ .deltaFor := by decide
    refine ⟨_, ?_, pos.move (fun eq => absurd eq other) le⟩
    rw [scanRound]
    rw [unpacked, applyFrameOfReference_eq, List.map_map]
    rfl
  | deltaFor frame w deltaOffset vs =>
    obtain rfl : mode = .deltaFor := hld.1
    obtain ⟨rows, advances⟩ := pos.takeDeltas rfl bounds.1 (min_le_right _ _) le
    exact ⟨_, congrArg Option.some (Prod.ext rows rfl), advances⟩

/-! ## The rows of a segment -/

/-- The rows of the groups, group by group. -/
def groupRows (groups : List (BitpackingGroup t)) : List (List t.Value) :=
  groups.map fun group => group.rows 0 group.count

variable (kernels temporary)

/-- A block with groups that all but the last are full. -/
structure Readable (block : Bytes) (groups : List (BitpackingGroup t)) (top : Nat) : Prop where
  laid : Laid kernels temporary block groups top
  packed : Packed metadataGroupSize (groupRows groups)
  width : ∀ group ∈ groups, group.data.WidthFits

/-- The state stands before a row of the segment. -/
def StandsAt (block : Bytes) (groups : List (BitpackingGroup t)) (top row : Nat)
    (s : BitpackingScanState t) : Prop :=
  ∃ k group, StandsIn kernels temporary block groups top k group s ∧
    metadataGroupSize * k + s.groupOffset = row

variable {kernels temporary}

theorem BitpackingGroup.drop_rows (lo n m : Nat) :
    (group.rows lo n).drop m = group.rows (lo + m) (n - m) := by
  apply ext_getElem
  · simp
  · intro i _ _
    simp [rows, add_assoc]

theorem BitpackingGroup.take_rows (lo : Nat) {m : Nat} (less : m ≤ n) :
    (group.rows lo n).take m = group.rows lo m := by
  apply ext_getElem
  · simpa using less
  · intro i _ _
    simp [rows]

namespace Readable

variable (read : Readable kernels temporary b gs top)

include read

section

variable (found : gs[k]? = some group)
include found

theorem count_bounds : 0 < group.count ∧ group.count ≤ metadataGroupSize := by
  have mem : group.rows 0 group.count ∈ groupRows gs :=
    List.mem_map.mpr ⟨group, mem_of_getElem? found, rfl⟩
  have bounds := read.packed.length_le metadataGroupSize_pos mem
  rwa [length_rows] at bounds

theorem count_eq (more : k + 1 < gs.length) : group.count = metadataGroupSize := by
  have got : (groupRows gs)[k]? = some (group.rows 0 group.count) := by
    rw [groupRows, getElem?_map, found, map_some]
  have full := read.packed.length_eq got (by rwa [groupRows, length_map])
  rwa [length_rows] at full

theorem drop_rows (le : offset ≤ group.count) :
    (groupRows gs).flatten.drop (metadataGroupSize * k + offset) =
      group.rows offset (group.count - offset) ++ (groupRows (gs.drop (k + 1))).flatten := by
  have got : (groupRows gs)[k]? = some (group.rows 0 group.count) := by
    rw [groupRows, getElem?_map, found, map_some]
  rw [← drop_drop, read.packed.drop_flatten got, drop_append_of_le_length,
    BitpackingGroup.drop_rows, zero_add, groupRows, groupRows, map_drop]
  rwa [length_rows]

theorem length_rows : (groupRows gs).flatten.length = metadataGroupSize * k + group.count +
      (groupRows (gs.drop (k + 1))).flatten.length := by
  have rows := congrArg List.length (read.drop_rows found (zero_le _))
  rw [length_drop, length_append, BitpackingGroup.length_rows] at rows
  have bounds := read.count_bounds found
  omega

theorem length_rows_last (last : ¬ k + 1 < gs.length) :
    (groupRows gs).flatten.length = metadataGroupSize * k + group.count := by
  rw [read.length_rows found, drop_eq_nil_of_le (Nat.le_of_not_lt last)]
  rfl

end

theorem enter (stands : StandsAt kernels temporary b gs top r s)
    (lt : r < (groupRows gs).flatten.length) : ∃ s' k group,
      s.enterGroup b = some s' ∧ StandsIn kernels temporary b gs top k group s' ∧
      metadataGroupSize * k + s'.groupOffset = r ∧ s'.groupOffset < group.count := by
  obtain ⟨k, group, hst, position⟩ := stands
  have bounds := read.count_bounds hst.found
  have offset := hst.offset_le
  by_cases exhausted : s.groupOffset = metadataGroupSize
  · have more : k + 1 < gs.length := by
      by_contra last
      have tot := read.length_rows_last hst.found last
      omega
    have got := getElem?_eq_getElem more
    obtain ⟨s', hld, lo, hst'⟩ := read.laid.loadNextGroup got
      (read.width _ (mem_of_getElem? got)) hst.next
    have pos := (read.count_bounds got).1
    refine ⟨s', k + 1, _, ?_, hst', ?_, lo ▸ pos⟩
    · rw [enterGroup, if_pos exhausted, hld]
    · rw [lo, ← position, exhausted, mul_succ]
      rfl
  · refine ⟨s, k, group, if_neg exhausted, hst, position, ?_⟩
    by_contra done
    have hsh : group.count ≠ metadataGroupSize := by omega
    have tot := read.length_rows_last hst.found fun more => hsh (read.count_eq hst.found more)
    omega

theorem le_count (got : gs[k]? = some group) (few : n ≤ metadataGroupSize)
    (le : metadataGroupSize * k + n ≤ (groupRows gs).flatten.length) : n ≤ group.count := by
  by_cases more : k + 1 < gs.length
  · rwa [read.count_eq got more]
  · rw [read.length_rows_last got more] at le
    omega

theorem group_of_row (lt : r < (groupRows gs).flatten.length) :
    ∃ group, gs[r / metadataGroupSize]? = some group := by
  have nonempty : 0 < gs.length := by
    apply length_pos_iff.mpr
    intro emp
    rw [emp] at lt
    exact absurd lt (not_lt_zero _)
  have last : gs.length - 1 < gs.length := sub_one_lt_of_lt nonempty
  have got := getElem?_eq_getElem last
  have tot := read.length_rows_last got (by omega)
  have bounds := read.count_bounds got
  have within : r / metadataGroupSize < gs.length := by
    rw [div_lt_iff_lt_mul metadataGroupSize_pos]
    have all : gs.length = gs.length - 1 + 1 := by omega
    rw [all, mul_comm, mul_succ]
    omega
  exact ⟨_, getElem?_eq_getElem within⟩

theorem roundSize_le (got : gs[k]? = some group) (some : 0 < rem)
    (le : metadataGroupSize * k + s.groupOffset + rem ≤ (groupRows gs).flatten.length)
    (room : s.groupOffset < group.count) : s.groupOffset + roundSize s rem ≤ group.count := by
  have bounds := read.count_bounds got
  have size := roundSize_bounds some (room.trans_le bounds.2)
  exact read.le_count got size.2.2 (by omega)

theorem scanPartial {fuel : Nat} (enough : n ≤ fuel) (ok : StandsAt kernels temporary b gs top r s)
    (le : r + n ≤ (groupRows gs).flatten.length) : ∃ s', s.scanPartial kernels b fuel n =
        some (((groupRows gs).flatten.drop r).take n, s') ∧
      StandsAt kernels temporary b gs top (r + n) s' := by
  induction fuel generalizing n r s with
  | zero =>
    obtain rfl := le_zero.mp enough
    exact ⟨s, rfl, ok⟩
  | succ fuel ih =>
    cases n with
    | zero => exact ⟨s, rfl, ok⟩
    | succ n =>
      obtain ⟨s₁, k, group, entered, hst, pos, room⟩ := read.enter ok (by omega)
      have hsm := room.trans_le (read.count_bounds hst.found).2
      have size := roundSize_bounds (succ_pos n) hsm
      have within := read.roundSize_le hst.found (succ_pos n) (pos ▸ le) room
      obtain ⟨s₂, given, advanced⟩ := hst.scanRound (succ_pos n) hsm within
      have stands₂ : StandsAt kernels temporary b gs top (r + roundSize s₁ (n + 1)) s₂ := by
        refine ⟨k, group, advanced.stands, ?_⟩
        rw [advanced.offset, ← pos, add_assoc]
      generalize roundSize s₁ (n + 1) = m at *
      obtain ⟨s₃, xs, stands₃⟩ := ih (by omega) stands₂ (show r + m + (n + 1 - m) ≤ _ by omega)
      refine ⟨s₃, ?_, ?_⟩
      · have rows : ((groupRows gs).flatten.drop r).take m = group.rows s₁.groupOffset m := by
          rw [← pos, read.drop_rows hst.found room.le, take_append_of_le_length, take_rows]
          · omega
          · rw [BitpackingGroup.length_rows]
            omega
        have hwh (l : List t.Value) : l.take (n + 1) = l.take m ++ (l.drop m).take (n + 1 - m) := by
          rw [← take_add, Nat.add_sub_cancel' size.2.1]
        rw [scanPartial, entered, bind_eq_bind, bind_some, given, bind_eq_bind, bind_some]
        dsimp only
        rw [BitpackingGroup.length_rows, xs, bind_some, ← rows, hwh, drop_drop]
      · have finish : r + m + (n + 1 - m) = r + (n + 1) := by omega
        exact finish ▸ stands₃

theorem skipGroups (stands : StandsAt kernels temporary b gs top r s)
    (lt : r + n < (groupRows gs).flatten.length) : ∃ m s' k group, s.skipGroups b n = some (m, s') ∧
      StandsIn kernels temporary b gs top k group s' ∧
      metadataGroupSize * k + (s'.groupOffset + m) = r + n ∧
      s'.groupOffset + m ≤ group.count ∧ s'.groupOffset + m < metadataGroupSize := by
  obtain ⟨k, group, hst, pos⟩ := stands
  have offset : s.groupOffset ≤ metadataGroupSize :=
    hst.offset_le.trans (read.count_bounds hst.found).2
  unfold BitpackingScanState.skipGroups
  have number : (r + n) / metadataGroupSize = k + (n + s.groupOffset) / metadataGroupSize := by
    rw [← pos, ← mul_add_div metadataGroupSize_pos]
    congr 1
    omega
  have full := div_add_mod (n + s.groupOffset) metadataGroupSize
  have xs := mod_lt (n + s.groupOffset) metadataGroupSize_pos
  obtain ⟨group', got⟩ := read.group_of_row lt
  rw [number] at got
  generalize (n + s.groupOffset) / metadataGroupSize = skipped at *
  cases skipped with
  | zero =>
    have arrived : metadataGroupSize * k + (s.groupOffset + n) = r + n := by omega
    refine ⟨n, s, k, group, rfl, hst, arrived, ?_, by omega⟩
    exact read.le_count hst.found (by omega) (by omega)
  | succ skipped =>
    have ptr : s.metadataPtr - (skipped + 1 - 1) * encodedMetadataSize =
        top - encodedMetadataSize * (k + (skipped + 1) + 1) := by
      rw [hst.next, Nat.sub_sub]
      unfold encodedMetadataSize
      omega
    obtain ⟨s', hld, lo, hst'⟩ := @Laid.loadNextGroup t kernels temporary b gs
      top _ group' { s with metadataPtr := s.metadataPtr -
        (skipped + 1 - 1) * encodedMetadataSize } read.laid got
      (read.width _ (mem_of_getElem? got)) ptr
    rw [if_neg (succ_ne_zero skipped), hld]
    have left : n - (metadataGroupSize - s.groupOffset + (skipped + 1 - 1) * metadataGroupSize) =
        (n + s.groupOffset) % metadataGroupSize := by
      rw [mul_succ] at full
      rw [Nat.add_sub_cancel, mul_comm]
      omega
    have arrived : metadataGroupSize * (k + (skipped + 1)) +
        (n + s.groupOffset) % metadataGroupSize = r + n := by
      rw [mul_add]
      omega
    refine ⟨_, s', _, group', rfl, hst', ?_, ?_⟩
    · rw [lo, zero_add, left, arrived]
    · rw [lo, zero_add, left]
      exact ⟨read.le_count got xs.le (by omega), xs⟩

omit read in
/-- Differences are decoded until the row that is skipped to. -/
theorem skipDeltas {fuel : Nat} (enough : n ≤ fuel)
    (stands : StandsIn kernels temporary b gs top k group s) (mode : s.mode = .deltaFor)
    (le : s.groupOffset + n ≤ group.count) : ∃ s', s.skipDeltas kernels b fuel n = some s' ∧
      Advances kernels temporary b gs top k group s s' n := by
  induction fuel generalizing n s with
  | zero =>
    obtain rfl := le_zero.mp enough
    exact ⟨s, rfl, stands, rfl⟩
  | succ fuel ih =>
    cases n with
    | zero => exact ⟨s, rfl, stands, rfl⟩
    | succ n =>
      have offset := mod_lt s.groupOffset algorithmGroupSize_pos
      have size : 0 < min (n + 1) (algorithmGroupSize - s.groupOffset % algorithmGroupSize) ∧
          min (n + 1) (algorithmGroupSize - s.groupOffset % algorithmGroupSize) ≤ n + 1 := by
        omega
      have ht := (stands.takeDeltas mode size.1 (min_le_right _ _)
        (by omega : s.groupOffset + min (n + 1) _ ≤ group.count)).2
      have mode' : (s.takeDeltas kernels b
          (min (n + 1) (algorithmGroupSize - s.groupOffset % algorithmGroupSize))).2.mode =
            .deltaFor := mode
      rw [skipDeltas]
      generalize min (n + 1) (algorithmGroupSize - s.groupOffset % algorithmGroupSize) = m at *
      obtain ⟨s', done, advanced⟩ := ih (n := n + 1 - m) (by omega) ht.stands mode'
        (by rw [ht.offset]; omega)
      refine ⟨s', done, advanced.stands, ?_⟩
      rw [advanced.offset, ht.offset]
      omega

theorem skip (stands : StandsAt kernels temporary b gs top r s)
    (lt : r + n < (groupRows gs).flatten.length) : ∃ s', s.skip kernels b n = some s' ∧
      StandsAt kernels temporary b gs top (r + n) s' ∧ s'.groupOffset < metadataGroupSize := by
  obtain ⟨m, s₁, k, group, reached, hst, pos, within, hsm⟩ := read.skipGroups stands lt
  have arrive {s' : BitpackingScanState t}
      (advanced : Advances kernels temporary b gs top k group s₁ s' m) :
      StandsAt kernels temporary b gs top (r + n) s' ∧ s'.groupOffset < metadataGroupSize :=
    ⟨⟨k, group, advanced.stands, by rw [advanced.offset, pos]⟩, advanced.offset ▸ hsm⟩
  rw [BitpackingScanState.skip, reached, bind_eq_bind, bind_some]
  dsimp only
  split
  next mode => exact ⟨_, rfl, arrive (hst.move (mode ▸ nofun) within)⟩
  next mode => exact ⟨_, rfl, arrive (hst.move (mode ▸ nofun) within)⟩
  next mode => exact ⟨_, rfl, arrive (hst.move (mode ▸ nofun) within)⟩
  next constant constantDelta frameOfReference =>
    have mode : s₁.mode = .deltaFor := by
      rw [hst.loaded.1] at *
      cases data : group.data with
      | constant v => exact absurd (data ▸ rfl) constant
      | constantDelta frame delta => exact absurd (data ▸ rfl) constantDelta
      | frameOfReference frame w vs => exact absurd (data ▸ rfl) frameOfReference
      | deltaFor frame w deltaOffset vs => rfl
    obtain ⟨s₂, done, advanced⟩ := skipDeltas le_rfl hst mode within
    exact ⟨s₂, done, arrive advanced⟩

end Readable

end

end AccessPath
