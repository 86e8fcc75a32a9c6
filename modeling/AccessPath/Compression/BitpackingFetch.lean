import AccessPath.Compression.BitpackingRoundTrip

/-!
# Blocks and single rows of bitpacked columns

Data and metadata of a block never meet. `BitpackingFetchRow` skips to one row
and decodes it by itself. In a group with a constant difference it casts the position to the
type of the column; where the cast fails the factor is left uninitialized.
-/

namespace AccessPath

open Library BitpackingGroup List Option Nat

variable {t : IntegerType} {ks : PackKernels t} {tmp : Nat → t.Value}

/-! ## Space in a block -/

/-- The groups of any data, accepted or not, stand for pieces of it. -/
theorem exists_encodes (mode : BitpackingMode) (buf : Nat → t.Value)
    (vs : List (Option t.Value)) : ∃ chunks, Packed metadataGroupSize chunks ∧
      List.Forall₂ Encodes ((BitpackingState.new mode buf).written vs) chunks := by
  have hh : (BitpackingState.new mode buf).Holds [] := BitpackingState.holds_reset _
  obtain ⟨chunks, -, hp, encodes⟩ := hh.written metadataGroupSize_pos
  exact ⟨chunks, hp, encodes⟩

/-- Data and metadata do not overlap. -/
def OpenSegment.Apart (segment : OpenSegment) : Prop := segment.dataOffset ≤ segment.metadataOffset

theorem OpenSegment.Room.apart {seg : OpenSegment} (room : seg.Room) : seg.Apart := by
  unfold OpenSegment.Room at room
  unfold OpenSegment.Apart OpenSegment.metadataOffset
  omega

theorem BitpackingWriter.Holds.append {s : BitpackingCompressState t} {ps : List _}
    {gs : List _} (has : s.writer.Holds ks tmp ps gs)
    {vs : List (Option t.Value)} (few : ∀ grp ∈ s.state.written vs, grp.Small) :
    ∃ s' writer, s.append ks tmp vs = some s' ∧ s'.writer.current.Apart ∧
      s'.writer.writeAny ks tmp s'.state.flush.written = some writer ∧ writer.current.Apart := by
  induction vs generalizing s ps gs with
  | nil =>
    obtain ⟨writer, _, _, done, hh', -⟩ := has.foldlM s.state.flush.written.toList few
    rw [← BitpackingWriter.writeAny_eq] at done
    exact ⟨s, writer, rfl, has.room.apart, done, hh'.room.apart⟩
  | cons v vs ih =>
    rw [BitpackingState.written, forall_mem_append] at few
    obtain ⟨writer, _, _, done, hh', -⟩ := has.foldlM (s.state.update v).written.toList few.1
    rw [← BitpackingWriter.writeAny_eq] at done
    obtain ⟨s', writer', appended, rest⟩ := @ih ⟨_, writer⟩ _ _ hh' few.2
    refine ⟨s', writer', ?_, rest⟩
    rw [BitpackingCompressState.append, done]
    exact appended

theorem Flushed.length_block_le {seg : BitpackingSegment} {gs : List (BitpackingGroup t)}
    (done : Flushed ks tmp seg gs) : seg.block.length ≤ blockSize := by
  have room := done.room
  have sto := done.flushed
  unfold OpenSegment.flushSegment at sto
  rw [if_pos room.canStore_zero] at sto
  cases sto
  unfold OpenSegment.Room at room
  have each (md : BitpackingMetadata) : md.encode.length = encodedMetadataSize :=
    length_putWord _ _
  simp only [length_append, length_putWord, length_replicate, length_flatMap_pieces each,
    length_reverse]
  have aligned : alignValue (OpenSegment.ofGroups ks tmp gs).dataOffset <
      (OpenSegment.ofGroups ks tmp gs).dataOffset + 8 := by
    unfold alignValue
    omega
  have data : (OpenSegment.ofGroups ks tmp gs).dataOffset =
    bitpackingHeaderSize + (OpenSegment.ofGroups ks tmp gs).data.length := rfl
  omega

/-- While a column is compressed, data and metadata do not overlap in the current block.
What is flushed fits into a block, in which the metadata of each group leads to its data. -/
theorem bitpackingCompress_laid (kernels : PackKernels t) (temporary : Nat → t.Value)
    (mode : BitpackingMode) (buffer : Nat → t.Value) (values : List (Option t.Value)) :
    (∃ s writer, BitpackingCompressState.append kernels temporary
        ⟨.new mode buffer, ⟨.empty, []⟩⟩ values = some s ∧ s.writer.current.Apart ∧
      s.writer.writeAny kernels temporary s.state.flush.written = some writer ∧
      writer.current.Apart) ∧
    ∃ segments parts, bitpackingCompress kernels temporary mode buffer values = some segments ∧
      parts.flatten = (BitpackingState.new mode buffer).written values ∧
      List.Forall₂ (fun segment groups => segment.block.length ≤ blockSize ∧
        ∃ top, Laid kernels temporary segment.block groups top) segments parts := by
  obtain ⟨_, packed, encodes⟩ := exists_encodes mode buffer values
  have small := small_of_encodes encodes packed
  have start : BitpackingWriter.Holds kernels temporary ⟨.empty, []⟩ [] [] :=
    ⟨rfl, OpenSegment.room_empty, .nil⟩
  refine ⟨@BitpackingWriter.Holds.append t kernels temporary ⟨_, _⟩ _ _ start values small, ?_⟩
  obtain ⟨segments, parts, compressed, flushed, groups⟩ :=
    @compress_parts t kernels temporary _ small
  refine ⟨segments, parts, ?_, groups, ?_⟩
  · rw [bitpackingCompress_eq, compressed]
  · exact flushed.imp fun segment groups one => ⟨one.length_block_le, one.laid.2⟩

/-! ## Fetching a row -/

/-- The part of `BitpackingFetchRow` after the position has been reached. The factor
for a constant difference is set only if `TryCast` succeeds. -/
def BitpackingScanState.fetchValue (kernels : PackKernels t) (block : Bytes)
    (uninitialized : t.Value) (s : BitpackingScanState t) : t.Value :=
  let offsetInGroup := s.groupOffset % algorithmGroupSize
  let start := s.groupPtr + (s.groupOffset - offsetInGroup) * s.width / 8
  match s.mode with
  | .constant => s.constant
  | .constantDelta =>
    let multiplier := if s.groupOffset ≤ maxLimit t t.signed then BitVec.ofNat _ s.groupOffset
      else uninitialized
    multiplier * s.constant + s.frameOfReference
  | mode =>
    let value := kernels.unpack s.width (block.drop start) offsetInGroup + s.frameOfReference
    if mode = .deltaFor then value + s.deltaOffset else value

/-- `BitpackingFetchRow`. -/
def BitpackingSegment.fetchRow (kernels : PackKernels t) (uninitialized : t.Value)
    (segment : BitpackingSegment) (row : Nat) : Option t.Value := do
  let s ← BitpackingScanState.init segment.block
  let s ← s.skip kernels segment.block row
  some (s.fetchValue kernels segment.block uninitialized)

/-- All ways to read a segment give the same rows. -/
def BitpackingSegment.ReadsAlike (kernels : PackKernels t) (segment : BitpackingSegment) : Prop :=
  ∃ rows, rows.length = segment.count ∧ (∀ calls, AllowedCalls segment.count 0 calls →
      segment.read kernels calls = some (served calls rows)) ∧
    ∀ row < segment.count, ∀ uninitialized, segment.fetchRow kernels uninitialized row = rows[row]?

/-- The positions in a group with a constant difference are values of the type, or it
does not matter what they are multiplied with. -/
def BitpackingGroup.multiplierFits (group : BitpackingGroup t) : Bool :=
  match group.data with
  | .constantDelta _ delta => delta = 0 ∨ group.count ≤ maxLimit t t.signed + 1
  | _ => true

section

variable {b : Bytes} {gs : List (BitpackingGroup t)} {top k : Nat}
  {grp : BitpackingGroup t} {s : BitpackingScanState t}

theorem StandsIn.fetchValue (pos : StandsIn ks tmp b gs top k grp s)
    (room : s.groupOffset < grp.count) (fits : grp.multiplierFits = true)
    (uninitialized : t.Value) :
    s.fetchValue ks b uninitialized = grp.data.value s.groupOffset := by
  obtain ⟨same, hld⟩ := pos.loaded
  have w := pos.width
  obtain ⟨n, data⟩ := grp
  -- values are unpacked from the group of 32 that the row is in
  have unpacked {vs : Nat → t.Value} {rest : Bytes} (fits : s.width ≤ t.bits)
      (eq : b.drop s.groupPtr = ks.packBuffer tmp vs n s.width ++ rest) :
      ks.unpack s.width (b.drop (s.groupPtr + (s.groupOffset -
        s.groupOffset % algorithmGroupSize) * s.width / 8)) (s.groupOffset % algorithmGroupSize) =
          lowBits s.width (vs s.groupOffset) := by
    have start : (s.groupOffset - s.groupOffset % algorithmGroupSize) * s.width / 8 =
        4 * s.width * (s.groupOffset / algorithmGroupSize) := by
      have full : s.groupOffset - s.groupOffset % algorithmGroupSize =
          8 * (4 * (s.groupOffset / algorithmGroupSize)) := by
        unfold algorithmGroupSize
        omega
      rw [full, mul_assoc, Nat.mul_div_cancel_left _ (by decide)]
      ring
    have row := div_add_mod s.groupOffset algorithmGroupSize
    rw [start, ← drop_drop, eq, ks.unpack_packBuffer fits
      (mod_lt _ algorithmGroupSize_pos) (row.symm ▸ room), row]
  unfold BitpackingScanState.fetchValue
  rw [same]
  cases data with
  | constant v => exact hld
  | constantDelta frame delta =>
    obtain ⟨rfl, rfl⟩ := hld
    have fits : s.constant = 0 ∨ (n : Int) ≤ maxLimit t t.signed + 1 := of_decide_eq_true fits
    rcases fits with zero | _
    · simp [GroupData.mode, GroupData.value, zero]
    · have cast : (s.groupOffset : Int) ≤ maxLimit t t.signed := by
        dsimp only at room
        omega
      simp only [GroupData.mode, if_pos cast]
      rw [GroupData.value, BitVec.mul_comm]
  | frameOfReference frame w' vs =>
    obtain ⟨rfl, rfl, rest, eq⟩ := hld
    exact congrArg (· + _) (unpacked w eq)
  | deltaFor frame w' deltaOffset vs =>
    obtain ⟨⟨rfl, rfl, _, eq⟩, old⟩ := hld
    have v := congrArg (· + s.frameOfReference + s.deltaOffset) (unpacked w eq)
    refine v.trans ?_
    rw [old]
    cases s.groupOffset with
    | zero => rfl
    | succ off => rfl

variable {seg : BitpackingSegment} (read : Readable ks tmp seg.block gs top)
include read

theorem Readable.fetchRow {row : Nat} (lt : row < (groupRows gs).flatten.length) :
    ∃ k grp s, StandsIn ks tmp seg.block gs top k grp s ∧
      metadataGroupSize * k + s.groupOffset = row ∧ s.groupOffset < grp.count ∧
      ∀ uninitialized, seg.fetchRow ks uninitialized row =
        some (s.fetchValue ks seg.block uninitialized) := by
  obtain ⟨_, started, pos⟩ := read.init (zero_lt_of_lt lt)
  rw [← zero_add row] at lt
  obtain ⟨s', skipped, ⟨k, grp, hst, _⟩, hsm⟩ := read.skip pos lt
  refine ⟨k, grp, s', hst, by omega, ?_, fun uninitialized => ?_⟩
  · exact read.le_count hst.found hsm (by omega)
  · rw [BitpackingSegment.fetchRow, started, bind_eq_bind, bind_some, skipped]
    rfl

theorem Readable.getElem_rows (got : gs[k]? = some grp) {off : Nat}
    (lt : off < grp.count) : (groupRows gs).flatten[metadataGroupSize * k + off]? =
      some (grp.data.value off) := by
  have rows := congrArg head? (read.drop_rows got lt.le)
  obtain ⟨_, left⟩ := exists_eq_add_one_of_ne_zero (sub_ne_zero_of_lt lt)
  rw [head?_drop, left] at rows
  simpa [BitpackingGroup.rows, range_succ_eq_map] using rows

end

section

variable {segments : List BitpackingSegment} {parts : List (List (BitpackingGroup t))}
  {chunks : List (List (Option t.Value))}

theorem Flushed.readsAlike_iff {seg : BitpackingSegment} {gs : List (BitpackingGroup t)}
    (done : Flushed ks tmp seg gs)
    (encodes : List.Forall₂ Encodes gs chunks) (pack : Packed metadataGroupSize chunks) :
    seg.ReadsAlike ks ↔ ∀ grp ∈ gs, grp.multiplierFits = true := by
  obtain ⟨n, _, hrd⟩ := done.readable encodes pack
  constructor
  · rintro ⟨_, -, -, fetched⟩ grp isGroup
    by_contra wrong
    obtain ⟨k, got⟩ := mem_iff_getElem?.mp isGroup
    have bounds := hrd.count_bounds got
    have tot := hrd.length_rows got
    -- the last row of the group gets two values
    obtain ⟨k', grp', s, stands, pos, room, fetch⟩ :=
      hrd.fetchRow (show metadataGroupSize * k + (grp.count - 1) < _ by omega)
    have bounds' := hrd.count_bounds stands.found
    obtain rfl : k' = k := by
      have := congrArg (· / metadataGroupSize) pos
      rwa [mul_add_div metadataGroupSize_pos, mul_add_div metadataGroupSize_pos,
        div_eq_of_lt (by omega), div_eq_of_lt (by omega)] at this
    obtain rfl : grp = grp' := Option.some.inj (got.symm.trans stands.found)
    obtain ⟨same, hld⟩ := stands.loaded
    have either (x : t.Value) := (fetch x).symm.trans (fetched _ (by omega) x)
    have heq := Option.some.inj ((either 0).trans (either 1).symm)
    obtain ⟨size, data⟩ := grp
    cases data with
    | constantDelta frame delta =>
      obtain ⟨rfl, rfl⟩ := hld
      have wrong : ¬(s.constant = 0 ∨ (size : Int) ≤ maxLimit t t.signed + 1) :=
        fun fits => wrong (decide_eq_true fits)
      have fails : ¬(s.groupOffset : Int) ≤ maxLimit t t.signed := by
        dsimp only at pos bounds
        omega
      unfold BitpackingScanState.fetchValue at heq
      rw [same] at heq
      simp only [GroupData.mode, if_neg fails] at heq
      refine wrong (.inl ?_)
      simpa using heq.symm
    | constant v => exact wrong rfl
    | deltaFor frame w deltaOffset vs => exact wrong rfl
    | frameOfReference frame w vs => exact wrong rfl
  · intro fits
    refine ⟨_, n.symm, fun calls => done.read_eq encodes pack, ?_⟩
    intro row fit uninitialized
    obtain ⟨_, grp, _, stands, rfl, room, fetch⟩ := hrd.fetchRow (n ▸ fit)
    rw [fetch, stands.fetchValue room (fits grp (mem_of_getElem? stands.found)),
      hrd.getElem_rows stands.found room]

theorem forall_readsAlike_iff (done : List.Forall₂ (Flushed ks tmp) segments parts)
    (encodes : List.Forall₂ Encodes parts.flatten chunks)
    (pack : Packed metadataGroupSize chunks) : (∀ seg ∈ segments, seg.ReadsAlike ks) ↔
      ∀ grp ∈ parts.flatten, grp.multiplierFits = true := by
  induction done generalizing chunks with
  | nil => exact ⟨fun _ => nofun, fun _ => nofun⟩
  | @cons seg gs segments parts first _ ih =>
    rw [flatten_cons] at encodes
    have front := (forall₂_take_append _ _ _ encodes.flip).flip
    have back := (forall₂_drop_append _ _ _ encodes.flip).flip
    rw [← take_append_drop gs.length chunks] at pack
    rw [forall_mem_cons, flatten_cons, forall_mem_append, ih back pack.append_right,
      first.readsAlike_iff front (pack.append_left metadataGroupSize_pos)]

end

/-- Scans, skips and fetches agree on the segments of a column exactly if no position in
a group with a constant difference is too large for the type. -/
theorem bitpackingCompress_readsAlike_iff (kernels : PackKernels t) (temporary : Nat → t.Value)
    (mode : BitpackingMode) (buffer : Nat → t.Value) (values : List (Option t.Value)) :
    ∃ segments, bitpackingCompress kernels temporary mode buffer values = some segments ∧
      ((∀ segment ∈ segments, segment.ReadsAlike kernels) ↔
        ∀ group ∈ (BitpackingState.new mode buffer).written values,
          group.multiplierFits = true) := by
  obtain ⟨_, packed, encodes⟩ := exists_encodes mode buffer values
  obtain ⟨segments, _, compressed, flushed, groups⟩ :=
    @compress_parts t kernels temporary _ (small_of_encodes encodes packed)
  refine ⟨segments, bitpackingCompress_eq kernels temporary mode buffer values ▸ compressed, ?_⟩
  rw [← groups] at encodes ⊢
  exact forall_readsAlike_iff flushed encodes packed

/-- The values from -1 to 127 are a group with a constant difference, in which the last
position is 128. -/
theorem bitpackingCompress_differs_int8 :
    ¬ ∃ segments, bitpackingCompress (PackKernels.bitwise int8) (fun _ => 0) .auto (fun _ => 0)
        ((range 129).map fun i => some (BitVec.ofInt _ (i - 1))) = some segments ∧
      ∀ segment ∈ segments, segment.ReadsAlike (PackKernels.bitwise int8) := by
  rintro ⟨_, compressed, alike⟩
  obtain ⟨_, packed, encodes⟩ := exists_encodes (t := int8) .auto (fun _ => 0)
    ((range 129).map fun i => some (BitVec.ofInt _ (i - 1)))
  obtain ⟨_, _, compressed', flushed, groups⟩ := @compress_parts int8
    (PackKernels.bitwise int8) (fun _ => 0) _ (small_of_encodes encodes packed)
  rw [bitpackingCompress_eq, compressed'] at compressed
  cases compressed
  rw [← groups] at encodes
  have fits := (forall_readsAlike_iff flushed encodes packed).mp alike
  rw [groups] at fits
  exact absurd fits (by decide +kernel)

end AccessPath
