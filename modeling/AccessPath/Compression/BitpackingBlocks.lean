import AccessPath.Compression.BitpackingGroups
import AccessPath.Library.Chunks

/-!
# The blocks of a column

The groups of a column are the values cut into pieces, and each block holds some
of the groups: their metadata is found from the end and leads to their data.
-/

namespace AccessPath

open Library OpenSegment BitpackingGroup List Option Nat

variable {t : IntegerType}

theorem metadataGroupSize_pos : 0 < metadataGroupSize := by decide

/-! ## The groups of a column -/

namespace BitpackingState

/-- The groups that are written for more values. -/
def written (state : BitpackingState t) : List (Option t.Value) → List (BitpackingGroup t)
  | [] => state.flush.written.toList
  | value :: values =>
    let updated := state.update value
    updated.written.toList ++ updated.state.written values

variable {st : BitpackingState t}

theorem update_of_full {v : Option t.Value}
    (full : (st.push v).compressionBufferIdx = metadataGroupSize) :
    st.update v = { (st.push v).flush with state := (st.push v).flush.state.reset } := if_pos full

theorem update_of_not_full {v : Option t.Value}
    (room : (st.push v).compressionBufferIdx ≠ metadataGroupSize) :
    st.update v = ⟨true, none, st.push v⟩ := if_neg room

/-- The groups stand for pieces of the data, and for all of it if it is accepted. -/
theorem Holds.written {pend vs : List (Option t.Value)}
    (has : st.Holds pend) (room : pend.length < metadataGroupSize) :
    ∃ cks, (st.analyze vs = true → cks.flatten = pend ++ vs) ∧ Packed metadataGroupSize cks ∧
      List.Forall₂ BitpackingGroup.Encodes (st.written vs) cks := by
  induction vs generalizing st pend with
  | nil =>
    by_cases emp : pend = []
    · subst emp
      have hno : st.written [] = [] := by
        rw [BitpackingState.written, flush_of_empty has.index]
        rfl
      exact ⟨[], fun _ => rfl, trivial, hno ▸ .nil⟩
    by_cases hok : st.flush.success = true
    · obtain ⟨grp, wrote, encodes⟩ := has.flush emp hok
      have one : st.written [] = [grp] := by
        rw [BitpackingState.written, wrote]
        rfl
      refine ⟨[pend], fun _ => by simp, ⟨length_pos_iff.mpr emp, room.le⟩, ?_⟩
      exact one ▸ .cons encodes .nil
    · rw [BitpackingState.written, flush_of_failed hok]
      exact ⟨[], fun hac => absurd hac hok, trivial, .nil⟩
  | cons v vs ih =>
    have pushed := has.push v
    rw [BitpackingState.analyze]
    by_cases full : (st.push v).compressionBufferIdx = metadataGroupSize
    · obtain ⟨cks, pieces, hp, gs⟩ := ih (holds_reset (st.push v).flush.state) metadataGroupSize_pos
      rw [BitpackingState.written, update_of_full full]
      by_cases hok : (st.push v).flush.success = true
      · have nonempty : pend ++ [v] ≠ [] := append_ne_nil_of_right_ne_nil _ nofun
        obtain ⟨_, wrote, encodes⟩ := pushed.flush nonempty hok
        rw [wrote]
        refine ⟨(pend ++ [v]) :: cks, fun hac => ?_, ?_, .cons encodes gs⟩
        · rw [flatten_cons, pieces (Bool.and_eq_true_iff.mp hac).2]
          simp
        · have length : (pend ++ [v]).length = metadataGroupSize := pushed.index.symm.trans full
          rw [packed_cons_iff metadataGroupSize_pos, length]
          exact ⟨⟨metadataGroupSize_pos, le_refl _⟩, fun _ => rfl, hp⟩
      · rw [flush_of_failed hok]
        refine ⟨cks, fun hac => ?_, hp, gs⟩
        exact absurd (Bool.and_eq_true_iff.mp hac).1 hok
    · rw [update_of_not_full full]
      have more : st.written (v :: vs) = (st.push v).written vs := by
        rw [BitpackingState.written, update_of_not_full full]
        rfl
      have hsh : (pend ++ [v]).length < metadataGroupSize := by
        rw [pushed.index] at full
        have grown : (pend ++ [v]).length = pend.length + 1 := by simp
        omega
      obtain ⟨cks, pieces, hp, gs⟩ := ih pushed hsh
      refine ⟨cks, fun hac => ?_, hp, more ▸ gs⟩
      rw [pieces (Bool.and_eq_true_iff.mp hac).2]
      simp

end BitpackingState

section

variable (kernels : PackKernels t) (temporary : Nat → t.Value)

theorem BitpackingWriter.writeAny_eq (w : BitpackingWriter)
    (grp : Option (BitpackingGroup t)) : w.writeAny kernels temporary grp =
      grp.toList.foldlM (BitpackingWriter.write kernels temporary) w := by
  cases grp with
  | none => rfl
  | some grp => exact (bind_pure _).symm

/-- The end of a column: the last segment is flushed. -/
def BitpackingWriter.finish (writer : BitpackingWriter) : Option (List BitpackingSegment) := do
  let segment ← writer.current.flushSegment
  some (writer.flushed ++ [segment])

theorem append_finalize (s : BitpackingCompressState t) (vs : List (Option t.Value)) :
    ((s.append kernels temporary vs).bind fun s => s.finalize kernels temporary) =
      ((s.state.written vs).foldlM (BitpackingWriter.write kernels temporary) s.writer).bind
        BitpackingWriter.finish := by
  induction vs generalizing s with
  | nil =>
    rw [BitpackingState.written, ← BitpackingWriter.writeAny_eq]
    rfl
  | cons v vs ih =>
    rw [BitpackingState.written, foldlM_append, ← BitpackingWriter.writeAny_eq]
    change ((s.writer.writeAny kernels temporary _).bind _).bind _ = ((_ : Option _).bind _).bind _
    rw [bind_assoc, bind_assoc]
    congr 1
    funext w
    exact ih ⟨_, w⟩

variable (mode : BitpackingMode)

theorem bitpackingCompress_eq (buffer : Nat → t.Value)
    (vs : List (Option t.Value)) : bitpackingCompress kernels temporary mode buffer vs =
      (((BitpackingState.new mode buffer).written vs).foldlM
        (BitpackingWriter.write kernels temporary) ⟨.empty, []⟩).bind BitpackingWriter.finish :=
  append_finalize kernels temporary ⟨.new mode buffer, ⟨.empty, []⟩⟩ vs

/-! ## Space -/

def BitpackingGroup.bytes (group : BitpackingGroup t) : Bytes :=
  group.data.encode kernels temporary group.count

variable {kernels temporary}

@[simp] theorem length_putValue (v : t.Value) : (putValue v).length = t.bytes :=
  length_putWord _ _

theorem GroupData.length_encode {data : GroupData t} (w : data.WidthFits) (n : Nat) :
    (data.encode kernels temporary n).length = data.requiredSize n := by
  cases data with
  | constant v => exact length_putValue v
  | constantDelta frame delta => simp [encode, requiredSize, Nat.two_mul]
  | deltaFor _ _ _ _ | frameOfReference _ _ _ =>
    simp only [encode, requiredSize, length_append, length_putValue, kernels.length_packBuffer w]
    omega

/-- A group is small enough for a block. -/
def BitpackingGroup.Small (group : BitpackingGroup t) : Prop :=
  group.count ≤ metadataGroupSize ∧ group.data.WidthFits

theorem BitpackingGroup.Small.requiredSize_le {grp : BitpackingGroup t} (few : grp.Small) :
    grp.data.requiredSize grp.count ≤ 32816 := by
  have bytes : t.bytes ≤ 16 := by
    unfold IntegerType.bytes
    cases t.width <;> decide
  have hp (w : Nat) (fits : w ≤ t.bits) : getRequiredSize grp.count w ≤ 32768 := by
    have rounded : roundUpToAlgorithmGroupSize grp.count ≤ 2048 := by
      have count : grp.count ≤ 2048 := few.1
      unfold roundUpToAlgorithmGroupSize algorithmGroupSize
      split <;> omega
    have wide : w ≤ 128 := by
      unfold IntegerType.bits at fits
      omega
    have product := Nat.mul_le_mul rounded wide
    unfold getRequiredSize
    omega
  have w := few.2
  cases data : grp.data with
  | constant _ | constantDelta _ _ =>
    simp only [GroupData.requiredSize]
    omega
  | deltaFor _ w' _ _ | frameOfReference _ w' _ =>
    rw [data] at w
    have := hp w' w
    simp only [GroupData.requiredSize]
    omega

/-- Data and metadata do not overlap, with eight bytes between them. -/
def OpenSegment.Room (segment : OpenSegment) : Prop :=
  segment.dataOffset + 8 + encodedMetadataSize * segment.metadata.length ≤ blockSize

namespace OpenSegment

variable {seg : OpenSegment}

theorem Room.canStore_iff (room : seg.Room) (dataBytes metaBytes : Nat) :
    seg.canStore dataBytes metaBytes = true ↔ seg.dataOffset + alignValue dataBytes + 8 +
        (encodedMetadataSize * seg.metadata.length + metaBytes) ≤ blockSize := by
  unfold canStore metadataOffset
  unfold Room at room
  rw [decide_eq_true_iff]
  unfold blockSize bitpackingHeaderSize at *
  omega

theorem Room.write (room : seg.Room) {grp : BitpackingGroup t} (few : grp.Small)
    (fits : seg.canStore (grp.data.requiredSize grp.count) encodedMetadataSize = true) :
    (seg.write kernels temporary grp).Room := by
  rw [room.canStore_iff] at fits
  have aligned : grp.data.requiredSize grp.count ≤
      alignValue (grp.data.requiredSize grp.count) := by
    unfold alignValue
    omega
  unfold Room dataOffset OpenSegment.write at *
  rw [length_append, length_append, GroupData.length_encode few.2, length_singleton, mul_succ]
  omega

theorem room_empty : empty.Room := by
  unfold Room
  decide

theorem canStore_empty {grp : BitpackingGroup t} (few : grp.Small) :
    empty.canStore (grp.data.requiredSize grp.count) encodedMetadataSize = true := by
  rw [room_empty.canStore_iff]
  have size := few.requiredSize_le
  unfold alignValue
  simp only [empty, dataOffset, bitpackingHeaderSize, encodedMetadataSize, blockSize, length_nil]
  omega

theorem Room.canStore_zero (room : seg.Room) : seg.canStore 0 0 = true := by
  rw [room.canStore_iff]
  exact room

end OpenSegment

/-! ## The groups of each block -/

/-- A segment with some groups. -/
def OpenSegment.ofGroups (kernels : PackKernels t) (temporary : Nat → t.Value)
    (groups : List (BitpackingGroup t)) : OpenSegment :=
  groups.foldl (write kernels temporary) .empty

/-- A flushed segment holds some groups. -/
structure Flushed (kernels : PackKernels t) (temporary : Nat → t.Value)
    (segment : BitpackingSegment) (groups : List (BitpackingGroup t)) : Prop where
  room : (ofGroups kernels temporary groups).Room
  flushed : (ofGroups kernels temporary groups).flushSegment = some segment

/-- The groups that a writer has written, by segment. -/
structure BitpackingWriter.Holds (kernels : PackKernels t) (temporary : Nat → t.Value)
    (writer : BitpackingWriter) (parts : List (List (BitpackingGroup t)))
    (groups : List (BitpackingGroup t)) : Prop where
  current : writer.current = .ofGroups kernels temporary groups
  room : writer.current.Room
  flushed : List.Forall₂ (Flushed kernels temporary) writer.flushed parts

theorem OpenSegment.Room.flushSegment {seg : OpenSegment} (room : seg.Room) :
    ∃ fl, seg.flushSegment = some fl := ⟨_, if_pos room.canStore_zero⟩

namespace BitpackingWriter

variable {w : BitpackingWriter} {parts : List (List (BitpackingGroup t))}
  {gs : List (BitpackingGroup t)}

section

variable (holds : w.Holds kernels temporary parts gs)
include holds

theorem Holds.flush : ∃ seg, w.current.flushSegment = some seg ∧
      List.Forall₂ (Flushed kernels temporary) (w.flushed ++ [seg]) (parts ++ [gs]) := by
  obtain ⟨seg, hfl⟩ := holds.room.flushSegment
  refine ⟨seg, hfl, ?_⟩
  apply rel_append holds.flushed
  exact .cons ⟨holds.current ▸ holds.room, holds.current ▸ hfl⟩ .nil

theorem Holds.write {grp : BitpackingGroup t} (few : grp.Small) :
    ∃ writer' parts' gs', w.write kernels temporary grp = some writer' ∧
      writer'.Holds kernels temporary parts' gs' ∧
      parts'.flatten ++ gs' = parts.flatten ++ gs ++ [grp] := by
  unfold BitpackingWriter.write
  split
  next fits =>
    refine ⟨_, parts, gs ++ [grp], rfl, ⟨?_, holds.room.write few fits, holds.flushed⟩, ?_⟩
    · rw [holds.current]
      simp [ofGroups]
    · rw [append_assoc]
  next =>
    obtain ⟨_, hfl, segs⟩ := holds.flush
    rw [hfl]
    refine ⟨_, parts ++ [gs], [grp], rfl, ⟨rfl, ?_, segs⟩, ?_⟩
    · exact room_empty.write few (canStore_empty few)
    · simp

theorem Holds.foldlM (more : List (BitpackingGroup t)) (few : ∀ grp ∈ more, grp.Small) :
    ∃ writer' parts' gs', more.foldlM (BitpackingWriter.write kernels temporary) w = some writer' ∧
      writer'.Holds kernels temporary parts' gs' ∧
      parts'.flatten ++ gs' = parts.flatten ++ gs ++ more := by
  induction more generalizing w parts gs with
  | nil => exact ⟨w, parts, gs, rfl, holds, (append_nil _).symm⟩
  | cons grp more ih =>
    obtain ⟨_, _, _, wrote, holds₁, all₁⟩ := holds.write (few grp mem_cons_self)
    obtain ⟨writer₂, parts₂, groups₂, done, holds₂, all₂⟩ :=
      ih holds₁ fun o mem => few o (mem_cons_of_mem _ mem)
    refine ⟨writer₂, parts₂, groups₂, ?_, holds₂, ?_⟩
    · rw [foldlM_cons, wrote]
      exact done
    · rw [all₂, all₁]
      simp

end

end BitpackingWriter

variable (gs : List (BitpackingGroup t))

theorem compress_parts (few : ∀ grp ∈ gs, grp.Small) :
    ∃ segs parts, ((gs.foldlM (BitpackingWriter.write kernels temporary) ⟨.empty, []⟩).bind
        BitpackingWriter.finish) = some segs ∧
      List.Forall₂ (Flushed kernels temporary) segs parts ∧ parts.flatten = gs := by
  have start : BitpackingWriter.Holds kernels temporary ⟨.empty, []⟩ [] [] :=
    ⟨rfl, room_empty, .nil⟩
  obtain ⟨w, parts, last, wrote, holds, all⟩ := start.foldlM gs few
  obtain ⟨seg, hfl, segs⟩ := holds.flush
  refine ⟨w.flushed ++ [seg], parts ++ [last], ?_, segs, ?_⟩
  · rw [wrote, bind_some, BitpackingWriter.finish, hfl]
    rfl
  · simpa using all

/-! ## Finding a group in its block -/

section

variable (kernels temporary)

/-- The metadata of groups whose data starts at an offset. -/
def metadataFrom (offset : Nat) : List (BitpackingGroup t) → List BitpackingMetadata
  | [] => []
  | group :: groups =>
    ⟨group.data.mode, offset⟩ ::
      metadataFrom (offset + (group.bytes kernels temporary).length) groups

theorem foldl_write (seg : OpenSegment) (gs : List (BitpackingGroup t)) :
    gs.foldl (write kernels temporary) seg = ⟨seg.count + (gs.map BitpackingGroup.count).sum,
        seg.data ++ gs.flatMap (BitpackingGroup.bytes kernels temporary),
        seg.metadata ++ metadataFrom kernels temporary seg.dataOffset gs⟩ := by
  induction gs generalizing seg with
  | nil => simp [metadataFrom]
  | cons grp gs ih =>
    rw [foldl_cons, ih]
    simp [write, dataOffset, metadataFrom, BitpackingGroup.bytes, Nat.add_assoc]

theorem ofGroups_eq : ofGroups kernels temporary gs =
      ⟨(gs.map BitpackingGroup.count).sum, gs.flatMap (bytes kernels temporary),
        metadataFrom kernels temporary bitpackingHeaderSize gs⟩ := by
  rw [ofGroups, foldl_write]
  simp [empty, dataOffset]

theorem length_metadataFrom (off : Nat) (gs : List (BitpackingGroup t)) :
    (metadataFrom kernels temporary off gs).length = gs.length := by
  induction gs generalizing off with
  | nil => rfl
  | cons grp gs ih => rw [metadataFrom, length_cons, ih, length_cons]

variable {kernels temporary} {gs : List (BitpackingGroup t)}

/-- The offset of a group is the length of what comes before it. -/
theorem getElem_metadataFrom {k : Nat}
    {grp : BitpackingGroup t} (got : gs[k]? = some grp) (off : Nat) :
    (metadataFrom kernels temporary off gs)[k]? = some ⟨grp.data.mode,
      off + ((gs.take k).flatMap (bytes kernels temporary)).length⟩ := by
  induction gs generalizing k off with
  | nil => exact nomatch got
  | cons fst gs ih =>
    cases k with
    | zero =>
      cases got
      rfl
    | succ k =>
      rw [metadataFrom, getElem?_cons_succ, ih got, take_succ_cons,
        flatMap_cons, length_append, Nat.add_assoc]

theorem BitpackingMode.ofCode_code : ofCode mode.code = mode := by
  cases mode <;> rfl

theorem BitpackingMode.code_lt : mode.code < 256 := by
  cases mode <;> decide

theorem BitpackingMetadata.loadWord_encode {md : BitpackingMetadata}
    (lt : md.offset < 2 ^ 24) (rest : Bytes) :
    ∃ encoded, (getWord encodedMetadataSize (md.encode ++ rest)).map Prod.fst =
      some encoded ∧ decode encoded = md := by
  have code := md.mode.code_lt
  have eq : md.offset ||| md.mode.code <<< 24 = md.mode.code * 2 ^ 24 + md.offset := by
    rw [Nat.or_comm, ← shiftLeft_add_eq_or_of_lt lt, shiftLeft_eq]
  have fits : md.mode.code * 2 ^ 24 + md.offset < 256 ^ encodedMetadataSize := by
    unfold encodedMetadataSize
    omega
  refine ⟨md.mode.code * 2 ^ 24 + md.offset, ?_, ?_⟩
  · rw [encode, eq, getWord_putWord fits, map_some]
  · have high : (md.mode.code * 2 ^ 24 + md.offset) >>> 24 = md.mode.code := by
      rw [shiftRight_eq_div_pow]
      omega
    have low : (md.mode.code * 2 ^ 24 + md.offset) &&& 0x00FFFFFF = md.offset := by
      rw [show 0x00FFFFFF = 2 ^ 24 - 1 from rfl, and_two_pow_sub_one_eq_mod]
      omega
    rw [decode, high, low, BitpackingMode.ofCode_code]

variable (kernels temporary)

/-- The metadata of the groups is found downwards from `top` and leads to their
data. -/
structure Laid (block : Bytes) (groups : List (BitpackingGroup t)) (top : Nat) : Prop where
  header : loadWord block 0 bitpackingHeaderSize = some top
  found : ∀ k group, groups[k]? = some group → ∃ encoded,
    loadWord block (top - encodedMetadataSize * (k + 1)) encodedMetadataSize = some encoded ∧
    (BitpackingMetadata.decode encoded).mode = group.data.mode ∧
    ∃ rest, block.drop (BitpackingMetadata.decode encoded).offset =
      group.bytes kernels temporary ++ rest

variable {kernels temporary}

theorem drop_flatMap_bytes {k : Nat} {grp : BitpackingGroup t} (got : gs[k]? = some grp) :
    (gs.flatMap (bytes kernels temporary)).drop
        ((gs.take k).flatMap (bytes kernels temporary)).length =
      grp.bytes kernels temporary ++ (gs.drop (k + 1)).flatMap (bytes kernels temporary) := by
  obtain ⟨_, here⟩ := List.getElem?_eq_some_iff.mp got
  have split : gs = gs.take k ++ grp :: gs.drop (k + 1) := by
    rw [← here, cons_getElem_drop_succ, take_append_drop]
  have eq : gs.flatMap (bytes kernels temporary) =
      (gs.take k).flatMap (bytes kernels temporary) ++ (grp.bytes kernels temporary ++
          (gs.drop (k + 1)).flatMap (bytes kernels temporary)) := by
    conv_lhs => rw [split, flatMap_append, flatMap_cons]
  rw [eq, drop_left]

theorem length_take_flatMap_le (k : Nat) :
    ((gs.take k).flatMap (bytes kernels temporary)).length ≤
      (gs.flatMap (bytes kernels temporary)).length := by
  nth_rewrite 2 [← take_append_drop k gs]
  rw [flatMap_append, length_append]
  omega

theorem Flushed.laid {seg : BitpackingSegment} (done : Flushed kernels temporary seg gs) :
    seg.count = (gs.map BitpackingGroup.count).sum ∧
      ∃ top, Laid kernels temporary seg.block gs top := by
  have room := done.room
  have sto := done.flushed
  unfold flushSegment at sto
  rw [if_pos room.canStore_zero] at sto
  cases sto
  rw [ofGroups_eq] at room ⊢
  apply And.intro rfl
  unfold OpenSegment.Room dataOffset at room
  dsimp only [dataOffset] at room ⊢
  rw [length_metadataFrom] at room
  have each (md : BitpackingMetadata) : md.encode.length = encodedMetadataSize := length_putWord _ _
  rw [length_flatMap_pieces each, length_reverse, length_metadataFrom]
  have aligned : bitpackingHeaderSize + (gs.flatMap (bytes kernels temporary)).length ≤
      alignValue (bitpackingHeaderSize + (gs.flatMap (bytes kernels temporary)).length) ∧
      alignValue (bitpackingHeaderSize + (gs.flatMap (bytes kernels temporary)).length) <
      bitpackingHeaderSize + (gs.flatMap (bytes kernels temporary)).length + 8 := by
    unfold alignValue
    omega
  generalize alignValue (bitpackingHeaderSize + _) = start at *
  refine ⟨start + encodedMetadataSize * gs.length, ?_, ?_⟩
  · have fits : start + encodedMetadataSize * gs.length < 256 ^ bitpackingHeaderSize := by
      unfold blockSize bitpackingHeaderSize at *
      omega
    rw [loadWord, drop_zero, append_assoc, append_assoc, getWord_putWord fits, map_some]
  · intro k grp got
    have fit := (List.getElem?_eq_some_iff.mp got).1
    have old := @length_take_flatMap_le t kernels temporary gs k
    have data := @drop_flatMap_bytes t kernels temporary gs k grp got
    have entry := @getElem_metadataFrom t kernels temporary gs k grp got bitpackingHeaderSize
    generalize gs.flatMap (bytes kernels temporary) = wrote at *
    generalize ((gs.take k).flatMap (bytes kernels temporary)).length = skipped at *
    have lt : bitpackingHeaderSize + skipped < 2 ^ 24 := by
      unfold blockSize bitpackingHeaderSize at *
      omega
    have listed : (metadataFrom kernels temporary bitpackingHeaderSize gs).reverse[
        gs.length - 1 - k]? = some ⟨grp.data.mode, bitpackingHeaderSize + skipped⟩ := by
      rw [getElem?_reverse (by rw [length_metadataFrom]; omega), length_metadataFrom]
      rwa [show gs.length - 1 - (gs.length - 1 - k) = k by omega]
    obtain ⟨encoded, hld, decoded⟩ := @BitpackingMetadata.loadWord_encode
      ⟨grp.data.mode, bitpackingHeaderSize + skipped⟩ lt
      (((metadataFrom kernels temporary bitpackingHeaderSize gs).reverse.drop
        (gs.length - 1 - k + 1)).flatMap BitpackingMetadata.encode)
    refine ⟨encoded, ?_, ?_, ?_⟩
    · -- the metadata region starts after the padding
      have length : (putWord bitpackingHeaderSize (start + encodedMetadataSize * gs.length) ++
          wrote ++ replicate (start - (bitpackingHeaderSize + wrote.length)) 0).length =
            start := by
        simp only [length_append, length_putWord, length_replicate]
        omega
      have position : start + encodedMetadataSize * gs.length - encodedMetadataSize * (k + 1) =
          start + encodedMetadataSize * (gs.length - 1 - k) := by
        unfold encodedMetadataSize
        omega
      rw [loadWord, position]
      nth_rewrite 1 [← length]
      rw [drop_length_add_append, drop_flatMap_pieces each listed]
      exact hld
    · rw [decoded]
    · rw [decoded]
      have eq : (putWord bitpackingHeaderSize
          (start + encodedMetadataSize * gs.length)).length = bitpackingHeaderSize :=
        length_putWord _ _
      nth_rewrite 1 [← eq]
      rw [append_assoc, append_assoc, drop_length_add_append,
        drop_append_of_le_length old, data, append_assoc]
      exact ⟨_, rfl⟩

end

end

end AccessPath
