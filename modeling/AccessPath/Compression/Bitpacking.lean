import AccessPath.Compression.BitpackingPrimitives
import AccessPath.Numeric.HugeintHalves

/-!
# Bitpacking

A group of integers is written as one constant, as a constant difference, as
packed differences or as packed distances from its minimum. The data of the
groups grows from the front of a block and their metadata from its end; when
the block is full the metadata is moved next to the data.
-/

namespace AccessPath

open Library

/-- `BITPACKING_METADATA_GROUP_SIZE`. -/
def metadataGroupSize : Nat := if 512 < standardVectorSize then standardVectorSize else 2048

def bitpackingHeaderSize : Nat := 8

/-- The size of `bitpacking_metadata_encoded_t`. -/
def encodedMetadataSize : Nat := 4

inductive BitpackingMode where
  | invalid
  | auto
  | constant
  | constantDelta
  | deltaFor
  | frameOfReference
  deriving DecidableEq, Repr

namespace BitpackingMode

/-- The byte that a mode is stored as. -/
def code : BitpackingMode → Nat
  | invalid => 0
  | auto => 1
  | constant => 2
  | constantDelta => 3
  | deltaFor => 4
  | frameOfReference => 5

def ofCode : Nat → BitpackingMode
  | 1 => auto
  | 2 => constant
  | 3 => constantDelta
  | 4 => deltaFor
  | 5 => frameOfReference
  | _ => invalid

end BitpackingMode

/-! ## Statistics of a group -/

/-- The group that is being filled. The slot before the first one holds 0. -/
structure BitpackingState (t : IntegerType) where
  compressionBuffer : Nat → t.Value
  compressionBufferIdx : Nat
  minimum : t.Value
  maximum : t.Value
  allValid : Bool
  allInvalid : Bool
  mode : BitpackingMode

/-- How a group is written. -/
inductive GroupData (t : IntegerType) where
  | constant (value : t.Value)
  | constantDelta (frame constant : t.Value)
  | deltaFor (frame : t.Value) (width : Nat) (deltaOffset : t.Value) (values : Nat → t.Value)
  | frameOfReference (frame : t.Value) (width : Nat) (values : Nat → t.Value)

structure BitpackingGroup (t : IntegerType) where
  count : Nat
  data : GroupData t

section

variable {t : IntegerType}

/-- The number that a bit pattern stands for in `T`, or in `T_S` with `signed`. -/
def readInt (signed : Bool) (x : t.Value) : Int := if signed then BitVec.toInt x else x.toNat

def minLimit (t : IntegerType) (signed : Bool) : Int := if signed then -2 ^ (t.bits - 1) else 0

def maxLimit (t : IntegerType) (signed : Bool) : Int :=
  if signed then 2 ^ (t.bits - 1) - 1 else 2 ^ t.bits - 1

/-- The two words of 128 bits. -/
def uhugeint (x : t.Value) : UhugeintT := ⟨x.extractLsb' 0 64, x.extractLsb' 64 64⟩

/-- The subtraction succeeds: the difference can be represented, or, for `uhugeint_t`, passes the
check of `TrySubtractInPlace`. -/
def subtractFits (signed : Bool) (left right : t.Value) : Bool :=
  if !signed && t.width = .sixteen then ((uhugeint left).trySubtractInPlace (uhugeint right)).1
  else minLimit t signed ≤ readInt signed left - readInt signed right ∧
    readInt signed left - readInt signed right ≤ maxLimit t signed

/-- `TrySubtractOperator`, with what the result holds before. A subtraction that fails leaves
the wrapped difference for `int64_t` and `uhugeint_t`, the left operand for `hugeint_t`, and
for the other types what was there. -/
def trySubtract (signed : Bool) (left right result : t.Value) : Bool × t.Value :=
  if subtractFits signed left right then (true, left - right)
  else (false, match signed, t.width with
    | true, .eight | false, .sixteen => left - right
    | true, .sixteen => left
    | _, _ => result)

def minValue (signed : Bool) (x y : t.Value) : t.Value :=
  if readInt signed x < readInt signed y then x else y

def maxValue (signed : Bool) (x y : t.Value) : t.Value :=
  if readInt signed y < readInt signed x then x else y

/-- The fields of the state that are read when the differences can be written. -/
structure DeltaStats (t : IntegerType) where
  deltaBuffer : Nat → t.Value
  minimumDelta : t.Value
  maximumDelta : t.Value
  minMaxDeltaDiff : t.Value
  deltaOffset : t.Value

namespace BitpackingState

def reset (state : BitpackingState t) : BitpackingState t := { state with
    compressionBufferIdx := 0
    minimum := BitVec.ofInt _ (maxLimit t t.signed)
    maximum := BitVec.ofInt _ (minLimit t t.signed)
    allValid := true
    allInvalid := true }

/-- `can_do_for` and `min_max_diff`. -/
def calculateFORStats (state : BitpackingState t) : Bool × t.Value :=
  trySubtract t.signed state.maximum state.minimum 0

def previous (state : BitpackingState t) (i : Nat) : t.Value :=
  if i = 0 then 0 else state.compressionBuffer (i - 1)

/-- The differences of successive values, if all of them can be represented. -/
def deltas (state : BitpackingState t) : Option (Nat → t.Value) :=
  let difference := fun i => state.compressionBuffer i - state.previous i
  let canDoAll := !t.signed || subtractFits true state.minimum state.maximum &&
    subtractFits true state.maximum state.minimum
  if canDoAll then some difference
  else if (List.range state.compressionBufferIdx).all fun i =>
      subtractFits true (state.compressionBuffer i) (state.previous i) then some difference
  else none

/-- `CalculateDeltaStats`, or nothing where `can_do_delta` is not set. -/
def calculateDeltaStats (state : BitpackingState t) : Option (DeltaStats t) :=
  if maxLimit t true < readInt t.signed state.maximum then none
  else if state.compressionBufferIdx < 2 then none
  else if !state.allValid then none
  else state.deltas.bind fun deltas =>
    let later := List.range' 1 (state.compressionBufferIdx - 1)
    let maximumDelta := later.foldl (fun m i => maxValue true m (deltas i))
      (BitVec.ofInt _ (minLimit t true))
    let minimumDelta := later.foldl (fun m i => minValue true m (deltas i))
      (BitVec.ofInt _ (maxLimit t true))
    let diff := trySubtract true maximumDelta minimumDelta 0
    let offset := trySubtract true (state.compressionBuffer 0) minimumDelta 0
    if diff.1 && offset.1 then
      some ⟨Function.update deltas 0 minimumDelta, minimumDelta, maximumDelta, diff.2, offset.2⟩
    else none

end BitpackingState

def subtractFrameOfReference (count : Nat) (buffer : Nat → t.Value) (frame : t.Value) :
    Nat → t.Value := fun i =>
  if i < count then buffer i - frame else buffer i

/-! ## Flushing a group -/

/-- The result of `Flush` with what it passes to the writer. -/
structure FlushResult (t : IntegerType) where
  success : Bool
  written : Option (BitpackingGroup t)
  state : BitpackingState t

namespace BitpackingState

/-- The part of `Flush` for groups that differences can be written for. -/
def flushDelta (state : BitpackingState t) (minMaxDiff : t.Value) : Option (GroupData t) :=
  state.calculateDeltaStats.bind fun stats =>
    if stats.maximumDelta = stats.minimumDelta ∧ state.mode ≠ .frameOfReference ∧
        state.mode ≠ .deltaFor then
      some (.constantDelta (state.compressionBuffer 0) stats.maximumDelta)
    else
      let width := minimumBitWidth t false stats.minMaxDeltaDiff
      if width < minimumBitWidth t t.signed minMaxDiff ∧ state.mode ≠ .frameOfReference then
        some (.deltaFor stats.minimumDelta width stats.deltaOffset
          (subtractFrameOfReference state.compressionBufferIdx stats.deltaBuffer
            stats.minimumDelta))
      else none

def flush (state : BitpackingState t) : FlushResult t :=
  if state.compressionBufferIdx = 0 then ⟨true, none, state⟩
  else if (state.allInvalid ∨ state.maximum = state.minimum) ∧
      (state.mode = .auto ∨ state.mode = .constant) then
    ⟨true, some ⟨state.compressionBufferIdx, .constant state.maximum⟩, state⟩
  else
    let stats := state.calculateFORStats
    match state.flushDelta stats.2 with
    | some data => ⟨true, some ⟨state.compressionBufferIdx, data⟩, state⟩
    | none =>
      if stats.1 then
        let buffer := subtractFrameOfReference state.compressionBufferIdx
          state.compressionBuffer state.minimum
        ⟨true, some ⟨state.compressionBufferIdx,
            .frameOfReference state.minimum (minimumBitWidth t false stats.2) buffer⟩,
          { state with compressionBuffer := buffer }⟩
      else ⟨false, none, state⟩

/-- The part of `Update` before a full group is flushed. -/
def push (state : BitpackingState t) : Option t.Value → BitpackingState t
  | some value =>
    { state with
      compressionBuffer := Function.update state.compressionBuffer state.compressionBufferIdx value
      compressionBufferIdx := state.compressionBufferIdx + 1
      minimum := minValue t.signed state.minimum value
      maximum := maxValue t.signed state.maximum value
      allInvalid := false }
  | none =>
    { state with
      compressionBufferIdx := state.compressionBufferIdx + 1
      allValid := false }

def update (state : BitpackingState t) (value : Option t.Value) : FlushResult t :=
  let state := state.push value
  if state.compressionBufferIdx = metadataGroupSize then
    let flushed := state.flush
    { flushed with state := flushed.state.reset }
  else ⟨true, none, state⟩

/-- The state at the start, with what the buffer happens to hold. -/
def new (mode : BitpackingMode) (buffer : Nat → t.Value) : BitpackingState t :=
  (⟨buffer, 0, 0, 0, true, true, mode⟩ : BitpackingState t).reset

/-- `BitpackingAnalyze` and `BitpackingFinalAnalyze`: whether the data is
accepted. -/
def analyze (state : BitpackingState t) : List (Option t.Value) → Bool
  | [] => state.flush.success
  | value :: values =>
    let updated := state.update value
    updated.success && analyze updated.state values

end BitpackingState

end

/-! ## Writing a block -/

structure BitpackingMetadata where
  mode : BitpackingMode
  offset : Nat

def BitpackingMetadata.encode (metadata : BitpackingMetadata) : Bytes :=
  putWord encodedMetadataSize (metadata.offset ||| metadata.mode.code <<< 24)

def BitpackingMetadata.decode (encoded : Nat) : BitpackingMetadata :=
  ⟨.ofCode (encoded >>> 24), encoded &&& 0x00FFFFFF⟩

/-- A segment that is being written: the data after the header and the metadata
of its groups. -/
structure OpenSegment where
  count : Nat
  data : Bytes
  metadata : List BitpackingMetadata

/-- A segment with its block. -/
structure BitpackingSegment where
  count : Nat
  block : Bytes

namespace OpenSegment

/-- `CreateEmptySegment`. -/
def empty : OpenSegment := ⟨0, [], []⟩

/-- `data_ptr` as an offset. -/
def dataOffset (segment : OpenSegment) : Nat := bitpackingHeaderSize + segment.data.length

/-- `metadata_ptr` as an offset. -/
def metadataOffset (segment : OpenSegment) : Nat :=
  blockSize - encodedMetadataSize * segment.metadata.length

def canStore (segment : OpenSegment) (dataBytes metaBytes : Nat) : Bool := alignValue dataBytes +
      (blockSize - (segment.metadataOffset - segment.dataOffset) + metaBytes) ≤
    blockSize - bitpackingHeaderSize

/-- `FlushSegment`; nothing if it raises its exception. -/
def flushSegment (segment : OpenSegment) : Option BitpackingSegment :=
  let unaligned := segment.dataOffset
  let aligned := alignValue unaligned
  let metadata := segment.metadata.reverse.flatMap BitpackingMetadata.encode
  if segment.canStore 0 0 then
    some ⟨segment.count, putWord bitpackingHeaderSize (aligned + metadata.length) ++
      segment.data ++ List.replicate (aligned - unaligned) 0 ++ metadata⟩
  else none

end OpenSegment

section

variable {t : IntegerType}

/-- `WriteData` for an integer. -/
def putValue (value : t.Value) : Bytes := putWord t.bytes value.toNat

namespace GroupData

def mode : GroupData t → BitpackingMode
  | constant _ => .constant
  | constantDelta _ _ => .constantDelta
  | deltaFor _ _ _ _ => .deltaFor
  | frameOfReference _ _ _ => .frameOfReference

/-- The bytes that are reserved. -/
def requiredSize (count : Nat) : GroupData t → Nat
  | constant _ => t.bytes
  | constantDelta _ _ => 2 * t.bytes
  | deltaFor _ width _ _ => getRequiredSize count width + 3 * t.bytes
  | frameOfReference _ width _ => getRequiredSize count width + 2 * t.bytes

/-- The bytes that are written. -/
def encode (kernels : PackKernels t) (temporary : Nat → t.Value) (count : Nat) : GroupData t → Bytes
  | constant value => putValue value
  | constantDelta frame delta => putValue frame ++ putValue delta
  | deltaFor frame width deltaOffset values =>
    putValue frame ++ putValue (t := t) (BitVec.ofNat _ width) ++ putValue deltaOffset ++
      kernels.packBuffer temporary values count width
  | frameOfReference frame width values =>
    putValue frame ++ putValue (t := t) (BitVec.ofNat _ width) ++
      kernels.packBuffer temporary values count width

end GroupData

variable (kernels : PackKernels t) (temporary : Nat → t.Value)

/-- The functions of `BitpackingWriter` after `ReserveSpace`. -/
def OpenSegment.write (segment : OpenSegment) (group : BitpackingGroup t) : OpenSegment :=
  ⟨segment.count + group.count, segment.data ++ group.data.encode kernels temporary group.count,
    segment.metadata ++ [⟨group.data.mode, segment.dataOffset⟩]⟩

/-- The current segment and those that were flushed. -/
structure BitpackingWriter where
  current : OpenSegment
  flushed : List BitpackingSegment

/-- The functions of `BitpackingWriter`. -/
def BitpackingWriter.write (writer : BitpackingWriter) (group : BitpackingGroup t) :
    Option BitpackingWriter :=
  if writer.current.canStore (group.data.requiredSize group.count) encodedMetadataSize then
    some { writer with current := writer.current.write kernels temporary group }
  else do
    let segment ← writer.current.flushSegment
    some ⟨OpenSegment.empty.write kernels temporary group, writer.flushed ++ [segment]⟩

/-- Write a group if there is one. -/
def BitpackingWriter.writeAny (writer : BitpackingWriter) :
    Option (BitpackingGroup t) → Option BitpackingWriter
  | none => some writer
  | some group => writer.write kernels temporary group

structure BitpackingCompressState (t : IntegerType) where
  state : BitpackingState t
  writer : BitpackingWriter

namespace BitpackingCompressState

/-- `Append`, which does not look at the result of `Update`. -/
def append (s : BitpackingCompressState t) : List (Option t.Value) →
    Option (BitpackingCompressState t)
  | [] => some s
  | value :: values => do
    let updated := s.state.update value
    let writer ← s.writer.writeAny kernels temporary updated.written
    append ⟨updated.state, writer⟩ values

/-- `Finalize`, with all segments of the column. -/
def finalize (s : BitpackingCompressState t) : Option (List BitpackingSegment) := do
  let writer ← s.writer.writeAny kernels temporary s.state.flush.written
  let segment ← writer.current.flushSegment
  some (writer.flushed ++ [segment])

end BitpackingCompressState

/-- Compress a column: `BitpackingCompress` for all vectors and
`BitpackingFinalizeCompress`. -/
def bitpackingCompress (mode : BitpackingMode) (buffer : Nat → t.Value)
    (values : List (Option t.Value)) : Option (List BitpackingSegment) := do
  let s : BitpackingCompressState t := ⟨.new mode buffer, ⟨.empty, []⟩⟩
  let s ← s.append kernels temporary values
  s.finalize kernels temporary

end

/-! ## Reading a block -/

/-- Load a word at an offset; nothing if it is not inside the block. -/
def loadWord (block : Bytes) (offset size : Nat) : Option Nat :=
  (getWord size (block.drop offset)).map Prod.fst

section

variable {t : IntegerType}

def loadValue (block : Bytes) (offset : Nat) : Option t.Value :=
  (loadWord block offset t.bytes).map (BitVec.ofNat _)

/-- `BitpackingScanState`; the pointers are offsets into the block. -/
structure BitpackingScanState (t : IntegerType) where
  mode : BitpackingMode
  width : Nat
  frameOfReference : t.Value
  constant : t.Value
  deltaOffset : t.Value
  groupOffset : Nat
  groupPtr : Nat
  metadataPtr : Nat

namespace BitpackingScanState

/-- The part of `LoadNextGroup` that reads the start of the group; nothing if it
raises its exception. -/
def loadGroup (block : Bytes) (metadata : BitpackingMetadata) (s : BitpackingScanState t) :
    Option (BitpackingScanState t) := do
  let first ← loadValue block metadata.offset
  let s := { s with mode := metadata.mode, groupOffset := 0 }
  match metadata.mode with
  | .constant => some { s with constant := first, groupPtr := metadata.offset + t.bytes }
  | .constantDelta => do
    let second ← loadValue block (metadata.offset + t.bytes)
    some { s with
      frameOfReference := first
      constant := second
      groupPtr := metadata.offset + t.bytes + t.bytes }
  | .frameOfReference => do
    let second : t.Value ← loadValue block (metadata.offset + t.bytes)
    some { s with
      frameOfReference := first
      width := second.toNat % 256
      groupPtr := metadata.offset + t.bytes + t.bytes }
  | .deltaFor => do
    let second : t.Value ← loadValue block (metadata.offset + t.bytes)
    let third ← loadValue block (metadata.offset + t.bytes + t.bytes)
    some { s with
      frameOfReference := first
      width := second.toNat % 256
      deltaOffset := third
      groupPtr := metadata.offset + t.bytes + t.bytes + t.bytes }
  | _ => none

def loadNextGroup (block : Bytes) (s : BitpackingScanState t) :
    Option (BitpackingScanState t) := do
  let encoded ← loadWord block s.metadataPtr encodedMetadataSize
  loadGroup block (.decode encoded) { s with metadataPtr := s.metadataPtr - encodedMetadataSize }

/-- The state for the first group of a segment. -/
def init (block : Bytes) : Option (BitpackingScanState t) := do
  let metadataEnd ← loadWord block 0 bitpackingHeaderSize
  loadNextGroup block ⟨.invalid, 0, 0, 0, 0, 0, 0, metadataEnd - encodedMetadataSize⟩

/-- Unpack values of the group of 32 that the position is in. -/
def unpack (kernels : PackKernels t) (block : Bytes) (s : BitpackingScanState t) (count : Nat) :
    List t.Value :=
  let offsetInGroup := s.groupOffset % algorithmGroupSize
  let position := s.groupPtr + s.groupOffset * s.width / 8
  let start := position - offsetInGroup * s.width / 8
  (List.range count).map fun i => kernels.unpack s.width (block.drop start) (offsetInGroup + i)

end BitpackingScanState

def applyFrameOfReference (values : List t.Value) (frame : t.Value) : List t.Value :=
  if frame = 0 then values else values.map (· + frame)

/-- `DeltaDecode`: the sums of the differences from a previous value on. -/
def deltaDecode (previous : t.Value) : List t.Value → List t.Value
  | [] => []
  | delta :: deltas => (delta + previous) :: deltaDecode (delta + previous) deltas

variable (kernels : PackKernels t)

namespace BitpackingScanState

/-- Take `count` values of a group with differences, which have to be decoded
to continue after them. -/
def takeDeltas (block : Bytes) (s : BitpackingScanState t) (count : Nat) :
    List t.Value × BitpackingScanState t :=
  let values := deltaDecode s.deltaOffset
    (applyFrameOfReference (s.unpack kernels block count) s.frameOfReference)
  (values, { s with
      deltaOffset := values.getLastD s.deltaOffset
      groupOffset := s.groupOffset + count })

/-- One round of the loop of `BitpackingScanPartial`, for at most `remaining`
values. A constant group fills all of what remains of the result; the later
rounds overwrite it. -/
def scanRound (block : Bytes) (s : BitpackingScanState t) (remaining : Nat) :
    Option (List t.Value × BitpackingScanState t) :=
  let inGroup := min remaining (metadataGroupSize - s.groupOffset)
  let inBlock := min remaining (algorithmGroupSize - s.groupOffset % algorithmGroupSize)
  match s.mode with
  | .constant =>
    some (List.replicate inGroup s.constant, { s with groupOffset := s.groupOffset + inGroup })
  | .constantDelta =>
    some ((List.range inGroup).map fun i =>
        s.constant * BitVec.ofNat _ (s.groupOffset + i) + s.frameOfReference,
      { s with groupOffset := s.groupOffset + inGroup })
  | .frameOfReference =>
    some (applyFrameOfReference (s.unpack kernels block inBlock) s.frameOfReference,
      { s with groupOffset := s.groupOffset + inBlock })
  | .deltaFor => some (s.takeDeltas kernels block inBlock)
  | _ => none

/-- Load the next group if this one is exhausted. -/
def enterGroup (block : Bytes) (s : BitpackingScanState t) : Option (BitpackingScanState t) :=
  if s.groupOffset = metadataGroupSize then s.loadNextGroup block else some s

/-- `BitpackingScanPartial` in at most `fuel` rounds. -/
def scanPartial (block : Bytes) : Nat → Nat → BitpackingScanState t →
    Option (List t.Value × BitpackingScanState t)
  | _, 0, s => some ([], s)
  | 0, _ + 1, _ => none
  | fuel + 1, remaining + 1, s => do
    let s ← s.enterGroup block
    let (values, s) ← s.scanRound kernels block (remaining + 1)
    let (rest, s) ← scanPartial block fuel (remaining + 1 - values.length) s
    some (values ++ rest, s)

/-- The loop of `Skip` in a group with differences, in at most `fuel` rounds. -/
def skipDeltas (block : Bytes) : Nat → Nat → BitpackingScanState t → Option (BitpackingScanState t)
  | _, 0, s => some s
  | 0, _ + 1, _ => none
  | fuel + 1, remaining + 1, s =>
    let count := min (remaining + 1) (algorithmGroupSize - s.groupOffset % algorithmGroupSize)
    skipDeltas block fuel (remaining + 1 - count) (s.takeDeltas kernels block count).2

/-- The first part of `Skip`: go to the group, and return what is left to skip
in it. -/
def skipGroups (block : Bytes) (s : BitpackingScanState t) (count : Nat) :
    Option (Nat × BitpackingScanState t) :=
  let groups := (count + s.groupOffset) / metadataGroupSize
  if groups = 0 then some (count, s)
  else do
    let skipped := metadataGroupSize - s.groupOffset + (groups - 1) * metadataGroupSize
    let s ← loadNextGroup block
      { s with metadataPtr := s.metadataPtr - (groups - 1) * encodedMetadataSize }
    some (count - skipped, s)

def skip (block : Bytes) (s : BitpackingScanState t) (count : Nat) :
    Option (BitpackingScanState t) := do
  let (remaining, s) ← s.skipGroups block count
  match s.mode with
  | .constant | .constantDelta | .frameOfReference =>
    some { s with groupOffset := s.groupOffset + remaining }
  | _ => s.skipDeltas kernels block remaining remaining

end BitpackingScanState

/-- What is asked of a segment: the next rows, or to leave them out. -/
inductive ReadCall where
  | scan (count : Nat)
  | skip (count : Nat)

/-- Serve calls one after the other; rows that are left out are not known. -/
def BitpackingScanState.run (block : Bytes) : List ReadCall → BitpackingScanState t →
    Option (List (Option t.Value))
  | [], _ => some []
  | .scan count :: calls, s => do
    let (values, s) ← s.scanPartial kernels block count count
    let rest ← run block calls s
    some (values.map some ++ rest)
  | .skip count :: calls, s => do
    let s ← s.skip kernels block count
    let rest ← run block calls s
    some (List.replicate count none ++ rest)

/-- A segment is initialized when it is first read. -/
def BitpackingSegment.read (segment : BitpackingSegment) (calls : List ReadCall) :
    Option (List (Option t.Value)) :=
  if calls.isEmpty then some []
  else do
    let s ← BitpackingScanState.init segment.block
    s.run kernels segment.block calls

end

end AccessPath
