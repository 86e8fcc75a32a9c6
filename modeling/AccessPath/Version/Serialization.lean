import AccessPath.Library.ByteStream
import AccessPath.Version.RowVersionManager

/-!
# The stored form of version information

The parts of `chunk_info.cpp`, `validity_mask.cpp` and
`row_version_manager.cpp` that write delete information into metadata blocks
and read it back. A vector is stored as nothing deleted, everything deleted, or
a mask whose valid rows are the deleted ones.
-/

namespace AccessPath

open Library RowVersionManager ChunkInfo ChunkVectorInfo List Option Function

variable {input xs : Bytes} {entries : List (Nat × ChunkInfo)} {n start : Nat}
  {entry : Nat × ChunkInfo} {manager : RowVersionManager}

/-- `IOException` of a metadata reader that has run out of blocks. -/
def fromStream {α : Type} : Option α → Except String α
  | some value => .ok value
  | none => .error "No more data remaining in MetadataReader"

/-! ## Validity masks -/

/-- `ValidityMask::ValidityMaskSize`: whole 64-bit entries. -/
def validityMaskSize (count : Nat) : Nat := (count + 63) / 64 * 8

/-- Bytes of one row index in a stored mask. -/
def bytesPerValue (count : Nat) : Nat := if 65535 ≤ count then 4 else 2

/-- `ValidityMask::Write`. -/
def validityWrite (valid : Nat → Bool) (count : Nat) : Bytes :=
  let validValues := ((range count).filter valid).length
  let invalidValues := count - validValues
  let bitmaskBytes := validityMaskSize count
  let validValueSize := bytesPerValue count * validValues + 4
  let invalidValueSize := bytesPerValue count * invalidValues + 4
  if validValueSize < bitmaskBytes ∨ invalidValueSize < bitmaskBytes then
    -- serialize (in)valid value indexes as [COUNT][V0][V1][...][VN]
    let serializeValid := decide (validValueSize < invalidValueSize)
    putWord 1 (if serializeValid then 1 else 2) ++ (putWord 4 (min validValues invalidValues) ++
        putMany (putWord (bytesPerValue count))
          ((range count).filter fun i => valid i == serializeValid))
  else
    -- serialize the entire bitmask
    putWord 1 0 ++ packBits valid bitmaskBytes

/-- `ValidityMask::Read`. -/
def validityRead (count : Nat) (input : Bytes) : Option ((Nat → Bool) × Bytes) := do
  let (flag, input) ← getWord 1 input
  if flag = 0 then
    let size := validityMaskSize count
    if input.length < size then none
    else some (bitAt (input.take size), input.drop size)
  else
    let isValid := flag == 1
    let (serializeCount, input) ← getWord 4 input
    let (indexes, input) ← getMany (getWord (bytesPerValue count)) serializeCount input
    -- `SetAllInvalid` before valid rows are listed, all valid otherwise
    some (fun i => if i ∈ indexes then isValid else !isValid || count ≤ i, input)

theorem valid_add_invalid (valid : Nat → Bool) (n : Nat) :
    ((range n).filter fun i => valid i == true).length +
      ((range n).filter fun i => valid i == false).length = n := by
  have flip : (fun i => valid i == false) = fun i => !valid i := by
    funext i
    cases valid i <;> rfl
  have keep : (fun i => valid i == true) = valid := by
    funext i
    cases valid i <;> rfl
  rw [flip, keep, ← length_eq_length_filter_add, length_range]

theorem validityRead_listed (lt : n < 65535) (serializeValid : Bool) {rows : List Nat}
    (fit : ∀ r ∈ rows, r < n) (bounded : rows.length ≤ n) (xs : Bytes) :
    validityRead n (putWord 1 (if serializeValid then 1 else 2) ++
        (putWord 4 rows.length ++ putMany (putWord (bytesPerValue n)) rows) ++ xs) =
      some (fun i => if i ∈ rows then serializeValid else !serializeValid || n ≤ i, xs) := by
  have width : bytesPerValue n = 2 := if_neg (by omega)
  have length : rows.length < 256 ^ 4 := by omega
  have fits : ∀ r ∈ rows, ∀ xs : Bytes, getWord 2 (putWord 2 r ++ xs) = some (r, xs) := by
    intro r mem xs
    have := fit r mem
    exact getWord_putWord (by omega) xs
  have body := getMany_putMany fits xs
  have one : (1 : Nat) < 256 ^ 1 := by decide
  have two : (2 : Nat) < 256 ^ 1 := by decide
  rw [width]
  cases serializeValid
  · simp [validityRead, append_assoc, getWord_putWord two, getWord_putWord length, width, body]
  · simp [validityRead, append_assoc, getWord_putWord one, getWord_putWord length, width, body]

/-- A stored mask is read back, for every number of rows a two-byte index can
name. -/
theorem validityRead_validityWrite (valid : Nat → Bool) (few : n < 65535) (xs : Bytes) :
    ∃ mask, validityRead n (validityWrite valid n ++ xs) = some (mask, xs) ∧
      ∀ i < n, mask i = valid i := by
  have tot := valid_add_invalid valid n
  have keep : (range n).filter valid = (range n).filter fun i => valid i == true := by simp
  unfold validityWrite
  simp only [keep]
  split
  · generalize listed : decide ((_ : Nat) < _) = serializeValid
    set rows := (range n).filter fun i => valid i == serializeValid with rowsDef
    -- as many rows are listed as the smaller of the two counts says
    have hc : min ((range n).filter fun i => valid i == true).length
        (n - ((range n).filter fun i => valid i == true).length) = rows.length := by
      have pos : 0 < bytesPerValue n := by
        unfold bytesPerValue
        split <;> decide
      have hsm := listed
      cases serializeValid with
      | true =>
        rw [decide_eq_true_eq, Nat.add_lt_add_iff_right, Nat.mul_lt_mul_left pos] at hsm
        rw [rowsDef]
        omega
      | false =>
        rw [decide_eq_false_iff_not, Nat.add_lt_add_iff_right, Nat.mul_lt_mul_left pos] at hsm
        rw [rowsDef]
        omega
    have fit : ∀ r ∈ rows, r < n := by
      intro r mem
      simpa using (mem_filter.mp mem).1
    have bounded : rows.length ≤ n := by omega
    rw [hc]
    refine ⟨_, validityRead_listed few serializeValid fit bounded xs, ?_⟩
    intro i lt
    have mem : i ∈ rows ↔ valid i = serializeValid := by simp [rowsDef, lt]
    by_cases member : i ∈ rows
    · rw [if_pos member, mem.mp member]
    · have differs : valid i ≠ serializeValid := fun eq => member (mem.mpr eq)
      have within : decide (n ≤ i) = false := by simpa using lt
      rw [if_neg member, within, Bool.or_false, Bool.eq_not.mpr differs]
  · refine ⟨bitAt (packBits valid (validityMaskSize n)), ?_, ?_⟩
    · have zero : (0 : Nat) < 256 ^ 1 := by decide
      simp [validityRead, append_assoc, getWord_putWord zero]
    · intro i fit
      refine bitAt_packBits ?_
      unfold validityMaskSize
      omega

/-! ## Chunk infos -/

/-- `ChunkInfoType`, in the order of the enumeration. -/
inductive ChunkInfoType where
  | constantInfo
  | vectorInfo
  | emptyInfo
  deriving DecidableEq, Repr

/-- The byte a type is stored as. -/
def ChunkInfoType.code : ChunkInfoType → Nat
  | .constantInfo => 0
  | .vectorInfo => 1
  | .emptyInfo => 2

def ChunkInfoType.write (type : ChunkInfoType) : Bytes := putWord 1 type.code

def ChunkConstantInfo.write (info : ChunkConstantInfo) : Bytes :=
  ChunkInfoType.constantInfo.write ++ putWord 8 info.start

/-- The rows a stored vector keeps: those that a transaction that started last of
all would see. -/
def ChunkVectorInfo.keptRows (info : ChunkVectorInfo) : SelResult :=
  info.templatedGetSelVector transactionVersionOperator (transactionIdStart - 1) invalidIndex
    standardVectorSize

def ChunkVectorInfo.write (info : ChunkVectorInfo) : Bytes :=
  let result := info.keptRows
  if result.count = standardVectorSize then
    -- nothing is deleted: skip writing anything
    ChunkInfoType.emptyInfo.write
  else if result.count = 0 then
    -- everything is deleted: write a constant vector
    ChunkInfoType.constantInfo.write ++ putWord 8 info.start
  else
    -- write a boolean vector
    ChunkInfoType.vectorInfo.write ++ (putWord 8 info.start ++
      validityWrite (fun i => !(result.sel.take result.count).contains i) standardVectorSize)

def ChunkInfo.write : ChunkInfo → Bytes
  | .constant info => info.write
  | .vector info => info.write

def ChunkConstantInfo.read (input : Bytes) : Option (ChunkConstantInfo × Bytes) := do
  let (start, input) ← getWord 8 input
  return (⟨start, 0, 0⟩, input)

/-- The info `ChunkVectorInfo::Read` builds from a start and a mask. -/
def ChunkVectorInfo.ofMask (start : Nat) (mask : Nat → Bool) : ChunkVectorInfo := { new start with
    anyDeleted := true
    deleted := fun i => if i < standardVectorSize && mask i then 0 else notDeletedId }

def ChunkVectorInfo.read (input : Bytes) : Option (ChunkVectorInfo × Bytes) := do
  let (start, input) ← getWord 8 input
  let (mask, input) ← validityRead standardVectorSize input
  return (ofMask start mask, input)

def ChunkInfo.read (input : Bytes) : Except String (Option ChunkInfo × Bytes) := do
  let (type, input) ← fromStream (getWord 1 input)
  if type = ChunkInfoType.emptyInfo.code then
    return (none, input)
  else if type = ChunkInfoType.constantInfo.code then
    let (info, input) ← fromStream (ChunkConstantInfo.read input)
    return (some (.constant info), input)
  else if type = ChunkInfoType.vectorInfo.code then
    let (info, input) ← fromStream (ChunkVectorInfo.read input)
    return (some (.vector info), input)
  else
    throw "Could not deserialize Chunk Info Type: unrecognized type"

/-- What a stored info comes back as. -/
def ChunkInfo.reread : ChunkInfo → Option ChunkInfo
  | .constant info => some (.constant ⟨info.start % 256 ^ 8, 0, 0⟩)
  | .vector info =>
    if info.keptRows.count = standardVectorSize then none
    else if info.keptRows.count = 0 then some (.constant ⟨info.start % 256 ^ 8, 0, 0⟩)
    else
      some (.vector (ofMask (info.start % 256 ^ 8)
        fun i => !(info.keptRows.sel.take info.keptRows.count).contains i))

theorem ChunkVectorInfo.ofMask_congr {mask mask' : Nat → Bool}
    (agree : ∀ i < standardVectorSize, mask i = mask' i) :
    ofMask start mask = ofMask start mask' := by
  have deleted : (fun i => if i < standardVectorSize && mask i then 0 else notDeletedId) =
      fun i => if i < standardVectorSize && mask' i then 0 else notDeletedId := by
    funext i
    by_cases fit : i < standardVectorSize
    · rw [agree i fit]
    · simp [fit]
  unfold ofMask
  rw [deleted]

/-- Reading a stored info leaves the stream at what follows it. -/
theorem ChunkInfo.read_write (inf : ChunkInfo) (xs : Bytes) :
    read (inf.write ++ xs) = .ok (inf.reread, xs) := by
  have constant (lo : Nat) : read (ChunkInfoType.constantInfo.write ++ putWord 8 lo ++ xs) =
        .ok (some (.constant ⟨lo % 256 ^ 8, 0, 0⟩), xs) := by
    simp [read, ChunkInfoType.write, append_assoc, ChunkConstantInfo.read,
      getWord_putWord_mod, fromStream, ChunkInfoType.code, bind, Except.bind, pure, Except.pure]
  cases inf with
  | constant inf => exact constant inf.start
  | vector inf =>
    simp only [write, ChunkVectorInfo.write, reread]
    split
    · simp [read, ChunkInfoType.write, getWord_putWord_mod, fromStream,
        ChunkInfoType.code, bind, Except.bind, pure, Except.pure]
    · split
      · exact constant inf.start
      · generalize (fun i => !(inf.keptRows.sel.take inf.keptRows.count).contains i) = hv
        obtain ⟨_, sto, agree⟩ :=
          validityRead_validityWrite hv (show standardVectorSize < 65535 by decide) xs
        rw [← ChunkVectorInfo.ofMask_congr agree]
        simp [read, ChunkInfoType.write, append_assoc, ChunkVectorInfo.read,
          getWord_putWord_mod, sto, fromStream, ChunkInfoType.code, bind, Except.bind,
          pure, Except.pure]

/-! ## Row version managers -/

/-- `to_serialize`: the vectors that have deletes, in order. -/
def RowVersionManager.toSerialize (manager : RowVersionManager) : List (Nat × ChunkInfo) :=
  (range rowGroupVectorCount).filterMap fun vectorIdx =>
    match manager.vectorInfo vectorIdx with
    | none => none
    | some info => if info.hasDeletes then some (vectorIdx, info) else none

/-- One entry of the stored form. -/
def writeEntry (entry : Nat × ChunkInfo) : Bytes := putWord 8 entry.1 ++ entry.2.write

/-- `RowVersionManager::Checkpoint`: the manager afterwards and the image the row
group's metadata points to, empty when there is nothing to point to. -/
def RowVersionManager.checkpoint (manager : RowVersionManager) : RowVersionManager × Bytes :=
  if !manager.hasChanges && !manager.storagePointers.isEmpty then
    -- the row version manager already exists on disk and no changes were made
    (manager, manager.storagePointers)
  else
    let entries := manager.toSerialize
    if entries.isEmpty then (manager, [])
    else
      let image := putWord 8 entries.length ++ putMany writeEntry entries
      ({ manager with hasChanges := false, storagePointers := image }, image)

/-- The loop of `RowVersionManager::Deserialize`. -/
def RowVersionManager.deserializeLoop :
    Nat → RowVersionManager → Bytes → Except String (RowVersionManager × Bytes)
  | 0, manager, input => .ok (manager, input)
  | chunkCount + 1, manager, input => do
    let (vectorIndex, input) ← fromStream (getWord 8 input)
    if rowGroupVectorCount ≤ vectorIndex then
      throw ("In DeserializeDeletes, vector_index is out of range for the row group. " ++
        "Corrupted file?")
    else
      let (info, input) ← read input
      deserializeLoop chunkCount
        { manager with vectorInfo := update manager.vectorInfo vectorIndex info } input

/-- `RowVersionManager::Deserialize`; an invalid pointer gives no manager. -/
def RowVersionManager.deserialize (pointer : Bytes) (start : Nat) :
    Except String (Option RowVersionManager) :=
  if pointer.isEmpty then .ok none
  else do
    let (chunkCount, input) ← fromStream (getWord 8 pointer)
    let (manager, _) ← deserializeLoop chunkCount (.new start) input
    return some { manager with hasChanges := false, storagePointers := pointer }

/-- The infos a list of entries leaves behind when it is read over others. -/
def rereadEntries (infos : Nat → Option ChunkInfo) (entries : List (Nat × ChunkInfo)) :
    Nat → Option ChunkInfo :=
  entries.foldl (fun infos entry => update infos entry.1 entry.2.reread) infos

theorem RowVersionManager.deserializeLoop_putMany (es : List (Nat × ChunkInfo))
    (inGroup : ∀ e ∈ es, e.1 < rowGroupVectorCount)
    (m : RowVersionManager) (xs : Bytes) : deserializeLoop es.length m
        (putMany writeEntry es ++ xs) =
      .ok ({ m with vectorInfo := rereadEntries m.vectorInfo es }, xs) := by
  induction es generalizing m with
  | nil => rfl
  | cons e es ih =>
    have lt : e.1 < rowGroupVectorCount := inGroup e (by simp)
    have fits : e.1 < 256 ^ 8 := Nat.lt_trans lt (by decide)
    have hl := ih (fun o mem => inGroup o (by simp [mem]))
      { m with vectorInfo := update m.vectorInfo e.1 e.2.reread }
    have layout : putMany writeEntry (e :: es) ++ xs =
        putWord 8 e.1 ++ (e.2.write ++ (putMany writeEntry es ++ xs)) := by
      simp [putMany, writeEntry]
    rw [length_cons, layout, deserializeLoop, getWord_putWord fits]
    simp only [fromStream, bind, Except.bind, Nat.not_le.mpr lt, if_false, read_write]
    exact hl

theorem rereadEntries_of_notMem {v : Nat} (is : Nat → Option ChunkInfo)
    (out : ∀ entry ∈ entries, entry.1 ≠ v) : rereadEntries is entries v = is v := by
  induction entries generalizing is with
  | nil => rfl
  | cons entry entries ih =>
    have other : v ≠ entry.1 := (out entry (by simp)).symm
    rw [rereadEntries, foldl_cons]
    refine (ih _ fun e mem => out e (by simp [mem])).trans ?_
    rw [update_of_ne other]

theorem rereadEntries_of_mem (is : Nat → Option ChunkInfo) (present : entry ∈ entries)
    (unique : ∀ o ∈ entries, o.1 = entry.1 → o = entry) :
    rereadEntries is entries entry.1 = entry.2.reread := by
  induction entries generalizing is with
  | nil => simp at present
  | cons head entries ih =>
    rw [rereadEntries, foldl_cons]
    by_cases hl : entry ∈ entries
    · exact ih _ hl fun o mem => unique o (by simp [mem])
    · have here : entry = head := by simpa [hl] using present
      subst here
      have hno : ∀ o ∈ entries, o.1 ≠ entry.1 := by
        intro o mem same
        exact hl (unique o (by simp [mem]) same ▸ mem)
      refine (rereadEntries_of_notMem _ hno).trans ?_
      rw [update_self]

/-- Infos without deletes are not stored. -/
def storedInfo : Option ChunkInfo → Option ChunkInfo
  | none => none
  | some info => if info.hasDeletes then info.reread else none

/-- What a vector's info comes back as from an image written now. -/
def RowVersionManager.stored (manager : RowVersionManager) (vectorIdx : Nat) : Option ChunkInfo :=
  if vectorIdx < rowGroupVectorCount then storedInfo (manager.vectorInfo vectorIdx) else none

theorem RowVersionManager.mem_toSerialize : entry ∈ manager.toSerialize ↔
      entry.1 < rowGroupVectorCount ∧ manager.vectorInfo entry.1 = some entry.2 ∧
        entry.2.hasDeletes = true := by
  obtain ⟨vi, _⟩ := entry
  simp only [toSerialize, mem_filterMap, mem_range]
  constructor
  · rintro ⟨v, inGroup, got⟩
    cases cur : manager.vectorInfo v with
    | none => simp [cur] at got
    | some o =>
      simp only [cur] at got
      split_ifs at got with dels
      cases got
      exact ⟨inGroup, cur, dels⟩
  · rintro ⟨inGroup, cur, dels⟩
    exact ⟨vi, inGroup, by simp [cur, dels]⟩

theorem RowVersionManager.rereadEntries_toSerialize (m : RowVersionManager) (vi : Nat) :
    rereadEntries (fun _ => none) m.toSerialize vi = m.stored vi := by
  by_cases wrote : ∃ inf, (vi, inf) ∈ m.toSerialize
  · obtain ⟨inf, mem⟩ := wrote
    obtain ⟨inGroup, cur, dels⟩ := mem_toSerialize.mp mem
    have unique : ∀ o ∈ m.toSerialize, o.1 = vi → o = (vi, inf) := by
      rintro ⟨v, _⟩ otherMem same
      obtain ⟨_, otherCurrent, _⟩ := mem_toSerialize.mp otherMem
      subst same
      rw [cur] at otherCurrent
      cases otherCurrent
      rfl
    have res := rereadEntries_of_mem (fun _ => none) mem unique
    rw [res, stored, if_pos inGroup, cur, storedInfo, if_pos dels]
  · have hno : ∀ entry ∈ m.toSerialize, entry.1 ≠ vi := by
      rintro ⟨_, inf⟩ mem same
      exact wrote ⟨inf, same ▸ mem⟩
    rw [rereadEntries_of_notMem _ hno, stored]
    split_ifs with inGroup
    · cases cur : m.vectorInfo vi with
      | none => rfl
      | some inf =>
        have clean : ¬ inf.hasDeletes = true := fun dels =>
          wrote ⟨inf, mem_toSerialize.mpr ⟨inGroup, cur, dels⟩⟩
        exact (if_neg clean).symm
    · rfl

/-- An image written now is read back without error, and gives each vector the
stored form of its info. -/
theorem RowVersionManager.deserialize_image (m : RowVersionManager) (lo : Nat) :
    ∃ hld : RowVersionManager, deserialize (putWord 8 m.toSerialize.length ++
        putMany writeEntry m.toSerialize) lo = .ok (some hld) ∧
      hld.vectorInfo = m.stored ∧ hld.start = lo ∧ hld.hasChanges = false ∧
      hld.storagePointers = putWord 8 m.toSerialize.length ++ putMany writeEntry m.toSerialize := by
  have length : m.toSerialize.length < 256 ^ 8 := by
    have : m.toSerialize.length ≤ rowGroupVectorCount := (length_filterMap_le _ _).trans (by simp)
    exact Nat.lt_of_le_of_lt this (by decide)
  have nonempty : (putWord 8 m.toSerialize.length ++
      putMany writeEntry m.toSerialize).isEmpty = false := by
    simp [putWord]
  have body := deserializeLoop_putMany m.toSerialize
    (fun entry mem => (mem_toSerialize.mp mem).1) (.new lo) []
  rw [append_nil] at body
  have infos : rereadEntries (new lo).vectorInfo m.toSerialize =
      m.stored := funext m.rereadEntries_toSerialize
  refine ⟨⟨lo, m.stored, false, _⟩, ?_, rfl, rfl, rfl, rfl⟩
  simp only [deserialize, nonempty, getWord_putWord length, fromStream, bind,
    Except.bind, body, infos, pure, Except.pure, Bool.false_eq_true, if_false]
  rfl

/-! ## Whatever is read -/

/-- The infos that reading can produce, from whatever bytes: all rows inserted at
identifier zero, each row deleted at identifier zero or not at all. -/
def ChunkInfo.Loaded : ChunkInfo → Prop
  | .constant info => info.insertId = 0 ∧ info.deleteId = 0
  | .vector info => ∃ start mask, info = ofMask start mask

theorem bind_ok {α β : Type} {x : Except String α} {f : α → Except String β} {b : β}
    (run : (x >>= f) = .ok b) : ∃ a, x = .ok a ∧ f a = .ok b := by
  cases x with
  | error message => cases run
  | ok a => exact ⟨a, rfl, run⟩

theorem fromStream_ok {α : Type} {o : Option α} {a : α} (run : fromStream o = .ok a) :
    o = some a := by
  cases o with
  | none => cases run
  | some b => exact congrArg some (Except.ok.inj run)

theorem ChunkInfo.loaded_of_read {inf : ChunkInfo} (read : read input = .ok (some inf, xs)) :
    inf.Loaded := by
  obtain ⟨⟨_, _⟩, -, read⟩ := bind_ok read
  dsimp only at read
  split at read
  · cases read
  · split at read
    · obtain ⟨res, payload, read⟩ := bind_ok read
      cases read
      obtain ⟨start, _, built⟩ := bind_eq_some_iff.mp (fromStream_ok payload)
      cases built
      exact ⟨rfl, rfl⟩
    · split at read
      · obtain ⟨_, payload, read⟩ := bind_ok read
        cases read
        obtain ⟨_, _, xs⟩ := bind_eq_some_iff.mp (fromStream_ok payload)
        obtain ⟨_, _, built⟩ := bind_eq_some_iff.mp xs
        cases built
        exact ⟨_, _, rfl⟩
      · cases read

theorem RowVersionManager.deserializeLoop_spec {chunkCount : Nat} {manager' : RowVersionManager}
    (old : ∀ v inf, manager.vectorInfo v = some inf → inf.Loaded)
    (read : deserializeLoop chunkCount manager input = .ok (manager', xs)) :
    manager'.start = manager.start ∧ ∀ v inf, manager'.vectorInfo v = some inf → inf.Loaded := by
  induction chunkCount generalizing manager input with
  | zero =>
    cases read
    exact ⟨rfl, old⟩
  | succ chunkCount ih =>
    obtain ⟨word, -, read⟩ := bind_ok read
    dsimp only at read
    split_ifs at read
    obtain ⟨res, entry, read⟩ := bind_ok read
    have hld (v : Nat) (inf : ChunkInfo)
        (got : update manager.vectorInfo word.1 res.1 v = some inf) : inf.Loaded := by
      by_cases here : v = word.1
      · rw [here, update_self] at got
        have same : res = (some inf, res.2) := by rw [← got]
        exact ChunkInfo.loaded_of_read (entry.trans (congrArg Except.ok same))
      · rw [update_of_ne here] at got
        exact old v inf got
    have hl := ih hld read
    exact hl

/-- A manager that was read knows where it was read from, and holds only infos that
reading can produce. -/
theorem RowVersionManager.deserialize_spec {ptr : Bytes}
    (read : deserialize ptr start = .ok (some manager)) :
    manager.storagePointers = ptr ∧ manager.start = start ∧
      ∀ v inf, manager.vectorInfo v = some inf → inf.Loaded := by
  unfold deserialize at read
  split at read
  · cases read
  · obtain ⟨_, -, read⟩ := bind_ok read
    obtain ⟨_, body, read⟩ := bind_ok read
    cases read
    exact ⟨rfl, deserializeLoop_spec (fun _ _ got => by cases got) body⟩

end AccessPath
