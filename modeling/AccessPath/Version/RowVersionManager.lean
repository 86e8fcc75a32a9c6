import AccessPath.Version.ChunkInfo

/-!
# Version information of a row group

`row_version_manager.cpp`. A manager holds one `ChunkInfo` per vector, or none
where every row is visible to everyone. Vector `v` holds the rows from
`v * STANDARD_VECTOR_SIZE`.
-/

namespace AccessPath

open ChunkVectorInfo List Function

/-- `storagePointers` stands for the metadata blocks of the last image: the bytes
they hold, empty when there are none. -/
structure RowVersionManager where
  start : Nat
  vectorInfo : Nat → Option ChunkInfo
  hasChanges : Bool
  storagePointers : List UInt8

variable {n row start : Nat} {m' manager : RowVersionManager} {info : ChunkInfo} {is : List Nat}
  {cid first i last tid vectorIdx : Nat} {cur : Option ChunkInfo}

def RowVersionManager.new (start : Nat) : RowVersionManager := ⟨start, fun _ => none, false, []⟩

/-! ## Reading -/

def RowVersionManager.getSelVector (manager : RowVersionManager)
    (transaction : TransactionData) (vectorIdx maxCount : Nat) : SelResult :=
  match manager.vectorInfo vectorIdx with
  | none => ⟨maxCount, []⟩
  | some info => info.getSelVector transaction maxCount

def RowVersionManager.getCommittedSelVector (manager : RowVersionManager)
    (startTime transactionId vectorIdx maxCount : Nat) : SelResult :=
  match manager.vectorInfo vectorIdx with
  | none => ⟨maxCount, []⟩
  | some info => info.getCommittedSelVector startTime transactionId maxCount

def RowVersionManager.fetch (manager : RowVersionManager)
    (transaction : TransactionData) (row : Nat) : Bool :=
  let vectorIndex := row / standardVectorSize
  match manager.vectorInfo vectorIndex with
  | none => true
  | some info => info.fetch transaction (row - vectorIndex * standardVectorSize)

def RowVersionManager.getCommittedDeletedCount (manager : RowVersionManager) (count : Nat) : Nat :=
  ((range rowGroupVectorCount).map fun vectorIdx =>
    let maxCount := min standardVectorSize (count - vectorIdx * standardVectorSize)
    match manager.vectorInfo vectorIdx with
    | none => 0
    | some info => info.getCommittedDeletedCount maxCount).sum

/-! ## Writing a range of rows

`AppendVersionInfo` and `CommitAppend` walk the vectors that a range of rows
touches and change each vector's info in turn. An exception leaves the vectors
before it changed. -/

/-- The vectors that the rows from `rowGroupStart` to `rowGroupEnd` touch. -/
def vectorIndexes (rowGroupStart rowGroupEnd : Nat) : List Nat :=
  let startVectorIdx := rowGroupStart / standardVectorSize
  let endVectorIdx := (rowGroupEnd - 1) / standardVectorSize
  List.range' startVectorIdx (endVectorIdx + 1 - startVectorIdx)

/-- `vector_start`: where the range begins inside a vector. -/
def vectorStart (rowGroupStart vectorIdx : Nat) : Nat :=
  let startVectorIdx := rowGroupStart / standardVectorSize
  if vectorIdx = startVectorIdx then
    rowGroupStart - startVectorIdx * standardVectorSize
  else 0

/-- `vector_end`: where the range ends inside a vector. -/
def vectorEnd (rowGroupEnd vectorIdx : Nat) : Nat :=
  let endVectorIdx := (rowGroupEnd - 1) / standardVectorSize
  if vectorIdx = endVectorIdx then
    rowGroupEnd - endVectorIdx * standardVectorSize
  else standardVectorSize

def RowVersionManager.setInfo (manager : RowVersionManager) (vectorIdx : Nat)
    (info : ChunkInfo) : RowVersionManager :=
  { manager with vectorInfo := Function.update manager.vectorInfo vectorIdx (some info) }

/-- The loop over vectors: `change` turns each vector's info into the new one. -/
def RowVersionManager.changeVectors (change : Nat → Option ChunkInfo → Except String ChunkInfo) :
    RowVersionManager → List Nat → RowVersionManager × Except String Unit
  | manager, [] => (manager, .ok ())
  | manager, vectorIdx :: rest =>
    match change vectorIdx (manager.vectorInfo vectorIdx) with
    | .error message => (manager, .error message)
    | .ok info => changeVectors change (manager.setInfo vectorIdx info) rest

/-- The body of the loop of `AppendVersionInfo`. -/
def appendVectorInfo (start transactionId rowGroupStart rowGroupEnd vectorIdx : Nat)
    (current : Option ChunkInfo) : Except String ChunkInfo :=
  let first := vectorStart rowGroupStart vectorIdx
  let last := vectorEnd rowGroupEnd vectorIdx
  if first = 0 ∧ last = standardVectorSize then
    -- entire vector is encapsulated by append: append a single constant
    .ok (.constant ⟨start + vectorIdx * standardVectorSize, transactionId, notDeletedId⟩)
  else
    match current with
    | none =>
      .ok (.vector ((new (start + vectorIdx * standardVectorSize)).append first last transactionId))
    | some (.vector info) => .ok (.vector (info.append first last transactionId))
    | some (.constant _) =>
      .error ("Error in RowVersionManager::AppendVersionInfo - expected either a " ++
        "ChunkVectorInfo or no version info")

def RowVersionManager.appendVersionInfo (manager : RowVersionManager)
    (transactionId rowGroupStart rowGroupEnd : Nat) : RowVersionManager × Except String Unit :=
  RowVersionManager.changeVectors
    (appendVectorInfo manager.start transactionId rowGroupStart rowGroupEnd)
    { manager with hasChanges := true } (vectorIndexes rowGroupStart rowGroupEnd)

/-- The body of the loop of `CommitAppend`. -/
def commitVectorInfo (commitId rowGroupStart rowGroupEnd vectorIdx : Nat)
    (current : Option ChunkInfo) : Except String ChunkInfo :=
  match current with
  | none => .error "Attempted to dereference unique_ptr that is NULL!"
  | some info =>
    .ok (info.commitAppend commitId (vectorStart rowGroupStart vectorIdx)
      (vectorEnd rowGroupEnd vectorIdx))

def RowVersionManager.commitAppend (manager : RowVersionManager)
    (commitId rowGroupStart count : Nat) : RowVersionManager × Except String Unit :=
  if count = 0 then (manager, .ok ())
  else
    RowVersionManager.changeVectors
      (commitVectorInfo commitId rowGroupStart (rowGroupStart + count))
      manager (vectorIndexes rowGroupStart (rowGroupStart + count))

def RowVersionManager.revertAppend (manager : RowVersionManager) (startRow : Nat) :
    RowVersionManager :=
  let startVectorIdx := (startRow + (standardVectorSize - 1)) / standardVectorSize
  { manager with
    vectorInfo := fun vectorIdx =>
      if startVectorIdx ≤ vectorIdx ∧ vectorIdx < rowGroupVectorCount then none
      else manager.vectorInfo vectorIdx }

/-! ## Deleting rows -/

/-- `GetVectorInfo`: the vector info to write deletes into. A constant info is
spread out; its delete identifier is not carried over. -/
def RowVersionManager.getVectorInfo (manager : RowVersionManager) (vectorIdx : Nat) :
    ChunkVectorInfo :=
  match manager.vectorInfo vectorIdx with
  | none => ChunkVectorInfo.new (manager.start + vectorIdx * standardVectorSize)
  | some (.constant info) =>
    { ChunkVectorInfo.new (manager.start + vectorIdx * standardVectorSize) with
      insertId := info.insertId
      inserted := fun _ => info.insertId }
  | some (.vector info) => info

def RowVersionManager.deleteRows (manager : RowVersionManager)
    (vectorIdx transactionId : Nat) (rows : List Nat) :
    RowVersionManager × Except String (List Nat) :=
  let result := (manager.getVectorInfo vectorIdx).delete transactionId rows
  (({ manager with hasChanges := true }).setInfo vectorIdx (.vector result.1), result.2)

def RowVersionManager.commitDelete (manager : RowVersionManager)
    (vectorIdx commitId : Nat) (record : DeleteInfo) : RowVersionManager :=
  ({ manager with hasChanges := true }).setInfo vectorIdx
    (.vector ((manager.getVectorInfo vectorIdx).commitDelete commitId record))

/-! ## Rows and vectors -/

/-- The vectors of a non-empty range are those that hold a row of it. -/
theorem mem_vectorIndexes (ne : first < last) : vectorIdx ∈ vectorIndexes first last ↔
      first < (vectorIdx + 1) * standardVectorSize ∧ vectorIdx * standardVectorSize < last := by
  simp only [vectorIndexes, mem_range'_1, standardVectorSize]
  omega

theorem nodup_vectorIndexes (fst last : Nat) : (vectorIndexes fst last).Nodup := nodup_range'

/-- Inside a vector that a range touches, the bounds of the loop cut out exactly
the rows of the range. -/
theorem vectorStart_le_iff (lt : i < standardVectorSize)
    (mem : vectorIdx ∈ vectorIndexes first last) (ne : first < last) :
    (vectorStart first vectorIdx ≤ i ∧ i < vectorEnd last vectorIdx) ↔
      (first ≤ vectorIdx * standardVectorSize + i ∧ vectorIdx * standardVectorSize + i < last) := by
  rw [mem_vectorIndexes ne] at mem
  simp only [vectorStart, vectorEnd]
  refine and_congr ?_ ?_
  · split <;> simp only [standardVectorSize] at * <;> omega
  · split <;> simp only [standardVectorSize] at * <;> omega

theorem row_eq (r : Nat) :
    r / standardVectorSize * standardVectorSize + r % standardVectorSize = r :=
  Nat.div_add_mod' r standardVectorSize

theorem row_mod_lt (r : Nat) : r % standardVectorSize < standardVectorSize :=
  Nat.mod_lt _ standardVectorSize_pos

theorem vector_row_div (lt : i < standardVectorSize) :
    (vectorIdx * standardVectorSize + i) / standardVectorSize = vectorIdx := by
  simp only [standardVectorSize] at *
  omega

theorem vector_row_mod (lt : i < standardVectorSize) :
    (vectorIdx * standardVectorSize + i) % standardVectorSize = i := by
  simp only [standardVectorSize] at *
  omega

/-- How many of the first `count` rows of the row group lie in a vector. -/
def rowsInVector (count vectorIdx : Nat) : Nat :=
  min standardVectorSize (count - vectorIdx * standardVectorSize)

theorem lt_rowsInVector : i < rowsInVector n vectorIdx ↔
      i < standardVectorSize ∧ vectorIdx * standardVectorSize + i < n := by
  simp only [rowsInVector, standardVectorSize]
  omega

/-! ## Identifiers of a row -/

/-- The insert identifier a vector's info gives a row. Without info the row was
there from the start, which is what identifier zero says. -/
def insertedOf : Option ChunkInfo → Nat → Nat
  | none, _ => 0
  | some (.constant info), _ => info.insertId
  | some (.vector info), row => info.inserted row

/-- The delete identifier a vector's info gives a row. -/
def deletedOf : Option ChunkInfo → Nat → Nat
  | none, _ => notDeletedId
  | some (.constant info), _ => info.deleteId
  | some (.vector info), row => info.deleted row

variable (m : RowVersionManager)

namespace RowVersionManager

def insertedAt (manager : RowVersionManager) (row : Nat) : Nat :=
  insertedOf (manager.vectorInfo (row / standardVectorSize)) (row % standardVectorSize)

def deletedAt (manager : RowVersionManager) (row : Nat) : Nat :=
  deletedOf (manager.vectorInfo (row / standardVectorSize)) (row % standardVectorSize)

/-- `Fetch` judges a row by its two identifiers. -/
theorem fetch_eq (tx : TransactionData) (r : Nat)
    (seesStored : useVersion tx 0 = true) : m.fetch tx r = (useVersion tx (m.insertedAt r) &&
        !useVersion tx (m.deletedAt r)) := by
  have position : r - r / standardVectorSize * standardVectorSize = r % standardVectorSize := by
    have := row_eq r
    omega
  simp only [fetch, insertedAt, deletedAt, position]
  rcases m.vectorInfo (r / standardVectorSize) with _ | info | info
  · simp [insertedOf, deletedOf, seesStored, useVersion_notDeletedId]
  · rfl
  · rfl

/-! ## What each operation does to a vector -/

/-- The loop over vectors, whether or not it is cut short by an exception: a
vector is left alone or changed once. -/
theorem changeVectors_vectorInfo (ch : Nat → Option ChunkInfo → Except String ChunkInfo)
    (m : RowVersionManager) (nd : is.Nodup) (v : Nat) :
    ((m.changeVectors ch is).1.vectorInfo v = m.vectorInfo v ∧
        (v ∈ is → (m.changeVectors ch is).2 ≠ .ok ())) ∨
      (v ∈ is ∧ ∃ info, ch v (m.vectorInfo v) = .ok info ∧
        (m.changeVectors ch is).1.vectorInfo v = some info) := by
  induction is generalizing m with
  | nil => exact .inl ⟨rfl, fun visited => absurd visited not_mem_nil⟩
  | cons head rest ih =>
    obtain ⟨fresh, nodupRest⟩ := nodup_cons.mp nd
    unfold changeVectors
    cases hch : ch head (m.vectorInfo head) with
    | error message => exact .inl ⟨rfl, fun _ => nofun⟩
    | ok info =>
      rcases ih (m.setInfo head info) nodupRest with ⟨same, failed⟩ | ⟨hl, new, eq, set⟩
      · by_cases here : v = head
        · subst here
          exact .inr ⟨mem_cons_self, info, hch, same.trans (by simp [setInfo])⟩
        · refine .inl ⟨same.trans (by simp [setInfo, here]), fun visited => failed ?_⟩
          exact (mem_cons.mp visited).resolve_left here
      · have other : v ≠ head := fun eq => fresh (eq ▸ hl)
        simp only [setInfo, update_of_ne other] at eq
        exact .inr ⟨mem_cons_of_mem _ hl, new, eq, set⟩

section

variable {ch : Nat → Option ChunkInfo → Except String ChunkInfo}

/-- A loop that runs to its end has changed every vector it was to visit. -/
theorem changeVectors_ok {m : RowVersionManager} {is : List Nat} (nd : is.Nodup)
    (ok : m.changeVectors ch is = (m', .ok ())) {v : Nat} (visited : v ∈ is) :
    ∃ info, ch v (m.vectorInfo v) = .ok info ∧ m'.vectorInfo v = some info := by
  have cases := changeVectors_vectorInfo ch m nd v
  rw [ok] at cases
  rcases cases with ⟨-, failed⟩ | ⟨-, changed⟩
  · exact absurd rfl (failed visited)
  · exact changed

/-- A loop whose body accepts every vector it is to visit runs to its end. -/
theorem changeVectors_accepted (nd : is.Nodup)
    (accepted : ∀ v ∈ is, ∃ info, ch v (manager.vectorInfo v) = .ok info) :
    (manager.changeVectors ch is).2 = .ok () := by
  induction is generalizing manager with
  | nil => rfl
  | cons head rest ih =>
    obtain ⟨new, nodupRest⟩ := nodup_cons.mp nd
    obtain ⟨info, hch⟩ := accepted head mem_cons_self
    unfold changeVectors
    simp only [hch]
    refine ih nodupRest fun v hl => ?_
    have other : v ≠ head := fun eq => new (eq ▸ hl)
    simp only [setInfo, update_of_ne other]
    exact accepted v (mem_cons_of_mem _ hl)

theorem changeVectors_fields (is : List Nat) :
    (m.changeVectors ch is).1.start = m.start ∧
      (m.changeVectors ch is).1.hasChanges = m.hasChanges ∧
      (m.changeVectors ch is).1.storagePointers = m.storagePointers := by
  induction is generalizing m with
  | nil => exact ⟨rfl, rfl, rfl⟩
  | cons head rest ih =>
    unfold changeVectors
    cases ch head (m.vectorInfo head) with
    | error message => exact ⟨rfl, rfl, rfl⟩
    | ok info => exact ih (m.setInfo head info)

end

end RowVersionManager

/-! ### Appending -/

/-- The loop body of `AppendVersionInfo` writes the appended rows and no others. -/
theorem insertedOf_appendVectorInfo (lt : i < standardVectorSize)
    (ok : appendVectorInfo start tid first last vectorIdx cur = .ok info) :
    insertedOf (some info) i =
      if vectorStart first vectorIdx ≤ i ∧ i < vectorEnd last vectorIdx then tid
      else insertedOf cur i := by
  have wrote (info : ChunkVectorInfo) (a b : Nat) : (info.append a b tid).inserted i =
        if a ≤ i ∧ i < b then tid else info.inserted i := rfl
  unfold appendVectorInfo at ok
  simp only at ok
  split_ifs at ok with hwh
  · cases ok
    rw [if_pos (by omega)]
    rfl
  · rcases cur with _ | old | old
    · cases ok
      exact wrote _ _ _
    · cases ok
    · cases ok
      exact wrote _ _ _

theorem deletedOf_appendVectorInfo (i : Nat)
    (ok : appendVectorInfo start tid first last vectorIdx cur = .ok info) :
    deletedOf (some info) i = deletedOf cur i ∨
      (vectorStart first vectorIdx = 0 ∧ vectorEnd last vectorIdx = standardVectorSize ∧
        deletedOf (some info) i = notDeletedId) := by
  have kept (info : ChunkVectorInfo) (a b : Nat) :
      (info.append a b tid).deleted = info.deleted := by
    unfold append
    split
    · rfl
    · split <;> rfl
  unfold appendVectorInfo at ok
  simp only at ok
  split_ifs at ok with full
  · cases ok
    exact .inr ⟨full.1, full.2, rfl⟩
  · rcases cur with _ | old | old
    · cases ok
      exact .inl (by simp [deletedOf, kept, new])
    · cases ok
    · cases ok
      exact .inl (by simp [deletedOf, kept])

section

variable {m : RowVersionManager} {tid fst last r : Nat}

/-- An append, even a failed one, changes only rows of its range. -/
theorem RowVersionManager.insertedAt_appendVersionInfo
    (tid r : Nat) (ne : fst < last) :
    (m.appendVersionInfo tid fst last).1.insertedAt r = m.insertedAt r ∨
      (fst ≤ r ∧ r < last ∧ (m.appendVersionInfo tid fst last).1.insertedAt r = tid) := by
  have hiv := row_mod_lt r
  unfold RowVersionManager.insertedAt RowVersionManager.appendVersionInfo
  rcases changeVectors_vectorInfo _ _ (nodup_vectorIndexes fst last) (r / standardVectorSize)
    with ⟨eq, -⟩ | ⟨ht, info, ok, set⟩
  · rw [eq]
    exact .inl rfl
  · have wrote := insertedOf_appendVectorInfo hiv ok
    have span := vectorStart_le_iff hiv ht ne
    rw [row_eq] at span
    rw [set, wrote]
    by_cases fit : fst ≤ r ∧ r < last
    · exact .inr ⟨fit.1, fit.2, if_pos (span.mpr fit)⟩
    · exact .inl (if_neg fun bounds => fit (span.mp bounds))

/-- A successful append gives every row of its range the transaction's identifier. -/
theorem RowVersionManager.insertedAt_appendVersionInfo_ok
    (ok : m.appendVersionInfo tid fst last = (m', .ok ()))
    (lower : fst ≤ r) (upper : r < last) : m'.insertedAt r = tid := by
  have hiv := row_mod_lt r
  have ne : fst < last := by omega
  have ht : r / standardVectorSize ∈ vectorIndexes fst last := by
    rw [mem_vectorIndexes ne]
    simp only [standardVectorSize] at *
    omega
  obtain ⟨info, hch, set⟩ := changeVectors_ok (nodup_vectorIndexes fst last) ok ht
  have wrote := insertedOf_appendVectorInfo hiv hch
  have span := vectorStart_le_iff hiv ht ne
  rw [row_eq] at span
  rw [RowVersionManager.insertedAt, set, wrote, if_pos (span.mpr ⟨lower, upper⟩)]

theorem RowVersionManager.hasChanges_appendVersionInfo :
    (m.appendVersionInfo tid fst last).1.hasChanges = true :=
  (changeVectors_fields _ _).2.1

theorem RowVersionManager.deletedAt_appendVersionInfo
    (tid r : Nat) (ne : fst < last) :
    (m.appendVersionInfo tid fst last).1.deletedAt r = m.deletedAt r ∨ (fst ≤ r ∧ r < last ∧
        (m.appendVersionInfo tid fst last).1.deletedAt r = notDeletedId) := by
  have hiv := row_mod_lt r
  unfold RowVersionManager.deletedAt RowVersionManager.appendVersionInfo
  rcases changeVectors_vectorInfo _ _ (nodup_vectorIndexes fst last) (r / standardVectorSize)
    with ⟨eq, -⟩ | ⟨ht, info, ok, set⟩
  · rw [eq]
    exact .inl rfl
  · have span := vectorStart_le_iff hiv ht ne
    rw [row_eq] at span
    rw [set]
    rcases deletedOf_appendVectorInfo (r % standardVectorSize) ok with eq | ⟨zero, full, new⟩
    · exact .inl eq
    · have fit := span.mp ⟨by omega, by omega⟩
      exact .inr ⟨fit.1, fit.2, new⟩

end

/-! ### Committing and reverting an append -/

/-- The loop body of `CommitAppend` leaves delete identifiers alone and gives an
insert identifier only the commit's. -/
theorem commitVectorInfo_identifiers (i : Nat)
    (ok : commitVectorInfo cid first last vectorIdx cur = .ok info) :
    deletedOf (some info) i = deletedOf cur i ∧
      (insertedOf (some info) i = insertedOf cur i ∨ insertedOf (some info) i = cid) := by
  rcases cur with _ | old | old
  · cases ok
  · cases ok
    exact ⟨rfl, .inr rfl⟩
  · cases ok
    refine ⟨rfl, ?_⟩
    by_cases fit : vectorStart first vectorIdx ≤ i ∧ i < vectorEnd last vectorIdx
    · exact .inr (if_pos fit)
    · exact .inl (if_neg fit)

namespace RowVersionManager

/-- Committing an append changes a vector's info, if at all, by `CommitAppend`. -/
theorem vectorInfo_commitAppend (cid fst n v : Nat) :
    (m.commitAppend cid fst n).1.vectorInfo v = m.vectorInfo v ∨
      ∃ old, m.vectorInfo v = some old ∧ ∃ a b, (m.commitAppend cid fst n).1.vectorInfo v =
          some (old.commitAppend cid a b) := by
  unfold commitAppend
  split
  · exact .inl rfl
  · rcases changeVectors_vectorInfo (commitVectorInfo cid fst (fst + n)) m
      (nodup_vectorIndexes fst (fst + n)) v with ⟨kept, -⟩ | ⟨_, new, done, set⟩
    · exact .inl kept
    · cases cur : m.vectorInfo v with
      | none =>
        rw [cur] at done
        cases done
      | some old =>
        rw [cur] at done
        cases done
        exact .inr ⟨old, rfl, _, _, set⟩

theorem fields_commitAppend (cid fst n : Nat) :
    (m.commitAppend cid fst n).1.start = m.start ∧
      (m.commitAppend cid fst n).1.hasChanges = m.hasChanges ∧
      (m.commitAppend cid fst n).1.storagePointers = m.storagePointers := by
  unfold commitAppend
  split
  · exact ⟨rfl, rfl, rfl⟩
  · exact changeVectors_fields _ _

theorem identifiers_commitAppend (r : Nat) :
    (manager.commitAppend cid first n).1.deletedAt r = manager.deletedAt r ∧
      ((manager.commitAppend cid first n).1.insertedAt r = manager.insertedAt r ∨
        (manager.commitAppend cid first n).1.insertedAt r = cid) := by
  unfold commitAppend
  split
  · exact ⟨rfl, .inl rfl⟩
  · unfold deletedAt insertedAt
    rcases changeVectors_vectorInfo _ _ (nodup_vectorIndexes first (first + n))
      (r / standardVectorSize) with ⟨eq, -⟩ | ⟨_, info, ok, set⟩
    · rw [eq]
      exact ⟨rfl, .inl rfl⟩
    · rw [set]
      exact commitVectorInfo_identifiers _ ok

/-- Reverting an append drops whole vectors, all of them past the rows that
stay. -/
theorem vectorInfo_revertAppend {lo : Nat} (stays : row < lo) :
    (m.revertAppend lo).vectorInfo (row / standardVectorSize) =
      m.vectorInfo (row / standardVectorSize) := by
  refine if_neg ?_
  simp only [standardVectorSize]
  omega

theorem vectorInfo_revertAppend_cases (lo v : Nat) :
    (m.revertAppend lo).vectorInfo v = none ∨
      (m.revertAppend lo).vectorInfo v = m.vectorInfo v := by
  simp only [revertAppend]
  split
  · exact .inl rfl
  · exact .inr rfl

/-! ### Deleting -/

theorem getVectorInfo_inserted (v i : Nat) :
    (m.getVectorInfo v).inserted i = insertedOf (m.vectorInfo v) i := by
  unfold getVectorInfo
  rcases m.vectorInfo v with _ | info | info <;> rfl

/-- A constant info loses its delete identifier on the way to a vector info. -/
theorem getVectorInfo_deleted (v i : Nat) :
    (m.getVectorInfo v).deleted i = deletedOf (m.vectorInfo v) i ∨
      (m.getVectorInfo v).deleted i = notDeletedId := by
  unfold getVectorInfo
  rcases m.vectorInfo v with _ | info | info
  · exact .inl rfl
  · exact .inr rfl
  · exact .inl rfl

theorem vectorInfo_deleteRows (vi tid : Nat) (rows : List Nat) (v : Nat) :
    (m.deleteRows vi tid rows).1.vectorInfo v = if v = vi then
        some (.vector ((m.getVectorInfo vi).delete tid rows).1)
      else m.vectorInfo v := by
  by_cases here : v = vi
  · subst here
    simp [deleteRows, setInfo]
  · simp [deleteRows, setInfo, here]

theorem vectorInfo_commitDelete (vi cid : Nat) (rc : DeleteInfo) (v : Nat) :
    (m.commitDelete vi cid rc).vectorInfo v = if v = vi then
        some (.vector ((m.getVectorInfo vi).commitDelete cid rc))
      else m.vectorInfo v := by
  by_cases here : v = vi
  · subst here
    simp [commitDelete, setInfo]
  · simp [commitDelete, setInfo, here]

end RowVersionManager

theorem ChunkVectorInfo.delete_inserted (info : ChunkVectorInfo) (tid : Nat)
    (rows : List Nat) : (info.delete tid rows).1 =
      { info with anyDeleted := true, deleted := (info.delete tid rows).1.deleted } :=
  (deleteLoop_fields tid { info with anyDeleted := true } [] rows).1

namespace RowVersionManager

theorem insertedAt_deleteRows (v tid : Nat) (rows : List Nat) (r : Nat) :
    (m.deleteRows v tid rows).1.insertedAt r = m.insertedAt r := by
  unfold insertedAt
  rw [vectorInfo_deleteRows]
  split_ifs with here
  · rw [delete_inserted, here]
    exact m.getVectorInfo_inserted v _
  · rfl

theorem insertedAt_commitDelete (v cid : Nat) (rc : DeleteInfo) (r : Nat) :
    (m.commitDelete v cid rc).insertedAt r = m.insertedAt r := by
  unfold insertedAt
  rw [vectorInfo_commitDelete]
  split_ifs with here
  · rw [here]
    exact m.getVectorInfo_inserted v _
  · rfl

/-- A delete, even one that ends in a conflict, leaves a row's delete identifier
alone, clears it or sets it to the transaction's. -/
theorem deletedAt_deleteRows (v tid : Nat) (rows : List Nat) (r : Nat) :
    (m.deleteRows v tid rows).1.deletedAt r = m.deletedAt r ∨
      (m.deleteRows v tid rows).1.deletedAt r = notDeletedId ∨
      (m.deleteRows v tid rows).1.deletedAt r = tid := by
  unfold deletedAt
  rw [vectorInfo_deleteRows]
  split_ifs with here
  · rcases (deleteLoop_fields tid { m.getVectorInfo v with anyDeleted := true } [] rows).2
      (r % standardVectorSize) with eq | ⟨_, _, hm⟩
    · rcases m.getVectorInfo_deleted v (r % standardVectorSize) with old | cleared
      · exact .inl (eq.trans (here ▸ old))
      · exact .inr (.inl (eq.trans cleared))
    · exact .inr (.inr hm)
  · exact .inl rfl

theorem deletedAt_commitDelete (v cid : Nat) (rc : DeleteInfo) (r : Nat) :
    (m.commitDelete v cid rc).deletedAt r = m.deletedAt r ∨
      (m.commitDelete v cid rc).deletedAt r = notDeletedId ∨
      (m.commitDelete v cid rc).deletedAt r = cid := by
  unfold deletedAt
  rw [vectorInfo_commitDelete]
  split_ifs with here
  · have stamped := stampRows_apply (m.getVectorInfo v).deleted rc.targets
      cid (r % standardVectorSize)
    by_cases target : r % standardVectorSize ∈ rc.targets
    · rw [if_pos target] at stamped
      exact .inr (.inr stamped)
    · rw [if_neg target] at stamped
      rcases m.getVectorInfo_deleted v (r % standardVectorSize) with old | cleared
      · exact .inl (stamped.trans (here ▸ old))
      · exact .inr (.inl (stamped.trans cleared))
  · exact .inl rfl

/-! ### Rows after an operation, exactly

The lemmas above hold of any manager. Where the infos are as an ordinary run
leaves them, the row identifiers after each operation are known exactly. -/

/-- A constant info of this vector, if there is one, has no delete to lose. -/
def Spreadable (manager : RowVersionManager) (vectorIdx : Nat) : Prop :=
  ∀ info, manager.vectorInfo vectorIdx = some (.constant info) → info.deleteId = notDeletedId

section

variable {m : RowVersionManager} {v : Nat} (spreadable : m.Spreadable v)
include spreadable

theorem Spreadable.getVectorInfo_deleted (i : Nat) :
    (m.getVectorInfo v).deleted i = deletedOf (m.vectorInfo v) i := by
  unfold getVectorInfo
  cases cur : m.vectorInfo v with
  | none => rfl
  | some info =>
    cases info with
    | constant info => exact (spreadable info cur).symm
    | vector info => rfl

/-- A delete, whether or not it goes through, marks rows that nobody had deleted. -/
theorem Spreadable.deletedAt_deleteRows (tid : Nat) (rows : List Nat) (r : Nat) :
    (m.deleteRows v tid rows).1.deletedAt r = m.deletedAt r ∨
      (r / standardVectorSize = v ∧ r % standardVectorSize ∈ rows ∧
        m.deletedAt r = notDeletedId ∧ (m.deleteRows v tid rows).1.deletedAt r = tid) := by
  unfold deletedAt
  rw [vectorInfo_deleteRows]
  split_ifs with here
  · have pre := spreadable.getVectorInfo_deleted (r % standardVectorSize)
    rcases (deleteLoop_fields tid { m.getVectorInfo v with anyDeleted := true } [] rows).2
      (r % standardVectorSize) with eq | ⟨listed, free, hm⟩
    · exact .inl (eq.trans (here ▸ pre))
    · exact .inr ⟨here, listed, here ▸ pre.symm.trans free, hm⟩
  · exact .inl rfl

theorem Spreadable.deletedAt_deleteRows_ok {rows out : List Nat}
    (ok : (m.deleteRows v tid rows).2 = .ok out) (r : Nat) :
    (m.deleteRows v tid rows).1.deletedAt r =
        (if r / standardVectorSize = v ∧ r % standardVectorSize ∈ out then tid
        else m.deletedAt r) ∧
      (r / standardVectorSize = v ∧ r % standardVectorSize ∈ out →
        r % standardVectorSize ∈ rows ∧ m.deletedAt r = notDeletedId) := by
  obtain ⟨hm, out_eq, new, -, res⟩ := deleteLoop_ok ok
  rw [nil_append] at out_eq
  subst out_eq
  unfold deletedAt
  rw [vectorInfo_deleteRows]
  have pre := spreadable.getVectorInfo_deleted (r % standardVectorSize)
  constructor
  · split
    · rename_i here
      simp only [here, true_and]
      exact (res _).trans (by rw [pre])
    · rename_i ne
      rw [if_neg fun both => ne both.1]
  · rintro ⟨here, listed⟩
    obtain ⟨inRows, free⟩ := new _ listed
    exact ⟨inRows, here ▸ pre.symm.trans free⟩

end

theorem Spreadable.deletedAt_commitDelete {rc : DeleteInfo}
    (spreadable : manager.Spreadable rc.vectorIdx) (cid r : Nat) :
    (manager.commitDelete rc.vectorIdx cid rc).deletedAt r =
      if r / standardVectorSize = rc.vectorIdx ∧ r % standardVectorSize ∈ rc.targets
      then cid else manager.deletedAt r := by
  unfold deletedAt
  rw [vectorInfo_commitDelete]
  have pre := spreadable.getVectorInfo_deleted (r % standardVectorSize)
  split
  · rename_i here
    simp only [here, true_and]
    exact (stampRows_apply _ _ _ _).trans (by rw [pre])
  · rename_i ne
    rw [if_neg fun both => ne both.1]

/-- Committing an append whose rows all carry one identifier, which no row before
them carries, stamps these rows and leaves the rows before them alone. -/
theorem insertedAt_commitAppend {id : Nat}
    (appended : ∀ row, first ≤ row → row < last → manager.insertedAt row = id) (proper : id ≠ 0)
    (apart : ∀ row < first, manager.insertedAt row ≠ id) (lt : row < last) :
    (manager.commitAppend cid first (last - first)).1.insertedAt row =
      if first ≤ row then cid else manager.insertedAt row := by
  unfold commitAppend
  split
  · rw [if_neg (by omega)]
  have ne : first < last := by omega
  rw [show first + (last - first) = last by omega]
  have nd := nodup_vectorIndexes first last
  have hac : ∀ v ∈ vectorIndexes first last,
      ∃ info, commitVectorInfo cid first last v (manager.vectorInfo v) = .ok info := by
    intro v ht
    cases cur : manager.vectorInfo v with
    | some info => exact ⟨_, rfl⟩
    | none =>
      -- some row of the append lies in this vector, and its identifier is not zero
      rw [mem_vectorIndexes ne] at ht
      obtain ⟨row, lower, upper, here⟩ : ∃ row, first ≤ row ∧ row < last ∧
          row / standardVectorSize = v := by
        refine ⟨max first (v * standardVectorSize), le_max_left _ _, ?_, ?_⟩ <;>
          simp only [standardVectorSize] at * <;> omega
      have := appended row lower upper
      rw [insertedAt, here, cur] at this
      exact absurd this.symm proper
  have ran : manager.changeVectors (commitVectorInfo cid first last)
      (vectorIndexes first last) = ((manager.changeVectors (commitVectorInfo cid first last)
          (vectorIndexes first last)).1, .ok ()) :=
    Prod.ext rfl (changeVectors_accepted nd hac)
  have hiv := row_mod_lt row
  by_cases ht : row / standardVectorSize ∈ vectorIndexes first last
  · obtain ⟨info, hch, set⟩ := changeVectors_ok nd ran ht
    have span := vectorStart_le_iff hiv ht ne
    rw [row_eq] at span
    rw [insertedAt, set]
    rw [insertedAt]
    cases cur : manager.vectorInfo (row / standardVectorSize) with
    | none =>
      rw [cur] at hch
      cases hch
    | some old =>
      rw [cur] at hch
      cases hch
      cases old with
      | vector old =>
        simp only [ChunkInfo.commitAppend, insertedOf, ChunkVectorInfo.commitAppend,
          stampRange, span, lt, and_true]
      | constant old =>
        -- a constant info gives all rows of the vector the identifier of the append
        have shared : manager.insertedAt row = id := by
          rw [mem_vectorIndexes ne] at ht
          obtain ⟨o, lower, upper, here⟩ : ∃ o, first ≤ o ∧ o < last ∧
              o / standardVectorSize = row / standardVectorSize := by
            refine ⟨max first (row / standardVectorSize * standardVectorSize),
              le_max_left _ _, ?_, ?_⟩ <;> simp only [standardVectorSize] at * <;> omega
          rw [← appended o lower upper, insertedAt, insertedAt, here, cur]
          rfl
        rw [if_pos (by
          by_contra pre
          exact apart row (Nat.lt_of_not_le pre) shared)]
        rfl
  · rw [mem_vectorIndexes ne] at ht
    have pre : ¬ first ≤ row := by
      have := row_eq row
      simp only [standardVectorSize] at *
      omega
    rw [if_neg pre, insertedAt]
    rcases changeVectors_vectorInfo (commitVectorInfo cid first last) manager nd
      (row / standardVectorSize) with ⟨eq, -⟩ | ⟨visited, _⟩
    · rw [eq]
      rfl
    · rw [mem_vectorIndexes ne] at visited
      omega

end RowVersionManager

end AccessPath
