import AccessPath.Transaction.Header
import AccessPath.Update.UpdateInfo

/-!
# Update segments and the transactions that use them

`UpdateSegment` keeps, for each vector of a column, a base info with the newest
values and a chain of infos, newest first, in which transactions keep the values
that they have overwritten. Commit and rollback go through the infos of a
transaction one by one, under `transaction_lock`.
-/

namespace AccessPath

open Library List

variable {T V : Type}

/-! ## `SortSelectionVector` -/

/-- `std::sort` of positions by their ids. Which of two positions with the same id
comes first is up to the implementation. -/
structure SortByIds where
  sort : (Nat → Nat) → List Nat → List Nat
  perm : ∀ ids sel, (sort ids sel).Perm sel
  sorted : ∀ ids sel, (sort ids sel).Pairwise fun l r => ids l ≤ ids r

/-- Insertion sort is one. -/
def SortByIds.insertion : SortByIds where
  sort := fun ids sel => sel.insertionSort fun l r => ids l ≤ ids r
  perm := fun ids sel => perm_insertionSort _ sel
  sorted := fun ids sel => by
    have total : Std.Total fun l r => ids l ≤ ids r := ⟨fun l r => Nat.le_total (ids l) (ids r)⟩
    have trans : IsTrans Nat fun l r => ids l ≤ ids r := ⟨fun _ _ _ => Nat.le_trans⟩
    exact pairwise_insertionSort _ sel

def isSorted (ids : Nat → Nat) : List Nat → Bool
  | prev :: next :: rest =>
    if ids next ≤ ids prev then false else isSorted ids (next :: rest)
  | _ => true

/-- The loop that keeps a position if its id differs from the one before. -/
def eliminateDuplicates (ids : Nat → Nat) (prev : Nat) : List Nat → List Nat
  | [] => []
  | next :: rest =>
    if ids prev ≠ ids next then next :: eliminateDuplicates ids next rest
    else eliminateDuplicates ids next rest

def sortSelectionVector (σ : SortByIds) (ids : Nat → Nat) (sel : List Nat) : List Nat :=
  if isSorted ids sel then sel
  else
    match σ.sort ids sel with
    | [] => []
    | first :: rest => first :: eliminateDuplicates ids first rest

theorem pairwise_of_isSorted {ids : Nat → Nat} {sel : List Nat} (srt : isSorted ids sel = true) :
    sel.Pairwise fun l r => ids l < ids r := by
  induction sel with
  | nil => exact List.Pairwise.nil
  | cons prev rest ih =>
    cases rest with
    | nil => exact pairwise_singleton _ _
    | cons next rest =>
      rw [isSorted] at srt
      split_ifs at srt with hi
      have tail := ih srt
      refine pairwise_cons.mpr ⟨fun o got => ?_, tail⟩
      have first : ids prev < ids next := Nat.lt_of_not_le hi
      rcases mem_cons.mp got with rfl | got
      · exact first
      · exact first.trans ((pairwise_cons.mp tail).1 o got)

theorem eliminateDuplicates_spec {ids : Nat → Nat} {prev : Nat} {sel : List Nat}
    (srt : (prev :: sel).Pairwise fun l r => ids l ≤ ids r) :
    (prev :: eliminateDuplicates ids prev sel).Pairwise (fun l r => ids l < ids r) ∧
      (∀ i ∈ eliminateDuplicates ids prev sel, i ∈ sel) ∧
      ∀ i ∈ prev :: sel, ∃ j ∈ prev :: eliminateDuplicates ids prev sel, ids j = ids i := by
  induction sel generalizing prev with
  | nil =>
    refine ⟨pairwise_singleton _ _, fun i got => got, fun i got => ⟨i, got, rfl⟩⟩
  | cons next rest ih =>
    obtain ⟨hi, srt⟩ := pairwise_cons.mp srt
    obtain ⟨asc, subset, hc⟩ := ih srt
    have le := hi next mem_cons_self
    rw [eliminateDuplicates]
    split_ifs with hne
    · have lt : ids prev < ids next := Nat.lt_of_le_of_ne le hne
      refine ⟨pairwise_cons.mpr ⟨fun i got => ?_, asc⟩, fun i got => ?_,
        fun i got => ?_⟩
      · rcases mem_cons.mp got with rfl | got
        · exact lt
        · exact lt.trans ((pairwise_cons.mp asc).1 i got)
      · rcases mem_cons.mp got with rfl | got
        · exact mem_cons_self
        · exact mem_cons_of_mem _ (subset i got)
      · rcases mem_cons.mp got with rfl | got
        · exact ⟨i, mem_cons_self, rfl⟩
        · obtain ⟨j, kept, same⟩ := hc i got
          exact ⟨j, mem_cons_of_mem _ kept, same⟩
    · rw [ne_eq, not_not] at hne
      refine ⟨pairwise_cons.mpr ⟨fun i got => ?_, (pairwise_cons.mp asc).2⟩,
        fun i got => mem_cons_of_mem _ (subset i got), fun i got => ?_⟩
      · exact hne ▸ (pairwise_cons.mp asc).1 i got
      · rcases mem_cons.mp got with rfl | got
        · exact ⟨i, mem_cons_self, rfl⟩
        · obtain ⟨j, kept, heq⟩ := hc i got
          rcases mem_cons.mp kept with rfl | kept
          · exact ⟨prev, mem_cons_self, hne.trans heq⟩
          · exact ⟨j, mem_cons_of_mem _ kept, heq⟩

/-- The selection ends up sorted and without duplicates, and has the same ids. -/
theorem sortSelectionVector_spec (σ : SortByIds) (ids : Nat → Nat) (sel : List Nat) :
    (sortSelectionVector σ ids sel).Pairwise (fun l r => ids l < ids r) ∧
      (∀ i ∈ sortSelectionVector σ ids sel, i ∈ sel) ∧
      ∀ i ∈ sel, ∃ j ∈ sortSelectionVector σ ids sel, ids j = ids i := by
  unfold sortSelectionVector
  split_ifs with srt
  · exact ⟨pairwise_of_isSorted srt, fun i got => got, fun i got => ⟨i, got, rfl⟩⟩
  · have perm := σ.perm ids sel
    have srt := σ.sorted ids sel
    cases arranged : σ.sort ids sel with
    | nil =>
      rw [arranged] at perm
      rw [perm.nil_eq.symm]
      exact ⟨List.Pairwise.nil, fun i got => got, fun i got => (by cases got)⟩
    | cons fst rest =>
      rw [arranged] at perm srt
      obtain ⟨asc, subset, hc⟩ := eliminateDuplicates_spec srt
      refine ⟨asc, fun i got => perm.mem_iff.mp ?_, fun i got => ?_⟩
      · rcases mem_cons.mp got with rfl | got
        · exact mem_cons_self
        · exact mem_cons_of_mem _ (subset i got)
      · exact hc i (perm.mem_iff.mpr got)

/-! ## Chains -/

/-- The infos of one vector: the base info and, following its `next` pointer, those
of transactions. -/
structure UpdateChain (V : Type) where
  base : UpdateInfo V
  nodes : List (UpdateInfo V)

/-- `CheckForConflicts` from one info on: whether it throws. -/
def checkForConflicts (transaction : TransactionData) (ids : List Nat) : List (UpdateInfo V) → Bool
  | [] => false
  | info :: next =>
    if info.versionNumber = transaction.transactionId then
      checkForConflicts transaction ids next
    else if transaction.startTime < info.versionNumber then
      conflictLoop ids (info.tuples.map Prod.fst) || checkForConflicts transaction ids next
    else checkForConflicts transaction ids next

/-- The search for the info of a transaction, with what is done to it. -/
def mergeIntoOwn (transactionId : Nat) (merge : UpdateInfo V → UpdateInfo V) :
    List (UpdateInfo V) → Option (List (UpdateInfo V))
  | [] => none
  | node :: next =>
    if node.versionNumber = transactionId then some (merge node :: next)
    else (mergeIntoOwn transactionId merge next).map (node :: ·)

/-- `MergeUpdateLoopInternal`: the base info gets the new values, the info of the transaction the
old ones of the rows that it does not have. -/
def mergeUpdates (table : Nat → V) (updates : List (Nat × V)) (base own : UpdateInfo V) :
    UpdateInfo V × UpdateInfo V :=
  ({ base with tuples := mergeLoop updates base.tuples },
    { own with tuples := mergeOldValues table (updates.map Prod.fst) own.tuples base.tuples })

/-- `Update` of a vector that has infos. Without a transaction (as local storage
calls it) the new info is not kept, and neither is the rest of the chain. -/
def UpdateChain.update (chain : UpdateChain V) (transaction : TransactionData)
    (hasTransaction : Bool) (table : Nat → V) (updates : List (Nat × V)) :
    Except String (UpdateChain V) :=
  if checkForConflicts transaction (updates.map Prod.fst) chain.nodes then
    .error "Conflict on update!"
  else
    let merge := fun node => (mergeUpdates table updates chain.base node).2
    let base := (mergeUpdates table updates chain.base chain.base).1
    match mergeIntoOwn transaction.transactionId merge chain.nodes with
    | some nodes => .ok ⟨base, nodes⟩
    | none =>
      let node := merge ⟨transaction.transactionId, transaction.transactionId, []⟩
      .ok ⟨base, if hasTransaction then node :: chain.nodes else []⟩

/-- `Update` of a vector that has none. -/
def UpdateChain.create (transaction : TransactionData) (hasTransaction : Bool)
    (initialValue : Nat → V) (updates : List (Nat × V)) : UpdateChain V where
  base := ⟨0, transactionIdStart - 1, updates⟩
  nodes :=
    if hasTransaction then
      [⟨transaction.transactionId, transaction.transactionId,
        updates.map fun tuple => (tuple.1, initialValue tuple.1)⟩]
    else []

/-- `UpdatesForTransaction` with the merge of a fetch as callback. -/
def updatesForTransaction (kind : UpdateKind) (startTime transactionId : Nat)
    (infos : List (UpdateInfo V)) (result : Nat → V) : Nat → V :=
  infos.foldl (fun result info =>
    if startTime < info.versionNumber ∧ info.versionNumber ≠ transactionId then
      kind.mergeUpdateInfo info result
    else result) result

/-- `UpdateSegment::RollbackUpdate` of the info of a transaction. -/
def UpdateChain.rollback (chain : UpdateChain V) (owner : Nat) : UpdateChain V :=
  match chain.nodes.find? (·.owner = owner) with
  | none => chain
  | some info =>
    { base := { chain.base with tuples := rollbackUpdate info.tuples chain.base.tuples }
      nodes := chain.nodes.eraseP (·.owner = owner) }

/-- `UpdateSegment::CleanupUpdate` of the info of a transaction. -/
def UpdateChain.cleanup (chain : UpdateChain V) (owner : Nat) : UpdateChain V :=
  { chain with nodes := chain.nodes.eraseP (·.owner = owner) }

/-- The version number of the info of a transaction is replaced (`CommitEntry` or
`RevertCommit` for an update). -/
def UpdateChain.setVersion (chain : UpdateChain V) (owner version : Nat) : UpdateChain V :=
  { chain with
    nodes := chain.nodes.map fun node =>
      if node.owner = owner then { node with versionNumber := version } else node }

def UpdateChain.HasOwner (chain : UpdateChain V) (owner : Nat) : Prop :=
  ∃ node ∈ chain.nodes, node.owner = owner

instance UpdateChain.decidableHasOwner (chain : UpdateChain V) (owner : Nat) :
    Decidable (chain.HasOwner owner) :=
  inferInstanceAs (Decidable (∃ node ∈ chain.nodes, _))

/-! ## `UpdateSegment::Update` -/

/-- The arguments of a call: the row ids and, at the same positions, the new values.
`memory` is what the memory of a new info contains. -/
structure UpdateCall (kind : UpdateKind) (T : Type) where
  ids : List Nat
  update : FlatVector T
  memory : Nat → kind.Value T

variable {kind : UpdateKind}

def UpdateCall.idAt (call : UpdateCall kind T) (i : Nat) : Nat := call.ids.getD i 0

/-- The positions whose values are stored, in the order of their ids. -/
def UpdateCall.selected (call : UpdateCall kind T) (σ : SortByIds) : List Nat :=
  sortSelectionVector σ call.idAt (kind.statisticsUpdate call.update call.ids.length)

def UpdateCall.updates (call : UpdateCall kind T) (vectorOffset : Nat) (sel : List Nat) :
    List (Nat × kind.Value T) :=
  sel.map fun i => (call.idAt i - vectorOffset, kind.extract call.update i)

/-- The infos of all vectors of a column. -/
abbrev UpdateSegment (kind : UpdateKind) (T : Type) := Nat → Option (UpdateChain (kind.Value T))

def UpdateSegment.update (σ : SortByIds) (segment : UpdateSegment kind T)
    (stored : Nat → FlatVector T) (transaction : TransactionData) (hasTransaction : Bool)
    (call : UpdateCall kind T) : Except String (UpdateSegment kind T) :=
  match call.selected σ with
  | [] => .ok segment
  | first :: rest =>
    let vectorIndex := call.idAt first / standardVectorSize
    let vectorOffset := vectorIndex * standardVectorSize
    let updates := call.updates vectorOffset (first :: rest)
    let base := stored vectorIndex
    match segment vectorIndex with
    | some chain =>
      (chain.update transaction hasTransaction (kind.extract base) updates).map fun chain =>
        Function.update segment vectorIndex (some chain)
    | none =>
      let chain := UpdateChain.create transaction hasTransaction
        (kind.initialValue base call.memory) updates
      .ok (Function.update segment vectorIndex (some chain))

/-- `FetchUpdates` into a vector that has been scanned from the table. -/
def UpdateSegment.fetchUpdates (segment : UpdateSegment kind T) (transaction : TransactionData)
    (vectorIndex : Nat) (result : Nat → kind.Value T) : Nat → kind.Value T :=
  match segment vectorIndex with
  | none => result
  | some chain =>
    updatesForTransaction kind transaction.startTime transaction.transactionId
      (chain.base :: chain.nodes) result

end AccessPath
