import AccessPath.Storage.BlockReuse

/-!
# Runs of the block manager

`WriteHeader` takes blocks for the free list and gives blocks of metadata back, so that a run of the
block manager is a run of smaller steps. What each of them keeps is kept by every run.
-/

namespace AccessPath.Storage

open Library List Option Function Nat

variable {block : Nat} {t t' : Tracked}

/-! ## Small steps -/

/-- The blocks of the metadata manager. -/
def MetadataManager.ids (metadata : MetadataManager) : List Nat := metadata.blocks.map Prod.fst

/-- The steps that operations are made of. -/
inductive Small : Tracked → Tracked → Prop
  | getFreeBlockId (t : Tracked) : Small t t.getFreeBlockId.2
  | increase {t : Tracked} {block : Nat} (used : 0 < t.references block)
      (fits : t.references block + 1 < 2 ^ 32) : Small t (t.increaseBlockReferenceCount block)
  | modified {t : Tracked} {block : Nat} (used : 0 < t.references block)
      (own : block ∈ t.metadata.ids → 1 < t.references block) :
      Small t (t.markBlockAsModified block)
  | free {t t' : Tracked} {block : Nat} (used : 0 < t.references block)
      (handed : block ∈ t.handedOut) (own : block ∉ t.metadata.ids)
      (freed : t.markBlockAsFree block = some t') : Small t t'
  | truncate (t : Tracked) : Small t t.truncate
  | header (t : Tracked) : Small t t.header
  | metadata {t : Tracked} (metadata : MetadataManager)
      (owned : ∀ block ∈ metadata.ids, 0 < t.references block) : Small t { t with metadata }

abbrev SmallSteps : Tracked → Tracked → Prop := Relation.ReflTransGen Small

theorem Small.consistent (step : Small t t') (ok : Consistent t) : Consistent t' := by
  cases step with
  | getFreeBlockId => exact ok.getFreeBlockId
  | increase used fits => exact ok.increaseBlockReferenceCount used fits
  | modified used own => exact ok.markBlockAsModified used own
  | free used handed own freed => exact ok.markBlockAsFree used handed own freed
  | truncate => exact ok.truncate
  | header => exact ok.header
  | metadata metadata owned =>
    exact ⟨ok.good, ok.handed, owned, ok.safe⟩

theorem SmallSteps.consistent (steps : SmallSteps t t') (ok : Consistent t) : Consistent t' := by
  induction steps with
  | refl => exact ok
  | tail _ step ih => exact step.consistent ih

/-! ## Metadata -/

/-- What was in use at the last checkpoint is in blocks that are still there. -/
structure MetadataManager.Valid (metadata : MetadataManager) : Prop where
  distinct : metadata.ids.Nodup
  modified_distinct : (metadata.modifiedBlocks.map Prod.fst).Nodup
  modified_known : ∀ block ∈ metadata.modifiedBlocks.map Prod.fst, block ∈ metadata.ids

/-! ## The writer of the free list -/

namespace FreeListBlockWriter

/-- What can still be written. -/
def room (writer : FreeListBlockWriter) : Nat :=
  writer.capacity - writer.offset + writer.left * (metadataBlockSize - 8)

/-- A value for which there is room is written, in one or more blocks. -/
theorem writeLoop_spec {left offset capacity writeSize : Nat} (inside : offset ≤ capacity)
    (fits : writeSize ≤ room ⟨left, offset, capacity⟩) :
    ∃ writer, writeLoop left offset capacity writeSize = some writer ∧
      writer.offset ≤ writer.capacity ∧
      writer.room + writeSize = room ⟨left, offset, capacity⟩ := by
  have size : metadataBlockSize = 4088 := rfl
  simp only [room, size] at fits ⊢
  induction left generalizing offset capacity writeSize with
  | zero =>
    have here : offset + writeSize ≤ capacity := by omega
    rw [writeLoop, if_pos here]
    exact ⟨_, rfl, here, by dsimp only; omega⟩
  | succ left ih =>
    rw [writeLoop]
    split_ifs with here
    · exact ⟨_, rfl, here, by dsimp only; omega⟩
    · obtain ⟨writer, written, inside', rest⟩ := ih (show 8 ≤ metadataBlockSize by decide)
        (show writeSize - (capacity - offset) ≤ metadataBlockSize - 8 + left * (4088 - 8) by
          rw [size]; omega)
      refine ⟨writer, written, inside', ?_⟩
      rw [size] at rest
      omega

theorem write_spec {sizes : List Nat} {writer : FreeListBlockWriter}
    (inside : writer.offset ≤ writer.capacity) (fits : sizes.sum ≤ writer.room) :
    ∃ writer', writer.write sizes = some writer' := by
  induction sizes generalizing writer with
  | nil => exact ⟨writer, rfl⟩
  | cons writeSize sizes ih =>
    rw [List.sum_cons] at fits
    obtain ⟨next, written, inside', rest⟩ := writeLoop_spec inside ((le_add_right _ _).trans fits)
    obtain ⟨last, done⟩ := ih inside' (show sizes.sum ≤ next.room by
      have same : writer.room = next.room + writeSize := rest.symm
      omega)
    have first : writer.writeData writeSize = some next := written
    refine ⟨last, ?_⟩
    rw [write, foldlM_cons, first]
    exact done

/-- The reserved blocks suffice for values that are smaller than them together. -/
theorem write_of_sum_lt {reserved : Nat} {sizes : List Nat}
    (fits : sizes.sum < reserved * (metadataBlockSize - 8)) :
    ∃ writer writer', nextBlock reserved = some writer ∧ writer.write sizes = some writer' := by
  have size : metadataBlockSize = 4088 := rfl
  cases reserved with
  | zero => omega
  | succ left =>
    have enough : sizes.sum ≤ room ⟨left, 8, metadataBlockSize⟩ := by
      simp only [room, size] at fits ⊢
      omega
    obtain ⟨writer', written⟩ := write_spec (show 8 ≤ metadataBlockSize by decide) enough
    exact ⟨_, writer', rfl, written⟩

end FreeListBlockWriter

theorem sum_flatMap_pair {α : Type*} (a b : Nat) (l : List α) :
    (l.flatMap fun _ => [a, b]).sum = (a + b) * l.length := by
  induction l with
  | nil => rfl
  | cons e l ih =>
    rw [flatMap_cons, sum_append_nat, ih, length_cons, Nat.mul_succ, Nat.add_comm]
    rfl

namespace Tracked

variable {t : Tracked}

theorem totalSize_withBlocks (t : Tracked) (bs : List (Nat × List Nat)) :
    (t.withBlocks bs).totalSize + 16 * t.metadata.blocks.length =
      t.totalSize + 16 * bs.length := by
  rw [totalSize, totalSize]
  change 8 + 8 * (t.manager.freeList.size + t.manager.modifiedBlocks.size) +
    (8 + (8 + 4) * t.manager.multiUseBlocks.length) + (8 + (8 + 8) * bs.length) + _ = _
  omega

theorem ids_useLast (mem : block ∈ t.metadata.ids) (o : Nat) :
    o ∈ (t.useLast block).metadata.ids ↔ o ∈ t.metadata.ids :=
  mem_keys_setKey.trans (or_iff_right_of_imp fun eq => eq ▸ mem)

theorem useLast_spec (ok : Consistent t) (valid : t.metadata.Valid) (mem : block ∈ t.metadata.ids) :
    SmallSteps t (t.useLast block) ∧ (t.useLast block).metadata.Valid ∧
      (t.useLast block).totalSize ≤ t.totalSize := by
  refine ⟨.single (.metadata _ fun o kept => ?_), ⟨nodup_keys_setKey valid.distinct,
    valid.modified_distinct, fun o kept => ?_⟩, ?_⟩
  · exact ok.owned o ((ids_useLast mem o).mp kept)
  · exact (ids_useLast mem o).mpr (valid.modified_known o kept)
  · have length := length_setKey_of_mem ((t.metadata.blocks.lookup block).getD []).dropLast mem
    have tot := totalSize_withBlocks t (setKey block
      ((t.metadata.blocks.lookup block).getD []).dropLast t.metadata.blocks)
    rw [useLast]
    omega

theorem totalSize_getFreeBlockId (t : Tracked) : t.getFreeBlockId.2.totalSize ≤ t.totalSize := by
  have metadata : t.getFreeBlockId.2.metadata = t.metadata := rfl
  rw [totalSize, totalSize, metadata]
  rcases getFreeBlockId_cases t with ⟨_, -, -, m⟩ | ⟨-, -, m⟩
  · have hsm : t.manager.freeList.dropFirst.size ≤ t.manager.freeList.size :=
      (tail_sublist _).length_le
    rw [m]
    dsimp only
    omega
  · rw [m]

section

variable (ok : Consistent t) (valid : t.metadata.Valid)
include ok valid

/-- A new block is never one that the metadata manager has. -/
theorem allocateNewBlock_spec :
    ∃ block t', t.allocateNewBlock = some (block, t') ∧ SmallSteps t t' ∧ t'.metadata.Valid ∧
      block ∈ t'.metadata.ids ∧ t'.totalSize ≤ t.totalSize + 16 := by
  have hu := (getFreeBlockId_unused ok.good).1
  have unknown : t.getFreeBlockId.1 ∉ t.metadata.ids := by
    intro hk
    exact absurd (ok.owned _ hk) (Nat.not_lt_of_le hu.le)
  have absent : ¬(t.getFreeBlockId.2.metadata.blocks.lookup t.getFreeBlockId.1).isSome = true :=
    fun got => unknown (mem_keys_iff.mpr got)
  rw [allocateNewBlock, if_neg absent]
  refine ⟨_, _, rfl, ?_, ⟨nodup_keys_setKey valid.distinct, valid.modified_distinct, ?_⟩, ?_, ?_⟩
  · refine .tail (.single (.getFreeBlockId t)) (.metadata _ fun o kept => ?_)
    rcases mem_keys_setKey.mp kept with rfl | hk
    · exact Nat.one_pos.trans_eq (references_getFreeBlockId t).symm
    · exact ok.getFreeBlockId.owned o hk
  · intro o kept
    exact mem_keys_setKey.mpr (.inr (valid.modified_known o kept))
  · exact mem_keys_setKey.mpr (.inl rfl)
  · have size := totalSize_getFreeBlockId t
    have length := length_setKey_le t.getFreeBlockId.1 (range metadataBlockCount).reverse
      t.getFreeBlockId.2.metadata.blocks
    have tot := totalSize_withBlocks t.getFreeBlockId.2 (setKey t.getFreeBlockId.1
      (range metadataBlockCount).reverse t.getFreeBlockId.2.metadata.blocks)
    omega

/-- A handle is always allocated, and there is at most one more block. -/
theorem allocateHandle_spec (found : Nat) :
    ∃ t', t.allocateHandle found = some t' ∧ SmallSteps t t' ∧ t'.metadata.Valid ∧
      t'.totalSize ≤ t.totalSize + 16 := by
  unfold allocateHandle
  cases taken : (t.metadata.blocks.find? fun e => e.1 == found && !e.2.isEmpty).or
      (t.metadata.blocks.find? fun e => !e.2.isEmpty) with
  | some e =>
    obtain ⟨block, freeBlocks⟩ := e
    have known : (block, freeBlocks) ∈ t.metadata.blocks := by
      rcases or_eq_some_iff.mp taken with met | ⟨-, met⟩
      · exact mem_of_find?_eq_some met
      · exact mem_of_find?_eq_some met
    have mem : block ∈ t.metadata.ids := List.mem_map.mpr ⟨_, known, rfl⟩
    obtain ⟨steps, valid', size⟩ := useLast_spec ok valid mem
    exact ⟨_, rfl, steps, valid', size.trans (le_add_right _ _)⟩
  | none =>
    obtain ⟨_, _, allocated, steps, valid', mem, size⟩ := allocateNewBlock_spec ok valid
    obtain ⟨steps', valid'', size'⟩ := useLast_spec (steps.consistent ok) valid' mem
    rw [allocated]
    exact ⟨_, rfl, steps.trans steps', valid'', size'.trans size⟩

/-- The loop ends with more room reserved than there is to write. -/
theorem getFreeListBlocks_spec (found : Nat → Nat) {n reserved : Nat}
    (enough : t.totalSize + 2 ≤ reserved * (metadataBlockSize - 8) + n) (pos : 0 < n) :
    ∃ reserved' t', getFreeListBlocks found n reserved t = some (reserved', t') ∧
      SmallSteps t t' ∧ t'.metadata.Valid ∧
      t'.totalSize < reserved' * (metadataBlockSize - 8) := by
  have room : metadataBlockSize - 8 = 4080 := rfl
  rw [room] at enough ⊢
  induction n generalizing t reserved with
  | zero => omega
  | succ n ih =>
    rw [getFreeListBlocks, room]
    split_ifs with large
    · exact ⟨reserved, t, rfl, .refl, valid, large⟩
    · obtain ⟨t', allocated, steps, valid', _⟩ := allocateHandle_spec ok valid (found reserved)
      obtain ⟨reserved', t'', done, steps', valid'', large'⟩ := ih (steps.consistent ok) valid'
        (show t'.totalSize + 2 ≤ (reserved + 1) * 4080 + n by omega) (by omega)
      rw [allocated]
      exact ⟨reserved', t'', done, steps.trans steps', valid'', large'⟩

end

/-- A block that is given back is listed as modified, or its count becomes smaller. -/
theorem totalSize_markBlockAsModified (t : Tracked) (block : Nat) :
    (t.markBlockAsModified block).totalSize ≤ t.totalSize + 8 := by
  rw [totalSize, totalSize, Tracked.markBlockAsModified, BlockManager.markBlockAsModified]
  cases counted : t.manager.multiUseBlocks.lookup block with
  | none =>
    have inserted : (t.manager.modifiedBlocks.insert block).size ≤
        t.manager.modifiedBlocks.size + 1 := length_insertAscending_le _ _
    dsimp only
    omega
  | some n =>
    have mem : block ∈ t.manager.multiUseBlocks.map Prod.fst :=
      mem_keys_iff.mpr (isSome_of_eq_some counted)
    have kept := length_setKey_of_mem (n - 1) mem
    have erased : (eraseKey block t.manager.multiUseBlocks).length ≤
        t.manager.multiUseBlocks.length := length_filter_le _ _
    dsimp only
    split_ifs <;> omega

/-- The loop over the metadata of the last checkpoint gives back blocks that are all free, which
leaves no more to write. -/
theorem freeModified_spec {ms : List (Nat × BitVec 64)} (ok : Consistent t)
    (nd : t.metadata.ids.Nodup) (modified_distinct : (ms.map Prod.fst).Nodup)
    (sure : ∀ block ∈ ms.map Prod.fst, block ∈ t.metadata.ids) :
    ∃ t', freeModified ms t = some t' ∧ SmallSteps t t' ∧ t'.metadata.ids.Nodup ∧
      t'.totalSize ≤ t.totalSize := by
  induction ms generalizing t with
  | nil => exact ⟨t, rfl, .refl, nd, le_rfl⟩
  | cons e ms ih =>
    obtain ⟨block, modifiedList⟩ := e
    obtain ⟨hfr, modified_distinct⟩ := nodup_cons.mp modified_distinct
    have mem : block ∈ t.metadata.ids := sure block mem_cons_self
    have rest : ∀ o ∈ ms.map Prod.fst, o ∈ t.metadata.ids :=
      fun o hl => sure o (mem_cons_of_mem _ hl)
    unfold freeModified
    cases got : t.metadata.blocks.lookup block with
    | none => exact absurd mem (lookup_eq_none_iff.mp got)
    | some freeBlocks =>
      dsimp only
      split_ifs with allFree
      · have erased : Small t (t.withBlocks (eraseKey block t.metadata.blocks)) :=
          .metadata _ fun o kept => ok.owned o (mem_keys_eraseKey.mp kept).1
        have given : Small (t.withBlocks (eraseKey block t.metadata.blocks))
            ((t.withBlocks (eraseKey block t.metadata.blocks)).markBlockAsModified block) :=
          .modified (ok.owned block mem) fun kept => absurd rfl (mem_keys_eraseKey.mp kept).2
        have steps := Relation.ReflTransGen.tail (.single erased) given
        obtain ⟨t', done, steps', hd', size⟩ := ih (SmallSteps.consistent steps ok)
          (nodup_keys_eraseKey nd) modified_distinct fun o hl =>
            mem_keys_eraseKey.mpr ⟨rest o hl, fun eq => hfr (eq ▸ hl)⟩
        refine ⟨t', done, steps.trans steps', hd', size.trans ?_⟩
        have less : (eraseKey block t.metadata.blocks).length + 1 ≤ t.metadata.blocks.length :=
          length_setKey_of_mem freeBlocks mem
        have without := totalSize_withBlocks t (eraseKey block t.metadata.blocks)
        have marked := totalSize_markBlockAsModified
          (t.withBlocks (eraseKey block t.metadata.blocks)) block
        omega
      · have set : Small t (t.withBlocks (setKey block (freeBlocksFromInteger
            (freeBlocksToInteger freeBlocks ||| modifiedList)) t.metadata.blocks)) := by
          refine .metadata _ fun o kept => ?_
          rcases mem_keys_setKey.mp kept with rfl | kept
          · exact ok.owned o mem
          · exact ok.owned o kept
        obtain ⟨t', done, steps', hd', size⟩ := ih (set.consistent ok)
          (nodup_keys_setKey nd) modified_distinct
          fun o hl => mem_keys_setKey.mpr (.inr (rest o hl))
        refine ⟨t', done, .head set steps', hd', size.trans ?_⟩
        have less := length_setKey_of_mem (freeBlocksFromInteger
          (freeBlocksToInteger freeBlocks ||| modifiedList)) mem
        have changed := totalSize_withBlocks t (setKey block (freeBlocksFromInteger
          (freeBlocksToInteger freeBlocks ||| modifiedList)) t.metadata.blocks)
        omega

/-- `MarkBlocksAsModified` starts over with the blocks that are left. -/
theorem markBlocksAsModified_spec (ok : Consistent t) (valid : t.metadata.Valid) :
    ∃ t', t.markBlocksAsModified = some t' ∧ SmallSteps t t' ∧ t'.metadata.Valid ∧
      t'.totalSize ≤ t.totalSize := by
  obtain ⟨t', done, steps, nd, size⟩ := freeModified_spec ok valid.distinct
    valid.modified_distinct valid.modified_known
  have keys : (t'.metadata.blocks.map fun e =>
      (e.1, ~~~freeBlocksToInteger e.2)).map Prod.fst = t'.metadata.ids := by
    rw [List.map_map]
    rfl
  rw [markBlocksAsModified, done]
  refine ⟨_, rfl, steps.tail (.metadata _ (steps.consistent ok).owned), ⟨nd, ?_, ?_⟩, size⟩
  · rw [keys]
    exact nd
  · intro block mem
    rwa [keys] at mem

/-- The free list is written with the modified blocks in it. -/
theorem sum_freeListWrites_header_le (t : Tracked) :
    t.header.freeListWrites.sum ≤ t.totalSize := by
  have released := OrderedSet.size_insertAll_le t.manager.freeList t.manager.modifiedBlocks
  have elements : (t.header.manager.freeList.elements.map fun _ => 8).sum =
      8 * (t.manager.freeList.insertAll t.manager.modifiedBlocks).size := by
    rw [map_const', List.sum_replicate, smul_eq_mul, Nat.mul_comm]
    rfl
  have counts : t.header.manager.multiUseBlocks = t.manager.multiUseBlocks := rfl
  have metadata : t.header.metadata = t.metadata := rfl
  rw [freeListWrites, totalSize, sum_append_nat, sum_append_nat, List.sum_cons, List.sum_cons,
    List.sum_cons, elements, counts, metadata, sum_flatMap_pair, sum_flatMap_pair]
  omega

theorem writeHeader_spec (ok : Consistent t) (valid : t.metadata.Valid) (found : Nat → Nat) :
    ∃ t', t.writeHeader found = some t' ∧ SmallSteps t t' ∧ t'.metadata.Valid ∧
      t'.handedOut = [] := by
  obtain ⟨reserved, _, allocated, steps₁, valid₁, large⟩ :=
    @getFreeListBlocks_spec t ok valid found (t.totalSize + 2) 0 (by omega) (succ_pos _)
  have consistent₁ := steps₁.consistent ok
  obtain ⟨t₂, modified, steps₂, valid₂, size⟩ := markBlocksAsModified_spec consistent₁ valid₁
  have fits := ((sum_freeListWrites_header_le t₂).trans size).trans_lt large
  obtain ⟨_, _, first, written⟩ := FreeListBlockWriter.write_of_sum_lt fits
  have some_blocks : reserved ≠ 0 := by
    rintro rfl
    omega
  refine ⟨t₂.header, ?_, (steps₁.trans steps₂).tail (.header t₂), valid₂, rfl⟩
  simp [writeHeader, allocated, modified, some_blocks, first, written]

end Tracked

/-! ## When a block becomes reusable -/

/-- `GetFreeBlockId` may return the block, now or after it has handed out others. -/
def Reusable (t : Tracked) (block : Nat) : Prop :=
  block ∈ t.manager.freeList ∨ t.manager.maxBlock ≤ block

/-- All references of a block, and those that were added, have been given up before a header. -/
def Returned (references block : Nat) (events : List Event) : Prop :=
  ∃ before after, events = before ++ .header :: after ∧
    references + before.count (.increase block) ≤ before.count (.modified block)

theorem Returned.append {refs : Nat} {events : List Event}
    (returned : Returned refs block events) (more : List Event) :
    Returned refs block (events ++ more) := by
  obtain ⟨old, aft, rfl, given⟩ := returned
  exact ⟨old, aft ++ more, by rw [append_assoc, cons_append], given⟩

/-- A block that had references at some time is not reusable until it has been returned, or was
freed at once. -/
def Kept (references block : Nat) (t : Tracked) (events : List Event) : Prop :=
  .free block ∈ events ∨ Returned references block events ∨ ¬Reusable t block ∧
      t.references block + events.count (.modified block) =
        references + events.count (.increase block)

theorem Kept.append {refs : Nat} {events more : List Event} (kept : Kept refs block t events)
    (late : ¬Reusable t block → Kept (t.references block) block t' more) :
    Kept refs block t' (events ++ more) := by
  rcases kept with free | returned | ⟨hnr, _⟩
  · exact .inl (mem_append_left _ free)
  · exact .inr (.inl (returned.append more))
  · rcases late hnr with free | ⟨old, aft, rfl, _⟩ | ⟨hnr', _⟩
    · exact .inl (mem_append_right _ free)
    · refine .inr (.inl ⟨events ++ old, aft, (append_assoc _ _ _).symm, ?_⟩)
      rw [count_append, count_append]
      omega
    · refine .inr (.inr ⟨hnr', ?_⟩)
      rw [count_append, count_append]
      omega

/-- A step that does not make a block reusable, and counts its references. -/
theorem kept_of_not_reusable {t t' : Tracked} {b : Nat} {more : List Event}
    (notReusable : ¬Reusable t' b) (n : t'.references b + more.count (.modified b) =
      t.references b + more.count (.increase b)) : Kept (t.references b) b t' more :=
  .inr (.inr ⟨notReusable, n⟩)

theorem reusable_markBlockAsModified {o : Nat} :
    Reusable (t.markBlockAsModified o) block ↔ Reusable t block := by
  rw [Reusable, Reusable, Tracked.markBlockAsModified, BlockManager.markBlockAsModified]
  cases t.manager.multiUseBlocks.lookup o with
  | none => rfl
  | some n => rfl

theorem reusable_of_getFreeBlockId (reusable : Reusable t.getFreeBlockId.2 block) :
    Reusable t block := by
  rcases Tracked.getFreeBlockId_cases t with ⟨_, got, -, m⟩ | ⟨-, -, m⟩
  · rw [Reusable, m] at reusable
    exact reusable.imp_left fun free => ((OrderedSet.mem_dropFirst got).mp free).1
  · rw [Reusable, m] at reusable
    exact reusable.imp_right fun le => (le_succ _).trans le

theorem reusable_of_truncate (reusable : Reusable t.truncate block) : Reusable t block := by
  rcases reusable with free | out
  · exact .inl (Consistent.free_of_truncate free).1
  · rcases lt_or_ge block t.manager.maxBlock with file | out'
    · refine .inl (Decidable.of_not_not fun notFree => ?_)
      exact absurd (Consistent.lt_truncate file notFree) (Nat.not_lt_of_le out)
    · exact .inr out'

theorem reusable_getFreeBlockId (t : Tracked) : Reusable t t.getFreeBlockId.1 := by
  rcases Tracked.getFreeBlockId_cases t with ⟨_, got, eq, -⟩ | ⟨-, eq, -⟩
  · rw [eq]
    exact .inl (OrderedSet.mem_of_first got)
  · rw [eq]
    exact .inr le_rfl

theorem Small.kept (step : Small t t') (ok : Consistent t) : ∃ more, t'.events = t.events ++ more ∧
      ∀ block, ¬Reusable t block → Kept (t.references block) block t' more := by
  cases step with
  | getFreeBlockId =>
    refine ⟨_, rfl, fun block notReusable => ?_⟩
    have ne : block ≠ t.getFreeBlockId.1 := by
      intro eq
      exact notReusable (eq ▸ reusable_getFreeBlockId t)
    refine kept_of_not_reusable (fun reusable => ?_) ?_
    · exact notReusable (reusable_of_getFreeBlockId reusable)
    · have refs : t.getFreeBlockId.2.references block = t.references block := update_of_ne ne _ _
      rw [refs]
      rfl
  | @increase changed used fits =>
    refine ⟨[.increase changed], rfl, fun block notReusable => ?_⟩
    refine kept_of_not_reusable notReusable ?_
    rcases eq_or_ne block changed with rfl | ne
    · have refs : (t.increaseBlockReferenceCount block).references block =
          t.references block + 1 := update_self _ _ _
      rw [refs, count_singleton_self]
      rfl
    · have refs : (t.increaseBlockReferenceCount changed).references block =
          t.references block := update_of_ne ne _ _
      have none : [Event.increase changed].count (.increase block) = 0 :=
        count_eq_zero.mpr fun mem => ne (Event.increase.inj (mem_singleton.mp mem))
      rw [refs, none]
      rfl
  | @modified changed used own =>
    refine ⟨[.modified changed], rfl, fun block notReusable => ?_⟩
    refine kept_of_not_reusable (mt reusable_markBlockAsModified.mp notReusable) ?_
    rcases eq_or_ne block changed with rfl | ne
    · have refs : (t.markBlockAsModified block).references block =
          t.references block - 1 := update_self _ _ _
      rw [refs, count_singleton_self]
      exact Nat.sub_add_cancel used
    · have refs : (t.markBlockAsModified changed).references block =
          t.references block := update_of_ne ne _ _
      have none : [Event.modified changed].count (.modified block) = 0 :=
        count_eq_zero.mpr fun mem => ne (Event.modified.inj (mem_singleton.mp mem))
      rw [refs, none]
      rfl
  | @free _ changed used handed own freed =>
    obtain ⟨_, released, rfl⟩ := map_eq_some_iff.mp freed
    refine ⟨[.free changed], rfl, fun block notReusable => ?_⟩
    rcases eq_or_ne block changed with rfl | ne
    · exact .inl mem_cons_self
    · rw [BlockManager.markBlockAsFree] at released
      split_ifs at released
      cases released
      refine kept_of_not_reusable (fun reusable => notReusable ?_) ?_
      · exact reusable.imp_left fun free => (OrderedSet.mem_insert.mp free).resolve_left ne
      · exact congrArg (· + 0) (update_of_ne ne _ _)
  | truncate =>
    refine ⟨[], (append_nil _).symm, fun block notReusable => ?_⟩
    exact kept_of_not_reusable (mt reusable_of_truncate notReusable) rfl
  | header =>
    refine ⟨[.header], rfl, fun block notReusable => ?_⟩
    cases Decidable.em (block ∈ t.manager.modifiedBlocks) with
    | inl modified =>
      have unused : t.references block = 0 := ((ok.good block).modified_unused modified).1
      rw [unused]
      exact .inr (.inl ⟨[], [], rfl, le_rfl⟩)
    | inr unmodified =>
      refine kept_of_not_reusable (fun reusable => notReusable ?_) rfl
      exact reusable.imp_left fun free =>
        (OrderedSet.mem_insertAll.mp free).resolve_right unmodified
  | metadata metadata owned =>
    refine ⟨[], (append_nil _).symm, fun block notReusable => ?_⟩
    exact kept_of_not_reusable notReusable rfl

/-- No run makes a block reusable that it has not returned or freed. -/
theorem SmallSteps.kept (steps : SmallSteps t t') (ok : Consistent t) :
    ∃ more, t'.events = t.events ++ more ∧
      ∀ block, ¬Reusable t block → Kept (t.references block) block t' more := by
  induction steps with
  | refl =>
    refine ⟨[], (append_nil _).symm, fun block hnr => ?_⟩
    exact kept_of_not_reusable hnr rfl
  | tail old step ih =>
    obtain ⟨events, eq, kept⟩ := ih
    obtain ⟨more, eq', kept'⟩ := step.kept (SmallSteps.consistent old ok)
    refine ⟨events ++ more, ?_, fun block hnr => ?_⟩
    · rw [eq', eq, append_assoc]
    · exact (kept block hnr).append (kept' block)

/-! ## Operations -/

/-- The operations of the block manager. -/
inductive Operation where
  | getFreeBlockId
  | increaseBlockReferenceCount (block : Nat)
  | markBlockAsModified (block : Nat)
  | markBlockAsFree (block : Nat)
  | writeHeader (found : Nat → Nat)
  | truncate

/-- What an operation does, exceptions being `none`. -/
def Tracked.perform (t : Tracked) : Operation → Option Tracked
  | .getFreeBlockId => some t.getFreeBlockId.2
  | .increaseBlockReferenceCount block => some (t.increaseBlockReferenceCount block)
  | .markBlockAsModified block => some (t.markBlockAsModified block)
  | .markBlockAsFree block => t.markBlockAsFree block
  | .writeHeader found => t.writeHeader found
  | .truncate => some t.truncate

/-- The references of a block that are not those of the metadata manager. -/
def Tracked.otherReferences (t : Tracked) (block : Nat) : Nat :=
  t.references block - if block ∈ t.metadata.ids then 1 else 0

/-- Blocks in use get references, each of which is given up at most once, and blocks are freed at
once only if no header has been written since they were handed out. -/
def Allowed (t : Tracked) : Operation → Prop
  | .increaseBlockReferenceCount block => 0 < t.references block
  | .markBlockAsModified block => 0 < t.otherReferences block
  | .markBlockAsFree block => block ∈ t.handedOut
  | _ => True

instance (t : Tracked) : (operation : Operation) → Decidable (Allowed t operation)
  | .getFreeBlockId => instDecidableTrue
  | .increaseBlockReferenceCount block => Nat.decLt 0 (t.references block)
  | .markBlockAsModified block => Nat.decLt 0 (t.otherReferences block)
  | .markBlockAsFree block => inferInstanceAs (Decidable (block ∈ t.handedOut))
  | .writeHeader _ => instDecidableTrue
  | .truncate => instDecidableTrue

/-- The count of references does not wrap around, and what is freed at once is still in use. -/
def Careful (t : Tracked) : Operation → Prop
  | .increaseBlockReferenceCount block =>
    0 < t.references block ∧ t.references block + 1 < 2 ^ 32
  | .markBlockAsFree block => block ∈ t.handedOut ∧ 0 < t.references block
  | operation => Allowed t operation

/-- A file as it is opened: what is referenced is what its header says. -/
structure Opened (t : Tracked) : Prop where
  consistent : Consistent t
  valid : t.metadata.Valid
  handedOut : t.handedOut = []
  events : t.events = []

/-- Runs of the block manager. -/
def blockMachine : Machine Tracked Operation where
  init := Opened
  step := Tracked.perform

/-- What holds between the operations. -/
structure Running (t : Tracked) : Prop where
  consistent : Consistent t
  valid : t.metadata.Valid
  apart : ∀ block ∈ t.handedOut, block ∉ t.metadata.ids

/-- An operation is a run of small steps. -/
theorem Running.perform {operation : Operation} (hrun : Running t)
    (careful : Careful t operation) (performed : t.perform operation = some t') :
    SmallSteps t t' ∧ Running t' := by
  have ok := hrun.consistent
  cases operation with
  | getFreeBlockId =>
    cases performed
    refine ⟨.single (.getFreeBlockId t), ok.getFreeBlockId, hrun.valid, ?_⟩
    intro block mem
    rcases mem_cons.mp mem with rfl | mem
    · intro own
      have hu := (Tracked.getFreeBlockId_unused ok.good).1
      exact absurd (ok.owned _ own) (Nat.not_lt_of_le hu.le)
    · exact hrun.apart block mem
  | increaseBlockReferenceCount block =>
    cases performed
    obtain ⟨used, fits⟩ := careful
    exact ⟨.single (.increase used fits), ok.increaseBlockReferenceCount used fits,
      hrun.valid, hrun.apart⟩
  | markBlockAsModified block =>
    cases performed
    have used : 0 < t.references block := lt_of_lt_of_le careful (sub_le _ _)
    have own : block ∈ t.metadata.ids → 1 < t.references block := by
      intro mem
      have other : 0 < t.otherReferences block := careful
      rw [Tracked.otherReferences, if_pos mem] at other
      omega
    exact ⟨.single (.modified used own), ok.markBlockAsModified used own,
      hrun.valid, hrun.apart⟩
  | markBlockAsFree block =>
    obtain ⟨handed, used⟩ := careful
    have own := hrun.apart block handed
    have step : Small t t' := .free used handed own performed
    have ok' := step.consistent ok
    refine ⟨.single step, ?_⟩
    obtain ⟨_, -, rfl⟩ := map_eq_some_iff.mp performed
    exact ⟨ok', hrun.valid, hrun.apart⟩
  | writeHeader found =>
    obtain ⟨_, written, steps, valid, handedOut⟩ :=
      Tracked.writeHeader_spec ok hrun.valid found
    cases written.symm.trans performed
    refine ⟨steps, steps.consistent ok, valid, ?_⟩
    intro block mem
    rw [handedOut] at mem
    cases mem
  | truncate =>
    cases performed
    exact ⟨.single (.truncate t), ok.truncate, hrun.valid, hrun.apart⟩

theorem running_of_reachable (reached : (blockMachine.guarded Careful).Reachable t) :
    Running t := by
  refine reached.invariant (fun t opened => ?_) ?_
  · refine ⟨opened.consistent, opened.valid, ?_⟩
    intro block mem
    rw [opened.handedOut] at mem
    cases mem
  · rintro _ _ - hrun ⟨_, careful, performed⟩
    exact (hrun.perform careful performed).2

theorem smallSteps_of_run (hrun : Running t)
    (run : Relation.ReflTransGen (blockMachine.guarded Careful).step t t') :
    SmallSteps t t' ∧ Running t' := by
  induction run with
  | refl => exact ⟨.refl, hrun⟩
  | tail _ step ih =>
    obtain ⟨_, careful, performed⟩ := step
    obtain ⟨steps, hrun'⟩ := ih
    obtain ⟨steps', running''⟩ := hrun'.perform careful performed
    exact ⟨steps.trans steps', running''⟩

/-- In every state of a run, no block has been handed out that was referenced then or at the last
header, free blocks are in the file, and from there on a block with references becomes reusable
only after all of them have been given up and a header has been written. -/
theorem blockReuse_safe {t : Tracked} (reached : (blockMachine.guarded Careful).Reachable t) :
    (∀ event ∈ t.events, event.Safe) ∧ (∀ block ∈ t.manager.freeList, block < t.manager.maxBlock) ∧
    ∀ t' block, Relation.ReflTransGen (blockMachine.guarded Careful).step t t' →
      0 < t.references block → Reusable t' block → ∃ events, t'.events = t.events ++ events ∧
          (.free block ∉ events → Returned (t.references block) block events) := by
  have running := running_of_reachable reached
  have consistent := running.consistent
  refine ⟨consistent.safe, fun block free => ?_, fun t' block run used reusable => ?_⟩
  · exact ((consistent.good block).free_unused free).2.2
  · obtain ⟨notFree, -, inFile⟩ := (consistent.good block).not_free used
    have notReusable : ¬Reusable t block :=
      fun either => either.elim notFree (Nat.not_le_of_lt inFile)
    obtain ⟨events, same, kept⟩ := (smallSteps_of_run running run).1.kept consistent
    refine ⟨events, same, fun notFreed => ?_⟩
    rcases kept block notReusable with freed | returned | ⟨notReusable', -⟩
    · exact absurd freed notFreed
    · exact returned
    · exact absurd reusable notReusable'

/-- Every careful operation returns in every state of a run: no block is freed twice, the metadata
manager gets no block that it has, the loops of `WriteHeader` end, and the blocks it has reserved
for the free list do not run out. -/
theorem blockManager_progress {t : Tracked} (reached : (blockMachine.guarded Careful).Reachable t)
    {operation : Operation} (careful : Careful t operation) :
    ∃ t', t.perform operation = some t' ∧
      ∀ found, operation = .writeHeader found → t'.handedOut = [] := by
  have running := running_of_reachable reached
  cases operation with
  | markBlockAsFree block =>
    have notFree := ((running.consistent.good block).not_free careful.2).1
    refine ⟨_, congrArg (Option.map _) (if_neg notFree), fun found eq => ?_⟩
    cases eq
  | writeHeader found =>
    obtain ⟨t', written, -, -, handedOut⟩ :=
      Tracked.writeHeader_spec running.consistent running.valid found
    exact ⟨t', written, fun _ _ => handedOut⟩
  | _ => exact ⟨_, rfl, fun found eq => by cases eq⟩

/-- A new file. -/
def newFile : Tracked where
  manager := ⟨.empty, .empty, [], 0⟩
  metadata := ⟨[], []⟩
  references := fun _ => 0
  headerReferences := fun _ => 0
  handedOut := []
  events := []

theorem opened_newFile : Opened newFile where
  consistent :=
    { good := fun _ =>
        { free_unused := fun free => absurd free OrderedSet.not_mem_empty
          modified_unused := fun hmo => absurd hmo OrderedSet.not_mem_empty
          counted := fun _ hc => absurd hc.symm (some_ne_none _)
          single := fun _ => zero_le 1
          used := fun used => absurd used (lt_irrefl 0)
          durable := fun durable => absurd durable (lt_irrefl 0) }
      handed := forall_mem_nil _
      owned := forall_mem_nil _
      safe := forall_mem_nil _ }
  valid := ⟨nodup_nil, nodup_nil, forall_mem_nil _⟩
  handedOut := rfl
  events := rfl

/-- The first block of a new file is reusable once it has been given back and a header has been
written. -/
theorem blockReuse_firstBlock :
    let t := newFile.getFreeBlockId.2
    (blockMachine.guarded Careful).Reachable t ∧ t.references 0 = 1 ∧
    ∀ t', Relation.ReflTransGen (blockMachine.guarded Careful).step t t' → Reusable t' 0 →
      ∃ events, t'.events = t.events ++ events ∧ (.free 0 ∉ events → Returned 1 0 events) := by
  have reached : (blockMachine.guarded Careful).Reachable newFile.getFreeBlockId.2 :=
    .step (.init opened_newFile) ⟨.getFreeBlockId, trivial, rfl⟩
  refine ⟨reached, rfl, fun t' run reusable => ?_⟩
  exact (blockReuse_safe reached).2.2 t' 0 run Nat.one_pos reusable

/-- A block that was given back and then also freed at once is handed out while it is in use. -/
theorem blockReuse_freedTwice :
    ∃ t, (blockMachine.guarded Allowed).Reachable t ∧ .handOut 0 1 1 ∈ t.events :=
  blockMachine.exists_reachable_of_run Allowed
    [.getFreeBlockId, .markBlockAsModified 0, .markBlockAsFree 0, .getFreeBlockId, .writeHeader id,
      .getFreeBlockId]
    (.init opened_newFile) (by decide)

/-- The header of a new file with one block is written. -/
theorem blockManager_progress_firstBlock :
    ∃ t', newFile.getFreeBlockId.2.perform (.writeHeader id) = some t' ∧ t'.handedOut = [] := by
  obtain ⟨t', written, handedOut⟩ := blockManager_progress
    (.step (.init opened_newFile) ⟨.getFreeBlockId, trivial, rfl⟩)
    (show Careful _ (.writeHeader id) from trivial)
  exact ⟨t', written, handedOut id rfl⟩

end AccessPath.Storage
