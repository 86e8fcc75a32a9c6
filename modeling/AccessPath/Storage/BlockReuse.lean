import AccessPath.Library.System
import AccessPath.Storage.BlockManager

/-!
# Reuse of blocks

A block is handed out only if nothing refers to it and nothing referred to it when the last header
was written.
-/

namespace AccessPath.Storage

open Library List Function Nat

/-! ## The status of a block -/

/-- What is known of a block, and the references to it. -/
structure Status where
  free : Prop
  modified : Prop
  inFile : Prop
  count : Option UInt32
  references : Nat
  headerReferences : Nat

/-- The block manager keeps what is referenced or was referenced at the last header. -/
structure Status.Good (status : Status) : Prop where
  free_unused : status.free → status.references = 0 ∧ ¬status.modified ∧ status.inFile
  modified_unused : status.modified → status.references = 0 ∧ status.inFile
  counted : ∀ count, status.count = some count →
    count.toNat = status.references ∧ 2 ≤ status.references
  single : status.count = none → status.references ≤ 1
  used : 0 < status.references → status.inFile
  durable : 0 < status.headerReferences → 0 < status.references ∨ status.modified

theorem Status.Good.inUse {status : Status} (notFree : ¬status.free)
    (notModified : ¬status.modified) (file : status.inFile) (used : 0 < status.references)
    (eq : ∀ n, status.count = some n → n.toNat = status.references ∧ 2 ≤ status.references)
    (single : status.count = none → status.references ≤ 1) : status.Good where
  free_unused free := absurd free notFree
  modified_unused modified := absurd modified notModified
  counted := eq
  single := single
  used _ := file
  durable _ := .inl used

theorem Status.Good.not_free {status : Status} (good : status.Good)
    (used : 0 < status.references) : ¬status.free ∧ ¬status.modified ∧ status.inFile := by
  refine ⟨fun free => ?_, fun hmo => ?_, good.used used⟩
  · exact absurd used (Nat.not_lt_of_le (le_of_eq (good.free_unused free).1))
  · exact absurd used (Nat.not_lt_of_le (le_of_eq (good.modified_unused hmo).1))

namespace Tracked

def status (t : Tracked) (block : Nat) : Status where
  free := block ∈ t.manager.freeList
  modified := block ∈ t.manager.modifiedBlocks
  inFile := block < t.manager.maxBlock
  count := t.manager.multiUseBlocks.lookup block
  references := t.references block
  headerReferences := t.headerReferences block

variable {t : Tracked} {b b' : Nat}

theorem unused_of_not_inFile (good : (t.status b).Good) (out : ¬(t.status b).inFile) :
    t.references b = 0 ∧ t.headerReferences b = 0 ∧ b ∉ t.manager.modifiedBlocks := by
  have unmodified : b ∉ t.manager.modifiedBlocks :=
    fun hmo => out (good.modified_unused hmo).2
  have hu : t.references b = 0 := Nat.eq_zero_of_not_pos fun used => out (good.used used)
  refine ⟨hu, Nat.eq_zero_of_not_pos fun durable => ?_, unmodified⟩
  rcases good.durable durable with used | hmo
  · exact absurd used (Nat.not_lt_of_le hu.le)
  · exact unmodified hmo

theorem unused_of_free (good : (t.status b).Good) (free : (t.status b).free) :
    t.references b = 0 ∧ t.headerReferences b = 0 ∧ b ∉ t.manager.modifiedBlocks := by
  obtain ⟨hu, unmodified, -⟩ := good.free_unused free
  refine ⟨hu, Nat.eq_zero_of_not_pos fun durable => ?_, unmodified⟩
  rcases good.durable durable with _ | hmo
  · omega
  · exact unmodified hmo

theorem count_eq_none (good : (t.status b).Good) (eq : t.references b = 0) :
    t.manager.multiUseBlocks.lookup b = none := by
  cases hc : t.manager.multiUseBlocks.lookup b with
  | none => rfl
  | some n =>
    have many : 2 ≤ t.references b := (good.counted n hc).2
    omega

/-! ## Handing out a block -/

/-- The block that is handed out is a free one or the next one of the file. -/
theorem getFreeBlockId_cases (t : Tracked) :
    (∃ b, t.manager.freeList.first = some b ∧ t.getFreeBlockId.1 = b ∧
      t.getFreeBlockId.2.manager = { t.manager with freeList := t.manager.freeList.dropFirst }) ∨
    (t.manager.freeList.first = none ∧ t.getFreeBlockId.1 = t.manager.maxBlock ∧
      t.getFreeBlockId.2.manager = { t.manager with maxBlock := t.manager.maxBlock + 1 }) := by
  rw [getFreeBlockId, BlockManager.getFreeBlockId]
  cases fst : t.manager.freeList.first with
  | none => exact .inr ⟨rfl, rfl, rfl⟩
  | some b => exact .inl ⟨b, rfl, rfl, rfl⟩

theorem references_getFreeBlockId (t : Tracked) :
    t.getFreeBlockId.2.references t.getFreeBlockId.1 = 1 :=
  update_self _ _ _

theorem getFreeBlockId_unused (good : ∀ b, (t.status b).Good) :
    t.references t.getFreeBlockId.1 = 0 ∧ t.headerReferences t.getFreeBlockId.1 = 0 ∧
      t.getFreeBlockId.1 ∉ t.manager.modifiedBlocks := by
  rcases getFreeBlockId_cases t with ⟨_, fst, rfl, -⟩ | ⟨-, eq, -⟩
  · exact unused_of_free (good _) (OrderedSet.mem_of_first fst)
  · rw [eq]
    exact unused_of_not_inFile (good _) (lt_irrefl _)

theorem status_getFreeBlockId_of_ne (ne : b' ≠ t.getFreeBlockId.1) :
    t.getFreeBlockId.2.status b' = t.status b' := by
  have refs : t.getFreeBlockId.2.references b' = t.references b' := update_of_ne ne _ _
  rcases getFreeBlockId_cases t with ⟨_, fst, eq, m⟩ | ⟨fst, eq, m⟩
  · have free : b' ∈ t.manager.freeList.dropFirst ↔ b' ∈ t.manager.freeList := by
      rw [OrderedSet.mem_dropFirst fst]
      exact and_iff_left (eq ▸ ne)
    rw [status, m, refs, free]
    rfl
  · have file : b' < t.manager.maxBlock + 1 ↔ b' < t.manager.maxBlock := by
      rw [eq] at ne
      omega
    rw [status, m, refs, file]
    rfl

end Tracked

/-! ## Consistency -/

/-- No block with references, now or at the last header, has been handed out. -/
def Event.Safe : Event → Prop
  | handOut _ references headerReferences => references = 0 ∧ headerReferences = 0
  | _ => True

/-- What holds between the steps of the managers. -/
structure Consistent (t : Tracked) : Prop where
  good : ∀ block, (t.status block).Good
  handed : ∀ block ∈ t.handedOut, t.headerReferences block = 0
  owned : ∀ block ∈ t.metadata.blocks.map Prod.fst, 0 < t.references block
  safe : ∀ event ∈ t.events, event.Safe

namespace Consistent

open Tracked

variable {t : Tracked} {b : Nat}

theorem safe_append {events : List Event} {last : Event} (safe : ∀ event ∈ events, event.Safe)
    (lastSafe : last.Safe) : ∀ event ∈ events ++ [last], event.Safe := by
  intro event mem
  rcases mem_append.mp mem with mem | mem
  · exact safe event mem
  · rw [mem_singleton.mp mem]
    exact lastSafe

theorem good_of_one {t' : Tracked} (ok : Consistent t)
    (same : ∀ b', b' ≠ b → t'.status b' = t.status b')
    (good : (t'.status b).Good) : ∀ b', (t'.status b').Good := by
  intro b'
  rcases eq_or_ne b' b with rfl | ne
  · exact good
  · rw [same b' ne]
    exact ok.good b'

theorem owned_of_one {t' : Tracked} (ok : Consistent t)
    (same : ∀ b', b' ≠ b → t'.references b' = t.references b')
    (metadata : t'.metadata = t.metadata)
    (own : b ∈ t.metadata.blocks.map Prod.fst → 0 < t'.references b) :
    ∀ b' ∈ t'.metadata.blocks.map Prod.fst, 0 < t'.references b' := by
  intro b' mem
  rw [metadata] at mem
  rcases eq_or_ne b' b with rfl | ne
  · exact own mem
  · rw [same b' ne]
    exact ok.owned b' mem

/-! ### Handing out -/

theorem good_getFreeBlockId (ok : Consistent t) :
    (t.getFreeBlockId.2.status t.getFreeBlockId.1).Good := by
  obtain ⟨hu, _, unmodified⟩ := getFreeBlockId_unused ok.good
  have refs := references_getFreeBlockId t
  have n := count_eq_none (ok.good _) hu
  have notFree : t.getFreeBlockId.1 ∉ t.getFreeBlockId.2.manager.freeList := by
    rcases getFreeBlockId_cases t with ⟨b, fst, eq, m⟩ | ⟨fst, -, m⟩
    · rw [m, eq]
      exact fun mem => ((OrderedSet.mem_dropFirst fst).mp mem).2 rfl
    · rw [m]
      exact OrderedSet.not_mem_of_first fst
  have lt : t.getFreeBlockId.1 < t.getFreeBlockId.2.manager.maxBlock := by
    rcases getFreeBlockId_cases t with ⟨b, fst, eq, m⟩ | ⟨fst, eq, m⟩
    · rw [m, eq]
      exact ((ok.good b).free_unused (OrderedSet.mem_of_first fst)).2.2
    · rw [m, eq]
      exact lt_succ_self _
  have hmo : t.getFreeBlockId.2.manager.modifiedBlocks = t.manager.modifiedBlocks ∧
      t.getFreeBlockId.2.manager.multiUseBlocks = t.manager.multiUseBlocks := by
    rcases getFreeBlockId_cases t with ⟨_, -, -, m⟩ | ⟨-, -, m⟩
    all_goals
      rw [m]
      exact ⟨rfl, rfl⟩
  refine .inUse notFree (fun isModified => ?_) lt (Nat.one_pos.trans_eq refs.symm) ?_
    fun _ => refs.le
  · exact absurd (hmo.1 ▸ isModified) unmodified
  · intro hc isCounted
    change t.getFreeBlockId.2.manager.multiUseBlocks.lookup _ = _ at isCounted
    rw [hmo.2, n] at isCounted
    cases isCounted

theorem getFreeBlockId (ok : Consistent t) : Consistent t.getFreeBlockId.2 := by
  obtain ⟨hu, undurable, -⟩ := getFreeBlockId_unused ok.good
  have refs := references_getFreeBlockId t
  constructor
  · exact ok.good_of_one (fun _ => status_getFreeBlockId_of_ne) ok.good_getFreeBlockId
  · intro b mem
    rcases mem_cons.mp mem with rfl | mem
    · exact undurable
    · exact ok.handed b mem
  · exact ok.owned_of_one (fun _ ne => update_of_ne ne _ _) rfl fun _ => refs ▸ one_pos
  · have safe : (Event.handOut t.getFreeBlockId.1 (t.references t.getFreeBlockId.1)
        (t.headerReferences t.getFreeBlockId.1)).Safe := ⟨hu, undurable⟩
    exact safe_append ok.safe safe

/-! ### Giving back -/

theorem status_markBlockAsModified_of_ne {b' : Nat} (ne : b' ≠ b) :
    (t.markBlockAsModified b).status b' = t.status b' := by
  have refs : (t.markBlockAsModified b).references b' = t.references b' := update_of_ne ne _ _
  rw [status, refs, Tracked.markBlockAsModified, BlockManager.markBlockAsModified]
  cases hc : t.manager.multiUseBlocks.lookup b with
  | none =>
    have hmo : b' ∈ t.manager.modifiedBlocks.insert b ↔ b' ∈ t.manager.modifiedBlocks := by
      rw [OrderedSet.mem_insert]
      exact or_iff_right ne
    rw [status, ← hmo]
  | some n =>
    dsimp only
    split_ifs
    · rw [lookup_eraseKey, if_neg ne, status]
    · rw [lookup_setKey, if_neg ne, status]

/-- The last reference makes a block modified, others are counted down. -/
theorem good_markBlockAsModified (ok : Consistent t) (used : 0 < t.references b) :
    ((t.markBlockAsModified b).status b).Good := by
  have good := ok.good b
  obtain ⟨notFree, notModified, file⟩ := good.not_free used
  have refs : (t.markBlockAsModified b).references b = t.references b - 1 := update_self _ _ _
  rw [status, refs, Tracked.markBlockAsModified, BlockManager.markBlockAsModified]
  cases hc : t.manager.multiUseBlocks.lookup b with
  | none =>
    have one : t.references b - 1 = 0 := by
      have single : t.references b ≤ 1 := good.single hc
      omega
    have hmo : b ∈ t.manager.modifiedBlocks.insert b := OrderedSet.mem_insert.mpr (.inl rfl)
    rw [one]
    constructor
    · exact fun free => absurd free notFree
    · exact fun _ => ⟨rfl, file⟩
    · intro n isCounted
      rw [hc] at isCounted
      cases isCounted
    · exact fun _ => zero_le 1
    · exact fun _ => file
    · exact fun _ => .inr hmo
  | some n =>
    obtain ⟨num, _⟩ : n.toNat = t.references b ∧ 2 ≤ t.references b := good.counted n hc
    have one : (1 : UInt32).toNat = 1 := rfl
    have less : (n - 1).toNat = t.references b - 1 := by
      rw [UInt32.toNat_sub_of_le, num, one]
      rw [UInt32.le_iff_toNat_le, num, one]
      omega
    have pos : 0 < t.references b - 1 := by omega
    dsimp only
    split_ifs with last
    · rw [UInt32.le_iff_toNat_le, less, one] at last
      refine .inUse notFree notModified file pos ?_ fun _ => last
      intro n' isCounted
      rw [lookup_eraseKey, if_pos rfl] at isCounted
      cases isCounted
    · rw [UInt32.le_iff_toNat_le, less, one] at last
      have set : (setKey b (n - 1) t.manager.multiUseBlocks).lookup b = some (n - 1) := by
        rw [lookup_setKey, if_pos rfl]
      refine .inUse notFree notModified file pos ?_ fun hm => ?_
      · intro n' isCounted
        cases set.symm.trans isCounted
        exact ⟨less, Nat.lt_of_not_le last⟩
      · cases set.symm.trans hm

/-- A reference is given up that the metadata manager does not need. -/
theorem markBlockAsModified (ok : Consistent t) (used : 0 < t.references b)
    (own : b ∈ t.metadata.blocks.map Prod.fst → 1 < t.references b) :
    Consistent (t.markBlockAsModified b) := by
  have refs : (t.markBlockAsModified b).references b = t.references b - 1 := update_self _ _ _
  constructor
  · exact ok.good_of_one (fun _ => status_markBlockAsModified_of_ne)
      (ok.good_markBlockAsModified used)
  · exact ok.handed
  · refine ok.owned_of_one (fun _ ne => update_of_ne ne _ _) rfl ?_
    intro mem
    rw [refs]
    exact Nat.sub_pos_of_lt (own mem)
  · have safe : (Event.modified b).Safe := trivial
    exact safe_append ok.safe safe

/-! ### Further references -/

theorem status_increase_of_ne {b' : Nat} (ne : b' ≠ b) :
    (t.increaseBlockReferenceCount b).status b' = t.status b' := by
  have refs : (t.increaseBlockReferenceCount b).references b' = t.references b' :=
    update_of_ne ne _ _
  rw [status, refs, Tracked.increaseBlockReferenceCount, BlockManager.increaseBlockReferenceCount]
  rw [lookup_setKey, if_neg ne, status]

theorem good_increase (ok : Consistent t) (used : 0 < t.references b)
    (fits : t.references b + 1 < 2 ^ 32) : ((t.increaseBlockReferenceCount b).status b).Good := by
  have good := ok.good b
  obtain ⟨notFree, notModified, file⟩ := good.not_free used
  have refs : (t.increaseBlockReferenceCount b).references b = t.references b + 1 :=
    update_self _ _ _
  have num : ∃ n : UInt32, n.toNat = t.references b + 1 ∧
      (t.increaseBlockReferenceCount b).manager.multiUseBlocks =
        setKey b n t.manager.multiUseBlocks := by
    rw [Tracked.increaseBlockReferenceCount, BlockManager.increaseBlockReferenceCount]
    cases hc : t.manager.multiUseBlocks.lookup b with
    | none =>
      have single : t.references b ≤ 1 := good.single hc
      refine ⟨2, ?_, rfl⟩
      change 2 = _
      omega
    | some n =>
      have num : n.toNat = t.references b := (good.counted n hc).1
      refine ⟨n + 1, ?_, rfl⟩
      rw [UInt32.toNat_add, num]
      exact mod_eq_of_lt fits
  obtain ⟨n, num, multiUse⟩ := num
  have set : (setKey b n t.manager.multiUseBlocks).lookup b = some n := by
    rw [lookup_setKey, if_pos rfl]
  rw [status, refs, multiUse]
  refine .inUse notFree notModified file (succ_pos _) ?_ fun hm => ?_
  · intro n' isCounted
    cases set.symm.trans isCounted
    exact ⟨num, succ_le_succ used⟩
  · cases set.symm.trans hm

theorem increaseBlockReferenceCount (ok : Consistent t) (used : 0 < t.references b)
    (fits : t.references b + 1 < 2 ^ 32) : Consistent (t.increaseBlockReferenceCount b) := by
  have refs : (t.increaseBlockReferenceCount b).references b = t.references b + 1 :=
    update_self _ _ _
  constructor
  · exact ok.good_of_one (fun _ => status_increase_of_ne) (ok.good_increase used fits)
  · exact ok.handed
  · refine ok.owned_of_one (fun _ ne => update_of_ne ne _ _) rfl ?_
    intro _
    rw [refs]
    exact succ_pos _
  · have safe : (Event.increase b).Safe := trivial
    exact safe_append ok.safe safe

/-! ### Freeing at once -/

theorem markBlockAsFree {t' : Tracked} (ok : Consistent t)
    (used : 0 < t.references b) (handed : b ∈ t.handedOut)
    (own : b ∉ t.metadata.blocks.map Prod.fst)
    (freed : t.markBlockAsFree b = some t') : Consistent t' := by
  obtain ⟨notFree, notModified, file⟩ : b ∉ t.manager.freeList ∧
      b ∉ t.manager.modifiedBlocks ∧ b < t.manager.maxBlock :=
    (ok.good b).not_free used
  rw [Tracked.markBlockAsFree, BlockManager.markBlockAsFree, if_neg notFree] at freed
  cases freed
  constructor
  · refine @good_of_one _ b _ ok (fun b' ne => ?_) ?_
    · have free : b' ∈ t.manager.freeList.insert b ↔ b' ∈ t.manager.freeList := by
        rw [OrderedSet.mem_insert]
        exact or_iff_right ne
      rw [status]
      dsimp only
      rw [update_of_ne ne, lookup_eraseKey, if_neg ne, free, status]
    · rw [status]
      dsimp only
      rw [update_self, lookup_eraseKey, if_pos rfl]
      constructor
      · exact fun _ => ⟨rfl, notModified, file⟩
      · exact fun _ => ⟨rfl, file⟩
      · intro n isCounted
        cases isCounted
      · exact fun _ => zero_le 1
      · exact fun _ => file
      · exact fun durable => absurd durable (Nat.not_lt_of_le (ok.handed b handed).le)
  · exact ok.handed
  · exact ok.owned_of_one (fun _ ne => update_of_ne ne _ _) rfl fun mem => absurd mem own
  · have safe : (Event.free b).Safe := trivial
    exact safe_append ok.safe safe

/-! ### Headers -/

theorem header (ok : Consistent t) : Consistent t.header := by
  constructor
  · intro b
    have good := ok.good b
    refine ⟨fun free => ?_, fun hmo => ?_, good.counted, good.single, good.used, .inl⟩
    · rcases OrderedSet.mem_insertAll.mp free with free | hmo
      · obtain ⟨hu, -, file⟩ := good.free_unused free
        exact ⟨hu, OrderedSet.not_mem_empty, file⟩
      · obtain ⟨hu, file⟩ := good.modified_unused hmo
        exact ⟨hu, OrderedSet.not_mem_empty, file⟩
    · exact absurd hmo OrderedSet.not_mem_empty
  · intro b mem
    cases mem
  · exact ok.owned
  · have safe : Event.header.Safe := trivial
    exact safe_append ok.safe safe

/-! ### Truncation -/

/-- Only free blocks are cut off. -/
theorem truncateLoop_spec (free : List Nat) (maxBlock : Nat) :
    BlockManager.truncateLoop free maxBlock ≤ maxBlock ∧
      ∀ b, BlockManager.truncateLoop free maxBlock ≤ b → b < maxBlock → b ∈ free := by
  induction free generalizing maxBlock with
  | nil => exact ⟨le_rfl, fun b le less => absurd less (Nat.not_lt_of_le le)⟩
  | cons fst rest ih =>
    rw [BlockManager.truncateLoop]
    split_ifs with last
    · exact ⟨le_rfl, fun b le less => absurd less (Nat.not_lt_of_le le)⟩
    · obtain ⟨le, free⟩ := ih (maxBlock - 1)
      refine ⟨le.trans (sub_le _ _), fun b le' less => mem_cons.mpr ?_⟩
      rcases lt_or_ge b (maxBlock - 1) with less' | _
      · exact .inr (free b le' less')
      · exact .inl (by omega)

theorem lt_truncate (lt : b < t.manager.maxBlock) (notFree : b ∉ t.manager.freeList) :
    b < t.truncate.manager.maxBlock := by
  rw [Tracked.truncate, BlockManager.truncate]
  split_ifs
  · exact lt
  · refine Nat.lt_of_not_le fun cut => notFree ?_
    have free := (truncateLoop_spec t.manager.freeList.elements.reverse t.manager.maxBlock).2
    exact mem_reverse.mp (free b cut lt)

theorem free_of_truncate (free : b ∈ t.truncate.manager.freeList) : b ∈ t.manager.freeList ∧
      (b < t.manager.maxBlock → b < t.truncate.manager.maxBlock) := by
  rw [Tracked.truncate, BlockManager.truncate] at free ⊢
  split_ifs at free ⊢
  · exact ⟨free, id⟩
  · obtain ⟨free, kept⟩ := OrderedSet.mem_below.mp free
    exact ⟨free, fun _ => kept⟩

theorem truncate (ok : Consistent t) : Consistent t.truncate := by
  have hmo : t.truncate.manager.modifiedBlocks = t.manager.modifiedBlocks ∧
      t.truncate.manager.multiUseBlocks = t.manager.multiUseBlocks := by
    rw [Tracked.truncate, BlockManager.truncate]
    split_ifs
    all_goals exact ⟨rfl, rfl⟩
  constructor
  · intro b
    have good := ok.good b
    rw [status, hmo.1, hmo.2]
    refine ⟨fun free => ?_, fun hmo => ?_, good.counted, good.single, fun used => ?_,
      good.durable⟩
    · obtain ⟨free, kept⟩ := free_of_truncate free
      obtain ⟨hu, unmodified, file⟩ := good.free_unused free
      exact ⟨hu, unmodified, kept file⟩
    · obtain ⟨hu, file⟩ := good.modified_unused hmo
      exact ⟨hu, lt_truncate file fun free => (good.free_unused free).2.1 hmo⟩
    · obtain ⟨notFree, -, file⟩ := good.not_free used
      exact lt_truncate file notFree
  · exact ok.handed
  · exact ok.owned
  · exact ok.safe

end Consistent

end AccessPath.Storage
