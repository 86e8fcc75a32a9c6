import AccessPath.Library.KeyedList
import AccessPath.Library.OrderedSet

/-!
# Blocks of the database file

`SingleFileBlockManager` hands out the blocks of the file (`single_file_block_manager.cpp`). A block
that is given back may still be part of the last header, and is only free again once the next
header has been written.
-/

namespace AccessPath.Storage

open Library Function

/-- `SingleFileBlockManager` -/
structure BlockManager where
  freeList : OrderedSet Nat
  modifiedBlocks : OrderedSet Nat
  multiUseBlocks : List (Nat × UInt32)
  maxBlock : Nat

namespace BlockManager

def getFreeBlockId (manager : BlockManager) : Nat × BlockManager :=
  match manager.freeList.first with
  | some block => (block, { manager with freeList := manager.freeList.dropFirst })
  | none => (manager.maxBlock, { manager with maxBlock := manager.maxBlock + 1 })

/-- `MarkBlockAsFree`. A block that is already free is an exception. -/
def markBlockAsFree (manager : BlockManager) (block : Nat) : Option BlockManager :=
  if block ∈ manager.freeList then none
  else
    some { manager with
      multiUseBlocks := eraseKey block manager.multiUseBlocks
      freeList := manager.freeList.insert block }

def markBlockAsModified (manager : BlockManager) (block : Nat) : BlockManager :=
  match manager.multiUseBlocks.lookup block with
  | some count =>
    let multiUseBlocks := if count - 1 ≤ 1 then eraseKey block manager.multiUseBlocks
      else setKey block (count - 1) manager.multiUseBlocks
    { manager with multiUseBlocks := multiUseBlocks }
  | none => { manager with modifiedBlocks := manager.modifiedBlocks.insert block }

def increaseBlockReferenceCount (manager : BlockManager) (block : Nat) : BlockManager :=
  let count := match manager.multiUseBlocks.lookup block with
    | some count => count + 1
    | none => 2
  { manager with multiUseBlocks := setKey block count manager.multiUseBlocks }

/-- The loop of `Truncate` over the free list from its end. -/
def truncateLoop : List Nat → Nat → Nat
  | [], maxBlock => maxBlock
  | block :: rest, maxBlock =>
    if block + 1 ≠ maxBlock then maxBlock else truncateLoop rest (maxBlock - 1)

def truncate (manager : BlockManager) : BlockManager :=
  let maxBlock := truncateLoop manager.freeList.elements.reverse manager.maxBlock
  if maxBlock = manager.maxBlock then manager
  else { manager with maxBlock, freeList := manager.freeList.below maxBlock }

/-- `WriteHeader`: the blocks that were modified are free from now on. -/
def releaseModified (manager : BlockManager) : BlockManager := { manager with
    freeList := manager.freeList.insertAll manager.modifiedBlocks
    modifiedBlocks := .empty }

end BlockManager

/-! ## Blocks of metadata -/

/-- `METADATA_BLOCK_COUNT`: the parts of a block of metadata. -/
def metadataBlockCount : Nat := 64

def metadataBlockSize : Nat := 4088

/-- `MetadataManager`: for each block its free parts, and the parts that were in use at the last
checkpoint. -/
structure MetadataManager where
  blocks : List (Nat × List Nat)
  modifiedBlocks : List (Nat × BitVec 64)

def freeBlocksToInteger (freeBlocks : List Nat) : BitVec 64 :=
  freeBlocks.foldl (fun result index => result ||| 1#64 <<< index) 0#64

def freeBlocksFromInteger (freeList : BitVec 64) : List Nat :=
  ((List.range 64).filter freeList.getLsbD).reverse

/-! ## The writer of the free list -/

/-- `FreeListBlockWriter`: how many of the reserved blocks are left, and the place in the current
one. -/
structure FreeListBlockWriter where
  left : Nat
  offset : Nat
  capacity : Nat

namespace FreeListBlockWriter

/-- `NextBlock`. It is an exception if the writer ran out of blocks. -/
def nextBlock : Nat → Option FreeListBlockWriter
  | 0 => none
  | left + 1 => some ⟨left, 8, metadataBlockSize⟩

/-- The loop of `WriteData`: a value that does not fit goes on in the next block. -/
def writeLoop : Nat → Nat → Nat → Nat → Option FreeListBlockWriter
  | 0, offset, capacity, writeSize =>
    if offset + writeSize ≤ capacity then some ⟨0, offset + writeSize, capacity⟩ else none
  | left + 1, offset, capacity, writeSize =>
    if offset + writeSize ≤ capacity then some ⟨left + 1, offset + writeSize, capacity⟩
    else writeLoop left 8 metadataBlockSize (writeSize - (capacity - offset))

def writeData (writer : FreeListBlockWriter) (writeSize : Nat) : Option FreeListBlockWriter :=
  writeLoop writer.left writer.offset writer.capacity writeSize

/-- The values are written one after the other. -/
def write (writer : FreeListBlockWriter) (sizes : List Nat) : Option FreeListBlockWriter :=
  sizes.foldlM writeData writer

end FreeListBlockWriter

/-! ## References -/

/-- What happens to blocks, with the references to a block at the time when it is handed out, and
those that it had when the last header was written. -/
inductive Event where
  | handOut (block references headerReferences : Nat)
  | increase (block : Nat)
  | modified (block : Nat)
  | free (block : Nat)
  | header
  deriving DecidableEq

/-- The two managers, with the references to each block that nothing in the code knows. -/
structure Tracked where
  manager : BlockManager
  metadata : MetadataManager
  references : Nat → Nat
  headerReferences : Nat → Nat
  handedOut : List Nat
  events : List Event

namespace Tracked

/-- A block that is handed out has one reference. -/
def getFreeBlockId (t : Tracked) : Nat × Tracked :=
  let block := t.manager.getFreeBlockId.1
  (block, { t with
    manager := t.manager.getFreeBlockId.2
    references := update t.references block 1
    handedOut := block :: t.handedOut
    events := t.events ++ [.handOut block (t.references block) (t.headerReferences block)] })

/-- All references are given up at once. -/
def markBlockAsFree (t : Tracked) (block : Nat) : Option Tracked :=
  (t.manager.markBlockAsFree block).map fun manager => { t with
      manager
      references := update t.references block 0
      events := t.events ++ [.free block] }

/-- One reference is given up. -/
def markBlockAsModified (t : Tracked) (block : Nat) : Tracked := { t with
    manager := t.manager.markBlockAsModified block
    references := update t.references block (t.references block - 1)
    events := t.events ++ [.modified block] }

def increaseBlockReferenceCount (t : Tracked) (block : Nat) : Tracked := { t with
    manager := t.manager.increaseBlockReferenceCount block
    references := update t.references block (t.references block + 1)
    events := t.events ++ [.increase block] }

def truncate (t : Tracked) : Tracked := { t with manager := t.manager.truncate }

/-! ## `WriteHeader` -/

/-- The metadata manager with other blocks. -/
def withBlocks (t : Tracked) (blocks : List (Nat × List Nat)) : Tracked :=
  { t with metadata := { t.metadata with blocks } }

/-- `AllocateNewBlock`. A block that is already there is an exception. -/
def allocateNewBlock (t : Tracked) : Option (Nat × Tracked) :=
  let block := t.getFreeBlockId.1
  let t := t.getFreeBlockId.2
  if (t.metadata.blocks.lookup block).isSome then none
  else
    let freeBlocks := (List.range metadataBlockCount).reverse
    some (block, t.withBlocks (setKey block freeBlocks t.metadata.blocks))

/-- The last free part of a block is used. -/
def useLast (t : Tracked) (block : Nat) : Tracked :=
  let freeBlocks := (t.metadata.blocks.lookup block).getD []
  t.withBlocks (setKey block freeBlocks.dropLast t.metadata.blocks)

/-- `AllocateHandle`. The blocks are in a map without an order: `found` is taken if it has a free
part, so that the loop over the map may meet any such block first. -/
def allocateHandle (found : Nat) (t : Tracked) : Option Tracked :=
  match (t.metadata.blocks.find? fun entry => entry.1 == found && !entry.2.isEmpty).or
      (t.metadata.blocks.find? fun entry => !entry.2.isEmpty) with
  | some (block, _) => some (t.useLast block)
  | none => t.allocateNewBlock.map fun (block, t) => t.useLast block

/-- The size of what `WriteHeader` writes to the blocks of the free list. -/
def totalSize (t : Tracked) : Nat :=
  8 + 8 * (t.manager.freeList.size + t.manager.modifiedBlocks.size) +
    (8 + (8 + 4) * t.manager.multiUseBlocks.length) +
    (8 + (8 + 8) * t.metadata.blocks.length)

/-- `GetFreeListBlocks`, for a number of rounds: how many parts are reserved. -/
def getFreeListBlocks (found : Nat → Nat) : Nat → Nat → Tracked → Option (Nat × Tracked)
  | 0, _, _ => none
  | rounds + 1, reserved, t =>
    if t.totalSize < reserved * (metadataBlockSize - 8) then some (reserved, t)
    else (t.allocateHandle (found reserved)).bind (getFreeListBlocks found rounds (reserved + 1))

/-- The loop of `MetadataManager::MarkBlocksAsModified` over `modified_blocks`. -/
def freeModified : List (Nat × BitVec 64) → Tracked → Option Tracked
  | [], t => some t
  | (block, modifiedList) :: rest, t =>
    match t.metadata.blocks.lookup block with
    | none => none
    | some freeBlocks =>
      let newFreeBlocks := freeBlocksToInteger freeBlocks ||| modifiedList
      if newFreeBlocks = BitVec.allOnes 64 then
        let t := t.withBlocks (eraseKey block t.metadata.blocks)
        freeModified rest (t.markBlockAsModified block)
      else
        let freeBlocks := freeBlocksFromInteger newFreeBlocks
        freeModified rest (t.withBlocks (setKey block freeBlocks t.metadata.blocks))

/-- `MetadataManager::MarkBlocksAsModified` -/
def markBlocksAsModified (t : Tracked) : Option Tracked :=
  (freeModified t.metadata.modifiedBlocks t).map fun t => { t with
      metadata := { t.metadata with
        modifiedBlocks := t.metadata.blocks.map fun entry =>
          (entry.1, ~~~freeBlocksToInteger entry.2) } }

/-- The header is written: what is referenced now must not be overwritten before the next one. -/
def header (t : Tracked) : Tracked := { t with
    manager := t.manager.releaseModified
    headerReferences := t.references
    handedOut := []
    events := t.events ++ [.header] }

/-- The sizes of the values that are written to the blocks of the free list. -/
def freeListWrites (t : Tracked) : List Nat :=
  8 :: t.manager.freeList.elements.map (fun _ => 8) ++
    8 :: t.manager.multiUseBlocks.flatMap (fun _ => [8, 4]) ++
    8 :: t.metadata.blocks.flatMap fun _ => [8, 8]

/-- `WriteHeader`. Without reserved blocks there is no free list to write. -/
def writeHeader (t : Tracked) (found : Nat → Nat) : Option Tracked := do
  let (reserved, t) ← getFreeListBlocks found (t.totalSize + 2) 0 t
  let t ← t.markBlocksAsModified
  if reserved ≠ 0 then
    let _ ← (FreeListBlockWriter.nextBlock reserved).bind (·.write t.header.freeListWrites)
  return t.header

end Tracked

end AccessPath.Storage
