import AccessPath.Library.Slots

/-!
# The layouts of inner nodes

`Node4`, `Node16`, `Node48` and `Node256`, over any kind of child: a map from
bytes to children that grows and shrinks through the four layouts.
-/

namespace AccessPath

open Library Function

/-- What a slot can hold: a child, or the cleared pointer. -/
class Child (α : Type*) where
  hasMetadata : α → Bool
  cleared : α
  hasMetadata_cleared : hasMetadata cleared = false

attribute [simp] Child.hasMetadata_cleared

open Child

def node4Capacity : Nat := 4

def node16Capacity : Nat := 16

def node48Capacity : Nat := 48

/-- `EMPTY_MARKER`: the index entry of a byte without child. -/
def emptyMarker : Nat := 48

def node48ShrinkThreshold : Nat := 12

def node256ShrinkThreshold : Nat := 36

/-- The fields of an inner node other than its slots. `key` holds the first
`count` entries of the key array. -/
inductive Layout where
  | node4 (key : List UInt8)
  | node16 (key : List UInt8)
  | node48 (count : Nat) (childIndex : UInt8 → Nat)
  | node256 (count : Nat)

namespace Layout

/-- The number of children as the node counts them. -/
def count : Layout → Nat
  | node4 key | node16 key => key.length
  | node48 count _ => count
  | node256 count => count

def capacity : Layout → Nat
  | node4 _ => node4Capacity
  | node16 _ => node16Capacity
  | node48 _ _ => node48Capacity
  | node256 _ => 256

section

variable {α : Type*} [Child α] (children : Nat → α)

/-! ## Access -/

/-- The slot of the child at a byte. -/
def slot (layout : Layout) (byte : UInt8) : Option Nat :=
  match layout with
  | node4 key | node16 key => position key byte
  | node48 _ childIndex =>
    if childIndex byte ≠ emptyMarker then some (childIndex byte) else none
  | node256 _ => if hasMetadata (children byte.toNat) then some byte.toNat else none

def getChild (layout : Layout) (byte : UInt8) : Option α :=
  (layout.slot children byte).map children

/-- The scan of the index or the slots from a byte on. -/
def scanSlots (layout : Layout) (byte : UInt8) : Option (UInt8 × Nat) :=
  allBytes.findSome? fun b =>
    if byte ≤ b then (layout.slot children b).map fun i => (b, i) else none

/-- The first child at a byte that is at least `byte`. -/
def getNextChild (layout : Layout) (byte : UInt8) : Option (UInt8 × Nat) :=
  match layout with
  | node4 key | node16 key => nextPosition key byte
  | layout => layout.scanSlots children byte

def replaceChild (layout : Layout) (byte : UInt8) (child : α) : Nat → α :=
  match layout.slot children byte with
  | some i => update children i child
  | none => children

/-! ## Insertion -/

def insertNode256 (count : Nat) (byte : UInt8) (child : α) : Layout × (Nat → α) :=
  (node256 (count + 1), update children byte.toNat child)

/-- `Node256::GrowNode48`. -/
def growNode48 (childIndex : UInt8 → Nat) : Nat → α := fun i =>
  if i < 256 ∧ childIndex (UInt8.ofNat i) ≠ emptyMarker
  then children (childIndex (UInt8.ofNat i)) else cleared

/-- The slot after the last child, or the first free one if that is taken. -/
def freeSlot (count : Nat) : Nat :=
  if hasMetadata (children count)
  then (List.range node48Capacity).findIdx fun i => !hasMetadata (children i)
  else count

def insertNode48 (count : Nat) (childIndex : UInt8 → Nat) (byte : UInt8) (child : α) :
    Layout × (Nat → α) :=
  if count < node48Capacity then
    let pos := freeSlot children count
    (node48 (count + 1) (update childIndex byte pos), update children pos child)
  else insertNode256 (growNode48 children childIndex) count byte child

/-- The index of `Node48::GrowNode16`. -/
def growIndex (key : List UInt8) : UInt8 → Nat := fun byte => (position key byte).getD emptyMarker

/-- The slots of `Node48::GrowNode16`. -/
def growSlots (key : List UInt8) : Nat → α := fun i =>
  if i < key.length then children i else cleared

def insertNode16 (key : List UInt8) (byte : UInt8) (child : α) : Layout × (Nat → α) :=
  if key.length < node16Capacity then
    let pos := insertPosition key byte
    (node16 (key.insertIdx pos byte), insertAt pos child children)
  else insertNode48 (growSlots children key) key.length (growIndex key) byte child

/-- A full node grows by taking its arrays over as they are. -/
def insertNode4 (key : List UInt8) (byte : UInt8) (child : α) : Layout × (Nat → α) :=
  if key.length < node4Capacity then
    let pos := insertPosition key byte
    (node4 (key.insertIdx pos byte), insertAt pos child children)
  else insertNode16 children key byte child

def insertChild (layout : Layout) (byte : UInt8) (child : α) : Layout × (Nat → α) :=
  match layout with
  | node4 key => insertNode4 children key byte child
  | node16 key => insertNode16 children key byte child
  | node48 count childIndex => insertNode48 children count childIndex byte child
  | node256 count => insertNode256 children count byte child

/-! ## Deletion -/

/-- The bytes that have a child, in order. -/
def usedBytes (used : UInt8 → Bool) : List UInt8 := allBytes.filter used

/-- `Node16::ShrinkNode48`. -/
def shrinkNode48 (childIndex : UInt8 → Nat) : Layout × (Nat → α) :=
  let key := usedBytes fun b => childIndex b ≠ emptyMarker
  (node16 key, fun i => children (childIndex (key.getD i 0)))

/-- `Node48::ShrinkNode256`. -/
def shrinkNode256 : Layout × (Nat → α) :=
  let key := usedBytes fun b => hasMetadata (children b.toNat)
  (node48 key.length (growIndex key),
    fun i => if i < key.length then children (key.getD i 0).toNat else cleared)

/-- Remove the child at a byte. A `Node4` that is left with one child is
resolved by the caller. -/
def deleteChild (layout : Layout) (byte : UInt8) : Layout × (Nat → α) :=
  match layout with
  | node4 key =>
    match position key byte with
    | some pos => (node4 (key.eraseIdx pos), removeAt pos children)
    | none => (node4 key, children)
  | node16 key =>
    match position key byte with
    | some pos =>
      let key' := key.eraseIdx pos
      (if key'.length < node4Capacity then node4 key' else node16 key', removeAt pos children)
    | none => (node16 key, children)
  | node48 count childIndex =>
    let children' := update children (childIndex byte) cleared
    let childIndex' := update childIndex byte emptyMarker
    if count - 1 < node48ShrinkThreshold then shrinkNode48 children' childIndex'
    else (node48 (count - 1) childIndex', children')
  | node256 count =>
    let children' := update children byte.toNat cleared
    if count - 1 ≤ node256ShrinkThreshold then shrinkNode256 children'
    else (node256 (count - 1), children')

/-! ## Well-formed layouts -/

/-- A sorted key array, with a child for each of its entries. -/
structure SortedKeys (capacity : Nat) (key : List UInt8) : Prop where
  sorted : key.Pairwise (· < ·)
  fits : key.length ≤ capacity
  occupied : ∀ i < key.length, hasMetadata (children i) = true

/-- The index is a bijection between the bytes in use and the occupied slots. -/
structure IndexedSlots (count : Nat) (childIndex : UInt8 → Nat) : Prop where
  bounded : ∀ byte, childIndex byte ≠ emptyMarker → childIndex byte < node48Capacity
  occupied : ∀ byte, childIndex byte ≠ emptyMarker →
    hasMetadata (children (childIndex byte)) = true
  distinct : ∀ byte other, childIndex byte ≠ emptyMarker → childIndex byte = childIndex other →
    byte = other
  cleared : ∀ i < node48Capacity, hasMetadata (children i) = true →
    ∃ byte, childIndex byte = i
  counted : count = allBytes.countP fun byte => decide (childIndex byte ≠ emptyMarker)

def Valid (layout : Layout) : Prop :=
  match layout with
  | node4 key => SortedKeys children node4Capacity key
  | node16 key => SortedKeys children node16Capacity key
  | node48 count childIndex => IndexedSlots children count childIndex
  | node256 count => count = allBytes.countP fun byte => hasMetadata (children byte.toNat)

end

end Layout

end AccessPath
