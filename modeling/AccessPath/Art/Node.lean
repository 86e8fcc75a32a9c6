import AccessPath.Art.Key
import AccessPath.Art.Layout
import AccessPath.Library.Chunks

/-!
# The nodes of the index

`Node` with its leaves, prefixes and inner nodes. A pointer is the tree that it
leads to; the cleared pointer is `empty`. Leaves and prefixes are chains of
segments.
-/

namespace AccessPath

open Library

/-- `MAX_ROW_ID_LOCAL`: row identifiers fit beside the type of an inlined leaf. -/
def maxRowIdLocal : Nat := 72057594037920000

abbrev RowId := Fin maxRowIdLocal

def prefixSize : Nat := 15

def leafSize : Nat := 4

inductive Node where
  | empty
  | prefixNode (data : Bytes) (next : Node)
  | leafInlined (rowId : RowId)
  | leaf (segments : List (List RowId))
  | branch (layout : Layout) (children : Nat → Node)

namespace Node

def hasMetadata : Node → Bool
  | empty => false
  | _ => true

instance child : Child Node where
  hasMetadata := hasMetadata
  cleared := empty
  hasMetadata_cleared := rfl

theorem hasMetadata_iff (n : Node) : n.hasMetadata = true ↔ n ≠ empty := by
  cases n <;> simp [hasMetadata]

/-- The values of `NType`; a pointer without metadata reads as 0. -/
def type : Node → Nat
  | empty => 0
  | prefixNode _ _ => 1
  | leaf _ => 2
  | branch (.node4 _) _ => 3
  | branch (.node16 _) _ => 4
  | branch (.node48 _ _) _ => 5
  | branch (.node256 _) _ => 6
  | leafInlined _ => 7

def isLeaf : Node → Bool
  | leafInlined _ | leaf _ => true
  | _ => false

def isPrefixNode : Node → Bool
  | prefixNode _ _ => true
  | _ => false

end Node

open Node

/-! ## Leaves -/

namespace Leaf

/-- `Leaf::New` for one row ID or for several. -/
def new : List RowId → Node
  | [rowId] => leafInlined rowId
  | rowIds => leaf (chunks leafSize rowIds)

/-- `Leaf::Insert`: an inlined row ID first moves to a segment of its own. -/
def insert (node : Node) (rowId : RowId) : Node :=
  match node with
  | leafInlined inlined => leaf (push leafSize [[inlined]] rowId)
  | leaf segments => leaf (push leafSize segments rowId)
  | node => node

/-- Overwrite the first occurrence of a row ID. -/
def overwrite (rowId last : RowId) : List (List RowId) → List (List RowId)
  | [] => []
  | segment :: rest =>
    match segment.idxOf? rowId with
    | some i => segment.set i last :: rest
    | none => segment :: overwrite rowId last rest

/-- The chain without its last row ID; a segment that it leaves empty is freed. -/
def dropLast (segments : List (List RowId)) : List (List RowId) :=
  match segments.getLast? with
  | none => []
  | some tail =>
    if tail.length = 1 then segments.dropLast else segments.dropLast ++ [tail.dropLast]

/-- `Leaf::Remove`. The row ID is overwritten with the last one of the chain;
of two row IDs the other becomes inlined. The result is empty when the removed
row ID was the only one. -/
def remove (node : Node) (rowId : RowId) : Node :=
  match node with
  | leafInlined inlined => if inlined = rowId then empty else leafInlined inlined
  | leaf segments =>
    match segments with
    | [first, second] :: _ =>
      if first = rowId then leafInlined second
      else if second = rowId then leafInlined first
      else leaf segments
    | _ =>
      match segments.flatten.getLast? with
      | none => leaf segments
      | some last => leaf (overwrite rowId last (dropLast segments))
  | node => node

/-- `Leaf::Merge`. The row IDs of a partly filled last segment of `l` move to
the end of the chain of `r`. -/
def merge (l r : Node) : Node :=
  match l, r with
  | l, leafInlined rowId => insert l rowId
  | leafInlined rowId, r => insert r rowId
  | leaf segments, leaf segments' =>
    let full := segments.takeWhile fun segment => segment.length = leafSize
    let last := ((segments.dropWhile fun segment => segment.length = leafSize).head?).getD []
    leaf (pushAll leafSize (full ++ segments') last)
  | l, _ => l

/-- The row IDs of a leaf in the order of its segments. -/
def rowIds : Node → List RowId
  | leafInlined rowId => [rowId]
  | leaf segments => segments.flatten
  | _ => []

/-- `Leaf::GetRowIds`: append the row IDs to a result, unless there would be
more than `maxCount`. -/
def getRowIds (node : Node) (result : List RowId) (maxCount : Nat) : Option (List RowId) :=
  if result.length + (rowIds node).length > maxCount then none else some (result ++ rowIds node)

end Leaf

/-! ## Prefixes -/

namespace Prefix

/-- A chain of prefix nodes that ends in `base`. -/
def chain (segments : List Bytes) (base : Node) : Node := segments.foldr prefixNode base

@[simp] theorem chain_nil (base : Node) : chain [] base = base := rfl

@[simp] theorem chain_cons (data : Bytes) (segs : List Bytes) (base : Node) :
    chain (data :: segs) base = prefixNode data (chain segs base) := rfl

theorem chain_append (segs segs' : List Bytes) (base : Node) :
    chain (segs ++ segs') base = chain segs (chain segs' base) :=
  List.foldr_append

/-- The bytes of the prefix nodes that a node starts with. -/
def segments : Node → List Bytes
  | prefixNode data next => data :: segments next
  | _ => []

/-- The node after them. -/
def base : Node → Node
  | prefixNode _ next => base next
  | node => node

theorem chain_segments_base (n : Node) : chain (segments n) (base n) = n := by
  induction n with
  | prefixNode data next ih => rw [segments, base, chain_cons, ih]
  | _ => rfl

/-- `Prefix::New`: the bytes of a key in full nodes and a rest. -/
def new (key : Bytes) (next : Node) : Node := chain (chunks prefixSize key) next

/-- `Prefix::Append`: copy the bytes of another chain to the end of this one. -/
def append (chain : List Bytes) (other : List Bytes) : List Bytes :=
  other.foldl (pushAll prefixSize) chain

/-- `Prefix::Concatenate`: the prefix of a node that is left with one child, the
byte of the child and the prefix of the child. -/
def concatenate (above : List Bytes) (byte : UInt8) (child : Node) : Node :=
  match above with
  | [] => chain (append [[byte]] (segments child)) (base child)
  | above => chain (append (push prefixSize above byte) (segments child)) (base child)

/-- The first position at which a prefix node differs from the key. A key that
has ended reads as zeros. -/
def mismatchPosition : Bytes → ARTKey → Option Nat
  | [], _ => none
  | byte :: data, key =>
    if byte ≠ key.headD 0 then some 0 else (mismatchPosition data key.tail).map (· + 1)

/-- `Prefix::Reduce`: drop the bytes up to and including position `n`. -/
def reduce (data : Bytes) (next : Node) (n : Nat) : Node :=
  if n = data.length - 1 then next
  else chain (append [data.drop (n + 1)] (segments next)) (base next)

/-- `Prefix::Split`, the part behind the split. -/
def splitChild (data : Bytes) (next : Node) (position : Nat) : Node :=
  if position + 1 = prefixSize then next
  else if position + 1 < data.length then
    chain (append (pushAll prefixSize [[]] (data.drop (position + 1))) (segments next)) (base next)
  else next

/-- `Prefix::Split`, the part before the split with the node that follows it. -/
def splitNode (data : Bytes) (position : Nat) (node : Node) : Node :=
  if position + 1 = prefixSize then prefixNode (data.take (data.length - 1)) node
  else if position = 0 then node
  else prefixNode (data.take position) node

end Prefix

end AccessPath
