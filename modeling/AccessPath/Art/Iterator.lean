import AccessPath.Art.Operations

/-!
# The iterator

`Iterator` walks from leaf to leaf in key order (`iterator.cpp`), and the range
searches of `art.cpp` start it and collect row IDs up to an upper bound.
-/

namespace AccessPath

open Library Node

/-- `current_key`, the stack `nodes` with its top first, and `last_leaf`. -/
structure Iterator where
  currentKey : ARTKey
  nodes : List (Node × UInt8)
  lastLeaf : Node

namespace Iterator

/-- An iterator before its first use. -/
def start : Iterator := ⟨[], [], empty⟩

/-- `IteratorKey::Pop`. -/
def pop (n : Nat) (key : ARTKey) : ARTKey := key.take (key.length - n)

/-- `IteratorKey::operator==`, which assumes that the lengths are equal. -/
def atKey (currentKey key : ARTKey) : Bool := (Prefix.mismatchPosition currentKey key).isNone

/-- Descend to the first leaf below a node. -/
def findMinimum : Node → Iterator → Iterator
  | prefixNode data next, it =>
    findMinimum next ⟨it.currentKey ++ data, (prefixNode data next, 0) :: it.nodes, it.lastLeaf⟩
  | branch layout children, it =>
    match layout.getNextChild children 0 with
    | none => it
    | some (byte, i) =>
      findMinimum (children i)
        ⟨it.currentKey ++ [byte], (branch layout children, byte) :: it.nodes, it.lastLeaf⟩
  | node, it => { it with lastLeaf := node }

/-- `Iterator::Next` on a stack: pop nodes without a further child, then descend.
There is no result when the stack becomes empty. -/
def nextFrom (lastLeaf : Node) : List (Node × UInt8) → ARTKey → Option Iterator
  | [], _ => none
  | (prefixNode data _, _) :: nodes, key => nextFrom lastLeaf nodes (pop data.length key)
  | (branch layout children, byte) :: nodes, key =>
    if byte = 255 then nextFrom lastLeaf nodes (pop 1 key)
    else
      match layout.getNextChild children (byte + 1) with
      | none => nextFrom lastLeaf nodes (pop 1 key)
      | some (byte, i) =>
        some (findMinimum (children i)
          ⟨pop 1 key ++ [byte], (branch layout children, byte) :: nodes, lastLeaf⟩)
  | _ :: nodes, key => nextFrom lastLeaf nodes (pop 1 key)

def next (it : Iterator) : Option Iterator := nextFrom it.lastLeaf it.nodes it.currentKey

/-- Descend to the first leaf whose key is not below the bound, and beyond the
bound itself unless `equal`. -/
def lowerBound : Node → ARTKey → Bool → Nat → Iterator → Option Iterator
  | empty, _, _, _, _ => none
  | prefixNode data next, key, equal, depth, it =>
    let it : Iterator :=
      ⟨it.currentKey ++ data, (prefixNode data next, 0) :: it.nodes, it.lastLeaf⟩
    match Prefix.mismatchPosition data (key.drop depth) with
    | some i =>
      if data.getD i 0 < key.getD (depth + i) 0 then it.next else some (findMinimum next it)
    | none => lowerBound next key equal (depth + data.length) it
  | branch layout children, key, equal, depth, it =>
    match layout.getNextChild children (key.getD depth 0) with
    | none => it.next
    | some (byte, i) =>
      let it : Iterator :=
        ⟨it.currentKey ++ [byte], (branch layout children, byte) :: it.nodes, it.lastLeaf⟩
      if byte > key.getD depth 0 then some (findMinimum (children i) it)
      else lowerBound (children i) key equal (depth + 1) it
  | node, key, equal, _, it =>
    if !equal && atKey it.currentKey key then it.next else some { it with lastLeaf := node }

/-- Past the upper bound; the empty key is no bound. -/
def exceeds (upperBound : ARTKey) (equal : Bool) (currentKey : ARTKey) : Bool :=
  !upperBound.isEmpty &&
    if equal then ARTKey.greater currentKey upperBound
    else ARTKey.greaterEqual currentKey upperBound

/-- `Iterator::Scan`, for at most `fuel` leaves. The result is what the function
returns and the row IDs. -/
def scan (upperBound : ARTKey) (maxCount : Nat) (equal : Bool) :
    Nat → Iterator → List RowId → Option (Bool × List RowId)
  | 0, _, _ => none
  | fuel + 1, it, resultIds =>
    if exceeds upperBound equal it.currentKey then some (true, resultIds)
    else
      match Leaf.getRowIds it.lastLeaf resultIds maxCount with
      | none => some (false, resultIds)
      | some resultIds =>
        match it.next with
        | none => some (true, resultIds)
        | some it => scan upperBound maxCount equal fuel it resultIds

end Iterator

namespace ART

/-- `ART::SearchGreater` with a new scan state. -/
def searchGreater (fuel : Nat) (tree : Node) (key : ARTKey) (equal : Bool) (maxCount : Nat) :
    Option (Bool × List RowId) :=
  if !tree.hasMetadata then some (true, [])
  else
    match Iterator.lowerBound tree key equal 0 .start with
    | none => some (true, [])
    | some it => Iterator.scan [] maxCount false fuel it []

/-- `ART::SearchLess` with a new scan state. -/
def searchLess (fuel : Nat) (tree : Node) (upperBound : ARTKey) (equal : Bool) (maxCount : Nat) :
    Option (Bool × List RowId) :=
  if !tree.hasMetadata then some (true, [])
  else
    let it := Iterator.findMinimum tree .start
    if ARTKey.greater it.currentKey upperBound then some (true, [])
    else Iterator.scan upperBound maxCount equal fuel it []

/-- `ART::SearchCloseRange` with a new scan state. -/
def searchCloseRange (fuel : Nat) (tree : Node) (lowerBound upperBound : ARTKey)
    (leftEqual rightEqual : Bool) (maxCount : Nat) : Option (Bool × List RowId) :=
  match Iterator.lowerBound tree lowerBound leftEqual 0 .start with
  | none => some (true, [])
  | some it => Iterator.scan upperBound maxCount rightEqual fuel it []

end ART

end AccessPath
