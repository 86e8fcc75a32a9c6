import AccessPath.Art.Node

/-!
# The operations of the index

`ART::Insert`, `ART::Erase`, `ART::Lookup`, `ART::ConstructFromSorted` and the
merge of two trees (`art.cpp` and `node.cpp`). A key stands for its bytes from
the current depth on.
-/

namespace AccessPath

open Library Node Prefix Function

namespace ART

/-! ## Insert -/

/-- `ART::InsertToLeaf`: a unique index takes no second row ID. -/
def insertToLeaf (unique : Bool) (leaf : Node) (rowId : RowId) : Node × Bool :=
  if unique then (leaf, false) else (Leaf.insert leaf rowId, true)

/-- The new path of a key below an inner node. -/
def newLeaf (key : ARTKey) (rowId : RowId) : Node := new key (leafInlined rowId)

/-- A new `Node4` with two children. -/
def newNode4 (byte : UInt8) (child : Node) (byte' : UInt8) (child' : Node) : Node :=
  let first := (Layout.node4 []).insertChild (fun _ => empty) byte child
  let second := first.1.insertChild first.2 byte' child'
  branch second.1 second.2

def insert (unique : Bool) : Node → ARTKey → RowId → Node × Bool
  | empty, key, rowId => (newLeaf key rowId, true)
  | leafInlined inlined, _, rowId => insertToLeaf unique (leafInlined inlined) rowId
  | leaf segments, _, rowId => insertToLeaf unique (leaf segments) rowId
  | branch layout children, key, rowId =>
    let byte := key.headD 0
    match layout.slot children byte with
    | some i =>
      let result := insert unique (children i) key.tail rowId
      (branch layout (update children i result.1), result.2)
    | none =>
      let node := layout.insertChild children byte (newLeaf key.tail rowId)
      (branch node.1 node.2, true)
  | prefixNode data next, key, rowId =>
    match mismatchPosition data key with
    | none =>
      let result := insert unique next (key.drop data.length) rowId
      (prefixNode data result.1, result.2)
    | some position =>
      let key := key.drop position
      let remaining := splitChild data next position
      let node := newNode4 (data.getD position 0) remaining (key.headD 0) (newLeaf key.tail rowId)
      (splitNode data position node, true)

/-! ## Erase -/

/-- `Node::DeleteChild`. A `Node4` with one child left is merged into the prefix
nodes above it. -/
def deleteChild (above : List Bytes) (layout : Layout) (children : Nat → Node) (byte : UInt8) :
    Node :=
  let node := layout.deleteChild children byte
  match layout, node.1 with
  | .node4 _, .node4 [only] => concatenate above only (node.2 0)
  | _, _ => chain above (branch node.1 node.2)

/-- `Prefix::Traverse`: the node behind the prefix nodes that match the key, and
the rest of the key. The result is a prefix node at a mismatch. -/
def traverse : Node → ARTKey → Node × ARTKey
  | prefixNode data next, key =>
    match mismatchPosition data key with
    | some position => (prefixNode data next, key.drop position)
    | none => traverse next (key.drop data.length)
  | node, key => (node, key)

/-- Put another node behind all prefix nodes. -/
def replaceBase (node base : Node) : Node := chain (segments node) base

/-- `ART::Erase`, below the prefix nodes `above` of the same pointer. -/
def eraseBelow (above : List Bytes) : Node → ARTKey → RowId → Node
  | prefixNode data next, key, rowId =>
    match mismatchPosition data key with
    | some _ => chain above (prefixNode data next)
    | none => eraseBelow (above ++ [data]) next (key.drop data.length) rowId
  | branch layout children, key, rowId =>
    let byte := key.headD 0
    match layout.slot children byte with
    | none => chain above (branch layout children)
    | some i =>
      let below := (traverse (children i) key.tail).1
      if below.isPrefixNode then chain above (branch layout children)
      else if below.isLeaf then
        let removed := Leaf.remove below rowId
        if removed.hasMetadata then
          chain above (branch layout (update children i (replaceBase (children i) removed)))
        else deleteChild above layout children byte
      else
        let child := eraseBelow [] (children i) key.tail rowId
        chain above (branch layout (update children i child))
  | empty, _, _ => chain above empty
  | node, _, rowId =>
    let removed := Leaf.remove node rowId
    if removed.hasMetadata then chain above removed else empty

def erase (node : Node) (key : ARTKey) (rowId : RowId) : Node := eraseBelow [] node key rowId

/-! ## Lookup -/

/-- The leaf of a key. -/
def lookup : Node → ARTKey → Option Node
  | empty, _ => none
  | prefixNode data next, key =>
    match mismatchPosition data key with
    | some _ => none
    | none => lookup next (key.drop data.length)
  | branch layout children, key =>
    match layout.slot children (key.headD 0) with
    | none => none
    | some i => lookup (children i) key.tail
  | node, _ => some node

/-! ## Construction from sorted keys -/

/-- How far two keys agree; the first may end. -/
def agreement : ARTKey → ARTKey → Nat
  | byte :: key, key' => if byte = key'.headD 0 then agreement key key'.tail + 1 else 0
  | [], _ => 0

/-- `GetChildSections`: the runs of keys with the same first byte. -/
def childSections (section_ : List (ARTKey × RowId)) : List (List (ARTKey × RowId)) :=
  section_.splitBy fun a b => a.1.headD 0 == b.1.headD 0

/-- `Node::GetARTNodeTypeByCount` and `Node::New`. -/
def newLayout (count : Nat) : Layout := if count ≤ node4Capacity then .node4 []
  else if count ≤ node16Capacity then .node16 []
  else if count ≤ node48Capacity then .node48 0 fun _ => emptyMarker
  else .node256 0

/-- Construct the children one after the other, up to the first that violates
the constraint. -/
def insertSections (construct : List (ARTKey × RowId) → Node × Bool) :
    List (List (ARTKey × RowId)) → Layout → (Nat → Node) → (Layout × (Nat → Node)) × Bool
  | [], layout, children => ((layout, children), true)
  | section_ :: sections, layout, children =>
    let child := construct (section_.map fun entry => (entry.1.tail, entry.2))
    let byte := ((section_.getLast?.map fun entry => entry.1.headD 0)).getD 0
    let node := layout.insertChild children byte child.1
    if child.2 then insertSections construct sections node.1 node.2 else (node, false)

/-- `Construct` for a section of the keys, to a depth of at most `fuel` bytes. -/
def construct (unique : Bool) : Nat → List (ARTKey × RowId) → Node × Bool
  | 0, _ => (empty, false)
  | fuel + 1, section_ =>
    let start := (section_.head?.map Prod.fst).getD []
    let last := (section_.getLast?.map Prod.fst).getD []
    let depth := agreement start last
    if depth = start.length then
      if unique && section_.length != 1 then (empty, false)
      else (new start (Leaf.new (section_.map Prod.snd)), true)
    else
      let sections := childSections (section_.map fun entry => (entry.1.drop depth, entry.2))
      let node := insertSections (construct unique fuel) sections (newLayout sections.length)
        fun _ => empty
      (new (start.take depth) (branch node.1.1 node.1.2), node.2)

/-! ## Merge -/

/-- `MergePrefixesDiffer`: a new node for both sides at the byte where their
prefix nodes differ. -/
def mergePrefixesDiffer (data : Bytes) (next : Node) (data' : Bytes) (next' : Node)
    (position : Nat) : Node :=
  splitNode data position (newNode4 (data.getD position 0) (splitChild data next position)
      (data'.getD position 0) (reduce data' next' position))

/-- Merge the children of `r` from a byte on into `l`, in at most `rounds`
rounds. -/
def mergeChildren (resolve : Node → Node → Option (Node × Bool)) (layout' : Layout)
    (children' : Nat → Node) : Nat → UInt8 → Layout → (Nat → Node) →
    Option ((Layout × (Nat → Node)) × Bool)
  | 0, _, layout, children => some ((layout, children), true)
  | rounds + 1, byte, layout, children =>
    match layout'.getNextChild children' byte with
    | none => some ((layout, children), true)
    | some (byte, j) =>
      match layout.slot children byte with
      | none =>
        let node := layout.insertChild children byte (children' j)
        if byte = 255 then some (node, true)
        else mergeChildren resolve layout' children' rounds (byte + 1) node.1 node.2
      | some i =>
        match resolve (children i) (children' j) with
        | none => none
        | some (child, false) => some ((layout, update children i child), false)
        | some (child, true) =>
          let children := update children i child
          if byte = 255 then some ((layout, children), true)
          else mergeChildren resolve layout' children' rounds (byte + 1) layout children

/-- `MergePrefixContainsOtherPrefix`: `r` has a longer prefix, which continues
at `position` below the inner node `l`. -/
def mergePrefixContainsOtherPrefix (resolve : Node → Node → Option (Node × Bool)) (l : Node)
    (data : Bytes) (next : Node) (position : Nat) : Option (Node × Bool) :=
  match l with
  | branch layout children =>
    let byte := data.getD position 0
    let r := reduce data next position
    match layout.slot children byte with
    | none =>
      let node := layout.insertChild children byte r
      some (branch node.1 node.2, true)
    | some i =>
      match resolve (children i) r with
      | none => none
      | some (child, success) => some (branch layout (update children i child), success)
  | _ => none

/-- `Node::MergeInternal`, for two nodes without prefix. -/
def mergeInternal (unique : Bool) (resolve : Node → Node → Option (Node × Bool)) (l r : Node) :
    Option (Node × Bool) :=
  match if l.type < r.type then (r, l) else (l, r) with
  | (branch layout children, branch layout' children') =>
    match mergeChildren resolve layout' children' 256 0 layout children with
    | none => none
    | some (node, success) => some (branch node.1 node.2, success)
  | (l, r) =>
    if l.isLeaf && r.isLeaf then
      if unique then some (l, false) else some (Leaf.merge l r, true)
    else none

/-- `Node::ResolvePrefixes`, to a depth of at most `fuel` steps. The result is
the left tree and whether no constraint was violated; there is none when the
fuel runs out and when a leaf meets an inner node, which the code refuses with
an exception. -/
def resolvePrefixes (unique : Bool) : Nat → Node → Node → Option (Node × Bool)
  | 0, _, _ => none
  | fuel + 1, l, r =>
    let resolve := resolvePrefixes unique fuel
    match l, r with
    | prefixNode data next, prefixNode data' next' =>
      match mismatchPosition (data.take (min data.length data'.length)) data' with
      | some position => some (mergePrefixesDiffer data next data' next' position, true)
      | none =>
        if data.length = data'.length then
          (resolve next next').map fun result => (prefixNode data result.1, result.2)
        else if ¬ next'.isPrefixNode ∧ data'.length < data.length then
          (mergePrefixContainsOtherPrefix resolve next' data next data'.length).map
            fun result => (prefixNode data' result.1, result.2)
        else
          (mergePrefixContainsOtherPrefix resolve next data' next' data.length).map
            fun result => (prefixNode data result.1, result.2)
    | prefixNode data next, r => mergePrefixContainsOtherPrefix resolve r data next 0
    | l, prefixNode data' next' => mergePrefixContainsOtherPrefix resolve l data' next' 0
    | l, r => mergeInternal unique resolve l r

/-- `Node::Merge`, called from `ART::MergeIndexes` unless the other tree is empty. -/
def merge (unique : Bool) (fuel : Nat) (l r : Node) : Option (Node × Bool) :=
  match l, r with
  | l, empty => some (l, true)
  | empty, r => some (r, true)
  | l, r => resolvePrefixes unique fuel l r

end ART

end AccessPath
