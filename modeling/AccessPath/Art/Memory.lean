import AccessPath.Art.Allocator
import AccessPath.Art.Multimap

/-!
# The index in memory

The nodes of a tree lie in the segments of six allocators, one for each type of
node, and are linked by pointers. `Located` is a tree with the place of each of
its nodes, and `Stored` says that memory holds it.
-/

namespace AccessPath

open Library Node List Function

/-- The values of `NType` that have an allocator. -/
inductive NodeType where
  | prefixNode
  | leaf
  | node4
  | node16
  | node48
  | node256
  deriving DecidableEq, Repr

def NodeType.all : List NodeType := [.prefixNode, .leaf, .node4, .node16, .node48, .node256]

/-- An `IndexPointer` to a segment: the type in its metadata, its buffer and its
offset. -/
abbrev Address := NodeType × FixedSizeAllocator.Place

/-- A `Node` as it is stored in its parent. -/
inductive Pointer where
  | empty
  | leafInlined (rowId : RowId)
  | node (address : Address)

def Pointer.hasMetadata : Pointer → Bool
  | empty => false
  | _ => true

def Layout.type : Layout → NodeType
  | node4 _ => .node4
  | node16 _ => .node16
  | node48 _ _ => .node48
  | node256 _ => .node256

/-- The slots that the loop over the children of a node visits. -/
def Layout.slots (occupied : Nat → Bool) : Layout → List Nat
  | node4 key | node16 key => range key.length
  | node48 _ childIndex =>
    (usedBytes fun byte => decide (childIndex byte ≠ emptyMarker)).map childIndex
  | node256 _ => (range 256).filter occupied

/-- A segment apart from its pointers. -/
inductive Content where
  | prefixNode (data : Bytes)
  | leaf (rowIds : List RowId)
  | branch (layout : Layout)

/-- A node in memory. A prefix and a leaf have their pointer at 0. -/
structure Segment where
  content : Content
  pointers : Nat → Pointer

instance Segment.zeroed : Inhabited Segment := ⟨⟨.leaf [], fun _ => .empty⟩⟩

/-- The pointers of a segment that are followed. -/
def Segment.slots (segment : Segment) : List Nat :=
  match segment.content with
  | .prefixNode _ => [0]
  | .leaf _ => [0]
  | .branch layout => layout.slots fun i => (segment.pointers i).hasMetadata

/-- The allocators of an index. -/
abbrev Heap := NodeType → FixedSizeAllocator Segment

namespace Heap

def get (heap : Heap) (address : Address) : Segment := (heap address.1).get address.2

def set (heap : Heap) (address : Address) (segment : Segment) : Heap :=
  Function.update heap address.1 ((heap address.1).set address.2 segment)

def setPointer (heap : Heap) (address : Address) (i : Nat) (pointer : Pointer) : Heap :=
  heap.set address
    { heap.get address with pointers := Function.update (heap.get address).pointers i pointer }

def Allocated (heap : Heap) (address : Address) : Prop := address.2 ∈ (heap address.1).allocated

/-- The segment lies in a buffer that is about to be destroyed. -/
def Vacuumed (heap : Heap) (address : Address) : Prop :=
  address.2.1 ∈ (heap address.1).vacuumBuffers

theorem get_set (h : Heap) (addr : Address) (seg : Segment) (o : Address) :
    (h.set addr seg).get o = if o = addr then seg else h.get o := by
  by_cases type : o.1 = addr.1
  · have eq : o = addr ↔ o.2 = addr.2 := by
      rw [Prod.ext_iff]
      simp [type]
    simp only [get, set, type, update_self, FixedSizeAllocator.get_set, eq]
  · have different : o ≠ addr := by
      intro eq
      exact type (congrArg Prod.fst eq)
    simp [get, set, type, different]

/-! ## Relocation -/

/-- `heap'` is `heap` after a run that moved the nodes at `before` to `after`
and wrote to no segments in use but those in `touched`. -/
structure Relocates (heap heap' : Heap) (touched before after : List Address) : Prop where
  working : ∀ type, (heap' type).Working
  vacuum_eq : ∀ type, (heap' type).vacuumBuffers = (heap type).vacuumBuffers
  total_eq : ∀ type, (heap' type).totalSegmentCount = (heap type).totalSegmentCount
  types_eq : after.map Prod.fst = before.map Prod.fst
  allocated_iff : ∀ address, heap'.Allocated address ↔ heap.Allocated address ∨ address ∈ after
  frame : ∀ address, heap.Allocated address → address ∉ touched →
    heap'.get address = heap.get address
  origin : ∀ address ∈ after, address ∈ before ∨ ¬ heap.Allocated address
  outside : ∀ address ∈ after, ¬ heap.Vacuumed address
  kept : ∀ address ∈ before, ¬ heap.Vacuumed address → address ∈ after
  nodup : after.Nodup

namespace Relocates

variable {h h' heap'' : Heap} {touched pre after : List Address}

theorem vacuumed_iff (run : Relocates h h' touched pre after) (addr : Address) :
    h'.Vacuumed addr ↔ h.Vacuumed addr := by
  unfold Vacuumed
  rw [run.vacuum_eq]

theorem refl (working : ∀ type, (h type).Working) (nodup : pre.Nodup)
    (held : ∀ addr ∈ pre, h.Allocated addr)
    (outside : ∀ addr ∈ pre, ¬ h.Vacuumed addr) :
    Relocates h h [] pre pre where
  working
  vacuum_eq _ := rfl
  total_eq _ := rfl
  types_eq := rfl
  allocated_iff addr := ⟨.inl, fun hk => hk.elim id (held addr)⟩
  frame _ _ _ := rfl
  origin _ mem := .inl mem
  outside
  kept _ mem _ := mem
  nodup

theorem touching (run : Relocates h h' touched pre after) {touched' : List Address}
    (more : ∀ addr, h.Allocated addr → addr ∈ touched → addr ∈ touched') :
    Relocates h h' touched' pre after :=
  { run with
    frame := by
      intro addr held apart
      apply run.frame addr held
      intro mem
      exact apart (more addr held mem) }

section

variable {touched' pre' after' : List Address}

/-- The places after a run are apart from those that it did not move. -/
theorem apart (run : Relocates h h' touched pre after)
    (disjoint : pre.Disjoint pre') (held : ∀ addr ∈ pre', h.Allocated addr) :
    after.Disjoint pre' := by
  intro addr mem o
  rcases run.origin addr mem with old | new
  · exact disjoint old o
  · exact new (held addr o)

theorem append (run : Relocates h h' touched pre after)
    (next : Relocates h' heap'' touched' pre' after')
    (disjoint : pre.Disjoint pre') (held : ∀ addr ∈ pre', h.Allocated addr) :
    Relocates h heap'' (touched ++ touched') (pre ++ pre') (after ++ after') where
  working := next.working
  vacuum_eq type := (next.vacuum_eq type).trans (run.vacuum_eq type)
  total_eq type := (next.total_eq type).trans (run.total_eq type)
  types_eq := by rw [map_append, map_append, run.types_eq, next.types_eq]
  allocated_iff addr := by
    rw [next.allocated_iff, run.allocated_iff, mem_append, or_assoc]
  frame := by
    intro addr hk hut
    obtain ⟨fst, snd⟩ := not_or.mp (mt mem_append.mpr hut)
    rw [next.frame addr ((run.allocated_iff addr).mpr (.inl hk)) snd,
      run.frame addr hk fst]
  origin := by
    intro addr mem
    rcases mem_append.mp mem with mem | mem
    · exact (run.origin addr mem).imp (mem_append_left _) id
    · rcases next.origin addr mem with old | new
      · exact .inl (mem_append_right _ old)
      · right
        intro hk
        exact new ((run.allocated_iff addr).mpr (.inl hk))
  outside := by
    intro addr mem
    rcases mem_append.mp mem with mem | mem
    · exact run.outside addr mem
    · rw [← run.vacuumed_iff]
      exact next.outside addr mem
  kept := by
    intro addr mem stays
    rcases mem_append.mp mem with mem | mem
    · exact mem_append_left _ (run.kept addr mem stays)
    · rw [← run.vacuumed_iff] at stays
      exact mem_append_right _ (next.kept addr mem stays)
  nodup := by
    apply run.nodup.append next.nodup
    intro addr mem mem'
    rcases next.origin addr mem' with old | new
    · exact run.apart disjoint held mem old
    · exact new ((run.allocated_iff addr).mpr (.inr mem))

end

theorem write (working : ∀ type, (h type).Working) (addr : Address) (seg : Segment) :
    Relocates h (h.set addr seg) [addr] [] [] where
  working type := by
    by_cases here : type = addr.1
    · subst here
      rw [Heap.set, update_self]
      exact (working addr.1).set _ _
    · rw [Heap.set, update_of_ne here]
      exact working type
  vacuum_eq type := by
    by_cases here : type = addr.1
    · subst here
      rw [Heap.set, update_self]
      rfl
    · rw [Heap.set, update_of_ne here]
  total_eq type := by
    by_cases here : type = addr.1
    · subst here
      rw [Heap.set, update_self]
      rfl
    · rw [Heap.set, update_of_ne here]
  types_eq := rfl
  allocated_iff o := by
    unfold Allocated
    by_cases here : o.1 = addr.1
    · rw [here, Heap.set, update_self, FixedSizeAllocator.allocated_set]
      simp
    · rw [Heap.set, update_of_ne here]
      simp
  frame o _ apart := by
    rw [get_set, if_neg (ne_of_not_mem_cons apart)]
  origin := nofun
  outside := nofun
  kept := nofun
  nodup := nodup_nil

end Relocates

end Heap

/-! ## Trees in memory -/

/-- A tree with the places of its nodes; a chain of leaves has one for each of
its segments. -/
inductive Located where
  | empty
  | prefixNode (place : FixedSizeAllocator.Place) (data : Bytes) (next : Located)
  | leafInlined (rowId : RowId)
  | leaf (segments : List (FixedSizeAllocator.Place × List RowId))
  | branch (place : FixedSizeAllocator.Place) (layout : Layout) (children : Nat → Located)

namespace Located

def tree : Located → Node
  | empty => .empty
  | prefixNode _ data next => .prefixNode data next.tree
  | leafInlined rowId => .leafInlined rowId
  | leaf segments => .leaf (segments.map Prod.snd)
  | branch _ layout children => .branch layout fun i => (children i).tree

def pointer : Located → Pointer
  | empty => .empty
  | prefixNode place _ _ => .node (.prefixNode, place)
  | leafInlined rowId => .leafInlined rowId
  | leaf [] => .empty
  | leaf (segment :: _) => .node (.leaf, segment.1)
  | branch place layout _ => .node (layout.type, place)

/-- The slots of the children of an inner node. -/
def slots (layout : Layout) (children : Nat → Located) : List Nat :=
  layout.slots fun i => (children i).tree.hasMetadata

/-- The addresses of all nodes. -/
def addresses : Located → List Address
  | empty => []
  | prefixNode place _ next => (.prefixNode, place) :: next.addresses
  | leafInlined _ => []
  | leaf segments => segments.map fun segment => (.leaf, segment.1)
  | branch place layout children =>
    (layout.type, place) :: (slots layout children).flatMap fun i => (children i).addresses

/-- The number of nodes on the longest way down. -/
def height : Located → Nat
  | empty => 1
  | prefixNode _ _ next => next.height + 1
  | leafInlined _ => 1
  | leaf segments => segments.length + 2
  | branch _ layout children =>
    ((slots layout children).map fun i => (children i).height).foldr max 0 + 1

/-- The segments of a leaf in memory. -/
def ChainResides (heap : Heap) : List (FixedSizeAllocator.Place × List RowId) → Prop
  | [] => True
  | segment :: rest =>
    (∃ pointers, heap.get (.leaf, segment.1) = ⟨.leaf segment.2, pointers⟩ ∧
      pointers 0 = (leaf rest).pointer) ∧ ChainResides heap rest

/-- Memory holds the tree. -/
def Resides (heap : Heap) : Located → Prop
  | empty => True
  | prefixNode place data next =>
    (∃ pointers, heap.get (.prefixNode, place) = ⟨.prefixNode data, pointers⟩ ∧
      pointers 0 = next.pointer) ∧ next.Resides heap
  | leafInlined _ => True
  | leaf segments => ChainResides heap segments
  | branch place layout children =>
    (∃ pointers, heap.get (layout.type, place) = ⟨.branch layout, pointers⟩ ∧
      (layout.slots fun i => (pointers i).hasMetadata) = slots layout children ∧
      ∀ i ∈ slots layout children, pointers i = (children i).pointer) ∧
    ∀ i ∈ slots layout children, (children i).Resides heap

section

variable {h h' : Heap}

theorem ChainResides.frame {segs : List (FixedSizeAllocator.Place × List RowId)}
    (resides : ChainResides h segs)
    (eq : ∀ addr ∈ (leaf segs).addresses, h'.get addr = h.get addr) :
    ChainResides h' segs := by
  induction segs with
  | nil => trivial
  | cons seg rest ih =>
    obtain ⟨⟨ptrs, content, next⟩, hl⟩ := resides
    constructor
    · exact ⟨ptrs, (eq _ mem_cons_self).trans content, next⟩
    · exact ih hl fun addr mem => eq addr (mem_cons_of_mem _ mem)

theorem Resides.frame {loc : Located} (resides : loc.Resides h)
    (eq : ∀ addr ∈ loc.addresses, h'.get addr = h.get addr) :
    loc.Resides h' := by
  induction loc with
  | empty => trivial
  | leafInlined rowId => trivial
  | leaf segs => exact ChainResides.frame resides eq
  | prefixNode place data next ih =>
    obtain ⟨⟨ptrs, content, target⟩, lo⟩ := resides
    constructor
    · exact ⟨ptrs, (eq _ mem_cons_self).trans content, target⟩
    · exact ih lo fun addr mem => eq addr (mem_cons_of_mem _ mem)
  | branch place ly cs ih =>
    obtain ⟨⟨ptrs, content, used, targets⟩, lo⟩ := resides
    constructor
    · exact ⟨ptrs, (eq _ mem_cons_self).trans content, used, targets⟩
    · intro i mem
      apply ih i (lo i mem)
      intro addr hk
      exact eq addr (mem_cons_of_mem _ (mem_flatMap.mpr ⟨i, mem, hk⟩))

end

end Located

end AccessPath
