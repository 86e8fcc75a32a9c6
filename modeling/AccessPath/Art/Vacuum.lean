import AccessPath.Art.Memory

/-!
# Vacuum

`ART::Vacuum` moves the nodes that lie in chosen buffers to other segments, one
allocator per node type, while it walks the tree, and then destroys the
buffers.
-/

namespace AccessPath

open Library Node Located Function
open List hiding count

/-- `vacuum_flags`: the allocators that are vacuumed. -/
abbrev ARTFlags := NodeType → Bool

variable {flags : ARTFlags} {place : FixedSizeAllocator.Place} {h' heap' heap₁ : Heap}
  {layout : Layout} {xs : List Nat}

namespace Heap

variable (traversal : NodeType → Traversal Segment)

/-- Move a node out of a buffer that is to be destroyed. -/
def vacuumNode (heap : Heap) (address : Address) : Address × Heap :=
  if (heap address.1).needsVacuum address.2 then
    let moved := (heap address.1).vacuumPointer (traversal address.1) address.2
    ((address.1, moved.1), update heap address.1 moved.2)
  else (address, heap)

/-- Visit the pointers of the segment at an address one after the other. -/
def vacuumPointers (visit : Heap → Pointer → Option (Heap × Pointer)) (address : Address) :
    List Nat → Heap → Option Heap
  | [], heap => some heap
  | i :: slots, heap => do
    let (heap, pointer) ← visit heap ((heap.get address).pointers i)
    vacuumPointers visit address slots (heap.setPointer address i pointer)

/-- `Leaf::Vacuum`: the loop over the segments of a leaf. -/
def vacuumLeaf : Nat → Heap → Pointer → Option (Heap × Pointer)
  | 0, _, _ => none
  | _ + 1, heap, .empty => some (heap, .empty)
  | _ + 1, _, .leafInlined _ => none
  | fuel + 1, heap, .node address => do
    let moved := heap.vacuumNode traversal address
    let heap ← vacuumPointers (vacuumLeaf fuel) moved.1 (moved.2.get moved.1).slots moved.2
    some (heap, .node moved.1)

/-- `Node::Vacuum`. The loop of `Prefix::Vacuum` goes on in the call for the
next node. -/
def vacuum (flags : ARTFlags) : Nat → Heap → Pointer → Option (Heap × Pointer)
  | 0, _, _ => none
  | _ + 1, _, .empty => none
  | _ + 1, heap, .leafInlined rowId => some (heap, .leafInlined rowId)
  | fuel + 1, heap, .node address => do
    if address.1 = .leaf then
      if flags .leaf then vacuumLeaf traversal fuel heap (.node address)
      else some (heap, .node address)
    else
      let moved := if flags address.1 then heap.vacuumNode traversal address else (address, heap)
      let heap ← vacuumPointers (vacuum flags fuel) moved.1 (moved.2.get moved.1).slots moved.2
      some (heap, .node moved.1)

end Heap

/-- `FinalizeVacuum` for the allocators that were vacuumed. -/
def Heap.finalize (flags : ARTFlags) (heap : Heap) : Heap := fun type =>
  if flags type then (heap type).finalizeVacuum else heap type

/-- `ART::Vacuum`. -/
def ART.vacuum (traversal : NodeType → Traversal Segment) (worthwhile : NodeType → Bool)
    (fuel : Nat) (heap : Heap) (tree : Pointer) : Option (Heap × Pointer) :=
  if !tree.hasMetadata then some (fun type => (heap type).reset, tree)
  else
    let initialized := fun type => (heap type).initializeVacuum (traversal type) (worthwhile type)
    let flags : ARTFlags := fun type => (initialized type).1
    let heap : Heap := fun type => (initialized type).2
    if !NodeType.all.any flags then some (heap, tree)
    else do
      let (heap, tree) ← heap.vacuum traversal flags fuel tree
      some (heap.finalize flags, tree)

/-! ## Moving one node -/

/-- The allocators as they are while the tree is walked. -/
structure Ready (flags : ARTFlags) (heap : Heap) : Prop where
  working : ∀ type, (heap type).Working
  resting : ∀ type, flags type = false → (heap type).vacuumBuffers = ∅

namespace Heap

variable {tr : NodeType → Traversal Segment} {flags : ARTFlags} {h h' : Heap}

theorem Relocates.ready {hit old aft : List Address}
    (run : Relocates h h' hit old aft) (ready : Ready flags h) :
    Ready flags h' where
  working := run.working
  resting := by
    intro type unset
    rw [run.vacuum_eq]
    exact ready.resting type unset

theorem Relocates.allocate (working : ∀ type, (h type).Working) {type : NodeType}
    {place' : FixedSizeAllocator.Place} {a : FixedSizeAllocator Segment}
    (step : (h type).Allocates a place')
    (tot : a.totalSegmentCount = (h type).totalSegmentCount)
    (leaves : h.Vacuumed (type, place)) :
    Relocates h (update h type a) [] [(type, place)] [(type, place')] where
  working o := by
    by_cases here : o = type
    · subst here
      rw [update_self]
      exact step.working
    · rw [update_of_ne here]
      exact working o
  vacuum_eq o := by
    by_cases here : o = type
    · subst here
      rw [update_self, step.vacuum_eq]
    · rw [update_of_ne here]
  total_eq o := by
    by_cases here : o = type
    · subst here
      rw [update_self, tot]
    · rw [update_of_ne here]
  types_eq := rfl
  allocated_iff addr := by
    obtain ⟨o, got⟩ := addr
    unfold Allocated
    by_cases here : o = type
    · subst here
      rw [update_self, step.allocated_eq, Finset.mem_insert]
      simp [or_comm]
    · rw [update_of_ne here]
      simp [here]
  frame addr held _ := by
    obtain ⟨o, got⟩ := addr
    unfold Heap.get
    by_cases here : o = type
    · subst here
      rw [update_self]
      exact step.get_eq got held
    · rw [update_of_ne here]
  origin := by
    intro addr mem
    rw [mem_singleton.mp mem]
    exact .inr step.fresh
  outside := by
    intro addr mem
    rw [mem_singleton.mp mem]
    exact step.outside
  kept := by
    intro addr mem stays
    rw [mem_singleton.mp mem] at stays
    exact absurd leaves stays
  nodup := nodup_singleton _

theorem vacuumNode_spec (work : ∀ type, (h type).Working) {addr : Address}
    (held : h.Allocated addr) : Relocates h (h.vacuumNode tr addr).2 [] [addr]
        [(h.vacuumNode tr addr).1] ∧ (h.vacuumNode tr addr).1.1 = addr.1 ∧
      (h.vacuumNode tr addr).2.get (h.vacuumNode tr addr).1 = h.get addr := by
  unfold vacuumNode
  split
  next leaves =>
    obtain ⟨step, copied⟩ := FixedSizeAllocator.vacuumPointer_spec (tr addr.1) (work addr.1) held
    have tot := FixedSizeAllocator.total_vacuumPointer (a := h addr.1) (tr addr.1) addr.2
    have leaves : addr.2.1 ∈ (h addr.1).vacuumBuffers := of_decide_eq_true leaves
    constructor
    · exact Relocates.allocate work step tot leaves
    · apply And.intro rfl
      unfold Heap.get
      dsimp only
      rw [update_self]
      exact copied
  next stays =>
    have stays : ¬ h.Vacuumed addr := by
      intro leaves
      exact stays (decide_eq_true leaves)
    constructor
    · apply Relocates.refl work (nodup_singleton _)
      · intro o mem
        rw [mem_singleton.mp mem]
        exact held
      · intro o mem
        rw [mem_singleton.mp mem]
        exact stays
    · exact ⟨rfl, rfl⟩

end Heap

/-! ## Moving the nodes of a tree -/

open Heap

/-- Memory holds a tree, each node in a segment of its own. -/
structure Placed (flags : ARTFlags) (heap : Heap) (located : Located) : Prop where
  ready : Ready flags heap
  resides : located.Resides heap
  nodup : located.addresses.Nodup
  held : ∀ address ∈ located.addresses, heap.Allocated address

/-- The tree was moved, and is the same tree. -/
structure Moved (heap : Heap) (located : Located) (heap' : Heap) (located' : Located) : Prop where
  tree_eq : located'.tree = located.tree
  resides : located'.Resides heap'
  relocates : Relocates heap heap' located.addresses located.addresses located'.addresses

/-- The function moves the tree wherever memory holds it. -/
def Visits (flags : ARTFlags) (visit : Heap → Pointer → Option (Heap × Pointer))
    (located : Located) : Prop :=
  ∀ heap, Placed flags heap located →
    ∃ heap' located', visit heap located.pointer = some (heap', located'.pointer) ∧
      Moved heap located heap' located'

/-- The addresses of the trees in some slots. -/
def Located.forest (slots : List Nat) (children : Nat → Located) : List Address :=
  slots.flatMap fun i => (children i).addresses

variable {located : Located}

section

variable {flags : ARTFlags} {visit : Heap → Pointer → Option (Heap × Pointer)}
  {addr : Address} {ct : Content}

/-- The segment at an address leads to the trees in some slots. -/
structure Branches (flags : ARTFlags) (heap : Heap) (address : Address) (content : Content)
    (slots : List Nat) (pointers : Nat → Pointer) (children : Nat → Located) : Prop where
  ready : Ready flags heap
  stored : heap.get address = ⟨content, pointers⟩
  known : heap.Allocated address
  apart : address ∉ forest slots children
  nodup : (forest slots children).Nodup
  held : ∀ other ∈ forest slots children, heap.Allocated other
  targets : ∀ i ∈ slots, pointers i = (children i).pointer ∧ (children i).Resides heap

/-- The trees behind the pointers were moved. -/
structure BranchesMoved (heap : Heap) (address : Address) (content : Content) (slots : List Nat)
    (pointers : Nat → Pointer) (children : Nat → Located) (heap' : Heap)
    (pointers' : Nat → Pointer) (children' : Nat → Located) : Prop where
  stored : heap'.get address = ⟨content, pointers'⟩
  targets : ∀ i ∈ slots, pointers' i = (children' i).pointer ∧ (children' i).Resides heap' ∧
    (children' i).tree = (children i).tree
  others : ∀ i ∉ slots, pointers' i = pointers i ∧ children' i = children i
  relocates : Relocates heap heap' (address :: forest slots children)
    (forest slots children) (forest slots children')

variable {h : Heap} {ptrs : Nat → Pointer} {cs : Nat → Located} {slots : List Nat} {i : Nat}

theorem Branches.placed (kids : Branches flags h addr ct slots ptrs cs)
    (mem : i ∈ slots) (nd : (cs i).addresses.Nodup) : Placed flags h (cs i) where
  ready := kids.ready
  resides := (kids.targets i mem).2
  nodup := nd
  held := by
    intro o known
    exact kids.held o (mem_flatMap.mpr ⟨i, mem, known⟩)

/-- One round of the loop: the first tree is moved and its pointer stored. -/
theorem Branches.step (kids : Branches flags h addr ct (i :: xs) ptrs cs)
    (out : i ∉ xs) (moved : Moved h (cs i) h' located) :
    Branches flags (h'.setPointer addr i located.pointer) addr ct xs
        (update ptrs i located.pointer) cs ∧
      located.Resides (h'.setPointer addr i located.pointer) ∧
      Relocates h (h'.setPointer addr i located.pointer)
        (addr :: (cs i).addresses) (cs i).addresses located.addresses := by
  have apart : addr ∉ (cs i).addresses := by
    intro mem
    exact kids.apart (mem_append_left _ mem)
  have sto : h'.get addr = ⟨ct, ptrs⟩ :=
    (moved.relocates.frame addr kids.known apart).trans kids.stored
  have fst : Relocates h (h'.setPointer addr i located.pointer)
      (addr :: (cs i).addresses) (cs i).addresses located.addresses := by
    have run := moved.relocates.append (Relocates.write moved.relocates.working addr
      ⟨ct, update ptrs i located.pointer⟩) (disjoint_nil_right _) nofun
    rw [append_nil, append_nil] at run
    rw [setPointer, sto]
    apply run.touching
    intro o _ mem
    rw [mem_append, mem_singleton] at mem
    exact mem_cons.mpr mem.symm
  apply And.intro
  · obtain ⟨_, nd, disjoint⟩ := nodup_append.mp kids.nodup
    exact {
      ready := fst.ready kids.ready
      stored := by rw [setPointer, get_set, if_pos rfl, sto]
      known := (fst.allocated_iff addr).mpr (.inl kids.known)
      apart := fun mem => kids.apart (mem_append_right _ mem)
      nodup := nd
      held := by
        intro o mem
        exact (fst.allocated_iff o).mpr (.inl (kids.held o (mem_append_right _ mem)))
      targets := by
        intro j mem
        obtain ⟨t, resides⟩ := kids.targets j (mem_cons_of_mem _ mem)
        have ne : j ≠ i := by
          intro eq
          exact out (eq ▸ mem)
        apply And.intro ((update_of_ne ne _ _).trans t)
        apply resides.frame
        intro o known
        have listed : o ∈ forest xs cs := mem_flatMap.mpr ⟨j, mem, known⟩
        apply fst.frame o (kids.held o (mem_append_right _ listed))
        intro ht
        rcases mem_cons.mp ht with eq | here
        · exact kids.apart (mem_append_right _ (eq ▸ listed))
        · exact disjoint o here o listed rfl }
  · apply And.intro _ fst
    apply moved.resides.frame
    intro o mem
    have ne : o ≠ addr := by
      intro eq
      rcases moved.relocates.origin o mem with old | unknown
      · exact apart (eq ▸ old)
      · exact unknown (eq ▸ kids.known)
    rw [setPointer, get_set, if_neg ne]

theorem Located.forest_update (out : i ∉ xs) (loc : Located) :
    forest xs (update cs i loc) = forest xs cs := by
  apply flatMap_congr
  intro j mem
  have ne : j ≠ i := by
    intro eq
    exact out (eq ▸ mem)
  rw [update_of_ne ne]

theorem BranchesMoved.cons {xs : List Nat} {h' heap'' : Heap}
    {ptrs' : Nat → Pointer} {cs' : Nat → Located}
    (kids : Branches flags h addr ct (i :: xs) ptrs cs)
    (out : i ∉ xs) (moved : Moved h (cs i) h' located)
    (late : BranchesMoved (h'.setPointer addr i located.pointer) addr ct xs
      (update ptrs i located.pointer) cs heap'' ptrs' cs') :
    BranchesMoved h addr ct (i :: xs) ptrs cs heap'' ptrs' (update cs' i located) := by
  obtain ⟨_, resides, fst⟩ := kids.step out moved
  have disjoint : (cs i).addresses.Disjoint (forest xs cs) := by
    intro o here there
    exact (nodup_append.mp kids.nodup).2.2 o here o there rfl
  have held (o : Address) (mem : o ∈ forest xs cs) :
      h.Allocated o := kids.held o (mem_append_right _ mem)
  have apart (o : Address) (mem : o ∈ located.addresses) : o ∉ addr :: forest xs cs := by
    intro ht
    rcases mem_cons.mp ht with eq | there
    · rcases fst.origin o mem with old | unknown
      · exact kids.apart (mem_append_left _ (eq ▸ old))
      · exact unknown (eq ▸ kids.known)
    · exact fst.apart disjoint held mem there
  exact {
    stored := late.stored
    targets := by
      intro j mem
      by_cases here : j = i
      · subst here
        rw [update_self]
        apply And.intro ((late.others j out).1.trans (update_self ..))
        apply And.intro _ moved.tree_eq
        apply resides.frame
        intro o mem
        exact late.relocates.frame o ((fst.allocated_iff o).mpr (.inr mem)) (apart o mem)
      · rw [update_of_ne here]
        exact late.targets j (mem_of_ne_of_mem here mem)
    others := by
      intro j absent
      have ne := ne_of_not_mem_cons absent
      have ho := late.others j (not_mem_of_not_mem_cons absent)
      rw [update_of_ne ne] at ho ⊢
      exact ho
    relocates := by
      have aft : forest (i :: xs) (update cs' i located) =
          located.addresses ++ forest xs cs' := by
        rw [← forest_update out located]
        simp [forest]
      rw [aft]
      apply (fst.append late.relocates disjoint held).touching
      intro o _ mem
      simp only [mem_append, mem_cons, forest, flatMap_cons] at mem ⊢
      tauto }

theorem vacuumPointers_spec (nd : slots.Nodup)
    (kids : Branches flags h addr ct slots ptrs cs)
    (visits : ∀ i ∈ slots, Visits flags visit (cs i)) :
    ∃ h' ptrs' cs', vacuumPointers visit addr slots h = some h' ∧
      BranchesMoved h addr ct slots ptrs cs h' ptrs' cs' := by
  induction slots generalizing h ptrs with
  | nil =>
    refine ⟨h, ptrs, cs, rfl, kids.stored, nofun, fun _ _ => ⟨rfl, rfl⟩, ?_⟩
    exact (Relocates.refl kids.ready.working nodup_nil nofun nofun).touching nofun
  | cons i xs ih =>
    obtain ⟨new, nd⟩ := nodup_cons.mp nd
    have hpl := kids.placed mem_cons_self (nodup_append.mp kids.nodup).1
    obtain ⟨_, located, visited, moved⟩ := visits i mem_cons_self h hpl
    obtain ⟨h', ptrs', cs', done, hl⟩ :=
      ih nd (kids.step new moved).1 fun j mem => visits j (mem_cons_of_mem _ mem)
    refine ⟨h', ptrs', update cs' i located, ?_, .cons kids new moved hl⟩
    rw [vacuumPointers, kids.stored]
    dsimp only
    rw [(kids.targets i mem_cons_self).1, visited]
    exact done

/-- The pointers of a node are visited from the place that it was moved to. -/
theorem Branches.relocate {address₁ : Address}
    (kids : Branches flags h addr ct slots ptrs cs)
    (move : Relocates h heap₁ [] [addr] [address₁])
    (copied : heap₁.get address₁ = h.get addr) :
    Branches flags heap₁ address₁ ct slots ptrs cs where
  ready := move.ready kids.ready
  stored := copied.trans kids.stored
  known := (move.allocated_iff address₁).mpr (.inr mem_cons_self)
  apart := by
    intro mem
    rcases move.origin address₁ mem_cons_self with old | unknown
    · exact kids.apart (mem_singleton.mp old ▸ mem)
    · exact unknown (kids.held address₁ mem)
  nodup := kids.nodup
  held := by
    intro o mem
    exact (move.allocated_iff o).mpr (.inl (kids.held o mem))
  targets := by
    intro i mem
    obtain ⟨t, resides⟩ := kids.targets i mem
    apply And.intro t
    apply resides.frame
    intro o known
    have held := kids.held o (mem_flatMap.mpr ⟨i, mem, known⟩)
    exact move.frame o held not_mem_nil

theorem Branches.relocates {heap₁ h' : Heap} {address₁ : Address} {ptrs' : Nat → Pointer}
    {cs' : Nat → Located} (kids : Branches flags h addr ct slots ptrs cs)
    (move : Relocates h heap₁ [] [addr] [address₁])
    (moved : BranchesMoved heap₁ address₁ ct slots ptrs cs h' ptrs'
      cs') : Relocates h h' (addr :: forest slots cs)
      (addr :: forest slots cs) (address₁ :: forest slots cs') := by
  have disjoint : List.Disjoint [addr] (forest slots cs) := by
    intro o here there
    exact kids.apart (mem_singleton.mp here ▸ there)
  apply (move.append moved.relocates disjoint kids.held).touching
  intro o held mem
  rcases mem_cons.mp mem with eq | there
  · subst eq
    rcases move.origin o mem_cons_self with old | unknown
    · exact mem_cons.mpr (.inl (mem_singleton.mp old))
    · exact absurd held unknown
  · exact mem_cons_of_mem _ there

theorem Located.forest_singleton (cs : Nat → Located) : forest [0] cs = (cs 0).addresses := by
  simp [forest]

theorem Branches.single {c : Located} (ready : Ready flags h)
    (stored : h.get addr = ⟨ct, ptrs⟩)
    (nodup : (addr :: c.addresses).Nodup)
    (held : ∀ o ∈ addr :: c.addresses, h.Allocated o)
    (target : ptrs 0 = c.pointer) (resides : c.Resides h) :
    Branches flags h addr ct [0] ptrs fun _ => c where
  ready
  stored
  known := held _ mem_cons_self
  apart := forest_singleton _ ▸ (nodup_cons.mp nodup).1
  nodup := forest_singleton _ ▸ (nodup_cons.mp nodup).2
  held := by
    rw [forest_singleton]
    exact fun o mem => held o (mem_cons_of_mem _ mem)
  targets := by
    intro i mem
    rw [mem_singleton.mp mem]
    exact ⟨target, resides⟩

theorem vacuumSegment_spec (tr : NodeType → Traversal Segment) (nd : slots.Nodup)
    (kids : Branches flags h addr ct slots ptrs cs)
    (visits : ∀ i ∈ slots, Visits flags visit (cs i))
    (followed : (⟨ct, ptrs⟩ : Segment).slots = slots) : ∃ place' h' heap₁ ptrs' cs',
      (h.vacuumNode tr addr).1 = (addr.1, place') ∧
      vacuumPointers visit (h.vacuumNode tr addr).1
        ((h.vacuumNode tr addr).2.get (h.vacuumNode tr addr).1).slots
        (h.vacuumNode tr addr).2 = some h' ∧
      BranchesMoved heap₁ (addr.1, place') ct slots ptrs cs h' ptrs'
        cs' ∧ Relocates h h' (addr :: forest slots cs)
        (addr :: forest slots cs) ((addr.1, place') :: forest slots cs') := by
  obtain ⟨move, type, copied⟩ := @vacuumNode_spec tr h kids.ready.working addr kids.known
  generalize h.vacuumNode tr addr = out at *
  obtain ⟨⟨_, place'⟩, heap₁⟩ := out
  subst type
  obtain ⟨h', ptrs', cs', done, lo⟩ :=
    vacuumPointers_spec nd (kids.relocate move copied) visits
  refine ⟨place', h', heap₁, ptrs', cs', rfl, ?_, lo, kids.relocates move lo⟩
  rw [copied, kids.stored, followed]
  exact done

end

variable {n : Nat} {heap : Heap}

section

variable {flags : ARTFlags} (tr : NodeType → Traversal Segment)

theorem Moved.refl (put : Placed flags heap located)
    (out : ∀ addr ∈ located.addresses, ¬ heap.Vacuumed addr) :
    Moved heap located heap located where
  tree_eq := rfl
  resides := put.resides
  relocates := (Relocates.refl put.ready.working put.nodup put.held out).touching nofun

theorem Located.exists_leaf_of_tree {segs : List (List RowId)} (tree : located.tree = .leaf segs) :
    ∃ places, located = .leaf places ∧ places.map Prod.snd = segs := by
  cases located with
  | leaf places => exact ⟨places, rfl, Node.leaf.inj tree⟩
  | empty => cases tree
  | prefixNode place data next => cases tree
  | leafInlined rowId => cases tree
  | branch place layout cs => cases tree

theorem vacuumLeaf_visits (segs : List (FixedSizeAllocator.Place × List RowId))
    (lt : segs.length < n) : Visits flags (vacuumLeaf tr n) (.leaf segs) := by
  induction segs generalizing n with
  | nil =>
    intro heap hpl
    obtain ⟨n, rfl⟩ := Nat.exists_eq_add_one.mpr (Nat.zero_lt_of_lt lt)
    exact ⟨heap, .leaf [], rfl, .refl hpl nofun⟩
  | cons seg xs ih =>
    intro heap hpl
    obtain ⟨n, rfl⟩ := Nat.exists_eq_add_one.mpr (Nat.zero_lt_of_lt lt)
    obtain ⟨⟨ptrs, sto, t⟩, resides⟩ := hpl.resides
    have hb : Branches flags heap (.leaf, seg.1) (.leaf seg.2) [0] ptrs fun _ => .leaf xs :=
      .single hpl.ready sto hpl.nodup hpl.held t resides
    obtain ⟨place', heap', _, ptrs', _, moved, done, lo, run⟩ :=
      vacuumSegment_spec tr (nodup_singleton 0) hb
        (fun _ _ => ih (Nat.lt_of_succ_lt_succ lt)) rfl
    obtain ⟨t', resides', tree⟩ := lo.targets 0 mem_cons_self
    obtain ⟨xs', hsp, eq⟩ := exists_leaf_of_tree tree
    rw [forest_singleton, forest_singleton, hsp] at run
    rw [hsp] at t' resides'
    refine ⟨heap', .leaf ((place', seg.2) :: xs'), ?_, ?_, ?_, run⟩
    · change (vacuumLeaf tr (n + 1) heap (.node (.leaf, seg.1))) = _
      rw [vacuumLeaf, done, moved]
      rfl
    · simp only [Located.tree, map_cons, eq]
    · exact ⟨⟨ptrs', lo.stored, t'⟩, resides'⟩

theorem Located.hasMetadata_pointer (wf : WellFormed located.tree) :
    located.pointer.hasMetadata = true := by
  cases located with
  | empty => exact wf.elim
  | prefixNode place data next => rfl
  | leafInlined rowId => rfl
  | branch place layout cs => rfl
  | leaf segs =>
    cases segs with
    | nil => exact absurd wf.2 (by simp)
    | cons seg xs => rfl

theorem vacuumNode_of_unset (ready : Ready flags heap) (addr : Address) :
    (if flags addr.1 then heap.vacuumNode tr addr else (addr, heap)) = heap.vacuumNode tr addr := by
  split
  next => rfl
  next unset =>
    have none := ready.resting addr.1 (Bool.eq_false_of_not_eq_true unset)
    simp [vacuumNode, FixedSizeAllocator.needsVacuum, none]

theorem Layout.slots_nodup {cs : Nat → Node} (valid : layout.Valid cs) :
    (layout.slots fun i => (cs i).hasMetadata).Nodup := by
  cases layout with
  | node4 key | node16 key => exact nodup_range
  | node48 k childIndex => exact Layout.IndexedSlots.slots_nodup valid
  | node256 k => exact nodup_range.filter _

theorem Layout.exists_byte {cs : Nat → Node} (valid : layout.Valid cs) {i : Nat}
    (mem : i ∈ layout.slots fun i => (cs i).hasMetadata) :
    ∃ b, layout.slot cs b = some i := by
  have srt {key : List UInt8} (nd : key.Nodup) (mem : i ∈ range key.length) :
      ∃ b, position key b = some i := by
    have fit := mem_range.mp mem
    exact ⟨key[i], (position_eq_some_iff nd _ i).mpr (getElem?_eq_getElem fit)⟩
  cases layout with
  | node4 key | node16 key => exact srt (Layout.SortedKeys.nodup valid) mem
  | node48 k childIndex =>
    obtain ⟨b, used, rfl⟩ := List.mem_map.mp mem
    have used := of_decide_eq_true (mem_filter.mp used).2
    exact ⟨b, if_pos used⟩
  | node256 k =>
    obtain ⟨hb, hoc⟩ := mem_filter.mp mem
    have eq : (UInt8.ofNat i).toNat = i := Nat.mod_eq_of_lt (mem_range.mp hb)
    refine ⟨UInt8.ofNat i, ?_⟩
    simp only [Layout.slot, eq]
    exact if_pos hoc

theorem vacuum_visits_leaf {segs : List (FixedSizeAllocator.Place × List RowId)}
    (some : segs ≠ []) (lt : segs.length < n) :
    Visits flags (vacuum tr flags (n + 1)) (.leaf segs) := by
  intro heap hpl
  cases segs with
  | nil => exact absurd rfl some
  | cons seg xs =>
    have pointer : (leaf (seg :: xs)).pointer = .node (.leaf, seg.1) := rfl
    rw [pointer, vacuum, if_pos rfl]
    by_cases set : flags .leaf = true
    · rw [if_pos set]
      exact vacuumLeaf_visits tr (seg :: xs) lt heap hpl
    · rw [if_neg set]
      refine ⟨heap, .leaf (seg :: xs), rfl, .refl hpl ?_⟩
      intro addr mem leaves
      obtain ⟨_, _, rfl⟩ := List.mem_map.mp mem
      have none := hpl.ready.resting .leaf (Bool.eq_false_of_not_eq_true set)
      rw [Vacuumed, none] at leaves
      exact absurd leaves (Finset.notMem_empty _)

/-- A prefix or an inner node is moved, if it has to be, and its pointers are
followed. -/
theorem vacuum_node (ready : Ready flags heap) {addr : Address}
    (notLeaf : addr.1 ≠ .leaf) (n : Nat) :
    vacuum tr flags (n + 1) heap (.node addr) =
      (vacuumPointers (vacuum tr flags n) (heap.vacuumNode tr addr).1
        ((heap.vacuumNode tr addr).2.get (heap.vacuumNode tr addr).1).slots
        (heap.vacuumNode tr addr).2).map fun heap' =>
          (heap', .node (heap.vacuumNode tr addr).1) := by
  rw [vacuum, if_neg notLeaf]
  rw [vacuumNode_of_unset tr ready, Option.map_eq_bind]
  rfl

theorem vacuum_visits_prefixNode {data : Bytes} {next : Located}
    (lo : Visits flags (vacuum tr flags n) next) :
    Visits flags (vacuum tr flags (n + 1)) (.prefixNode place data next) := by
  intro heap hpl
  obtain ⟨⟨ptrs, sto, t⟩, resides⟩ := hpl.resides
  have hb : Branches flags heap (.prefixNode, place) (.prefixNode data) [0] ptrs
      fun _ => next :=
    .single hpl.ready sto hpl.nodup hpl.held t resides
  obtain ⟨place', heap', _, ptrs', children', moved, done, hl, run⟩ :=
    vacuumSegment_spec tr (nodup_singleton 0) hb (fun _ _ => lo) rfl
  obtain ⟨t', resides', tree⟩ := hl.targets 0 mem_cons_self
  rw [forest_singleton, forest_singleton] at run
  refine ⟨heap', .prefixNode place' data (children' 0), ?_, ?_, ?_, run⟩
  · change vacuum tr flags (n + 1) heap (.node (.prefixNode, place)) = _
    have notLeaf : (NodeType.prefixNode, place).1 ≠ .leaf := by
      intro eq
      cases eq
    rw [vacuum_node tr hpl.ready notLeaf, done, moved]
    rfl
  · simp only [Located.tree, tree]
  · exact ⟨⟨ptrs', hl.stored, t'⟩, resides'⟩

theorem Layout.type_ne_leaf (ly : Layout) : ly.type ≠ .leaf := by
  cases ly <;> exact nofun

theorem vacuum_visits_branch {cs : Nat → Located} (wf : WellFormed (branch place layout cs).tree)
    (below : ∀ i ∈ slots layout cs, Visits flags (vacuum tr flags n) (cs i)) :
    Visits flags (vacuum tr flags (n + 1)) (.branch place layout cs) := by
  intro heap placed
  obtain ⟨⟨ptrs, stored, used, targets⟩, resides⟩ := placed.resides
  have hb : Branches flags heap (layout.type, place) (.branch layout)
      (slots layout cs) ptrs cs := {
    ready := placed.ready
    stored
    known := placed.held _ mem_cons_self
    apart := (nodup_cons.mp placed.nodup).1
    nodup := (nodup_cons.mp placed.nodup).2
    held := fun o mem => placed.held o (mem_cons_of_mem _ mem)
    targets := fun i mem => ⟨targets i mem, resides i mem⟩ }
  have c (i : Nat) (mem : i ∈ slots layout cs) : WellFormed (cs i).tree := by
    obtain ⟨b, got⟩ := Layout.exists_byte wf.1 mem
    exact wf.2.2 b i got
  obtain ⟨place', heap', _, ptrs', cs', moved, done, hl, run⟩ :=
    vacuumSegment_spec tr (Layout.slots_nodup wf.1) hb below used
  have trees (i : Nat) : (cs' i).tree = (cs i).tree := by
    by_cases mem : i ∈ slots layout cs
    · exact (hl.targets i mem).2.2
    · rw [(hl.others i mem).2]
  have slots : slots layout cs' = slots layout cs := by
    simp only [slots, trees]
  have metadata (i : Nat) : (ptrs' i).hasMetadata = (ptrs i).hasMetadata := by
    by_cases mem : i ∈ Located.slots layout cs
    · obtain ⟨t, _, tree⟩ := hl.targets i mem
      rw [t, targets i mem, hasMetadata_pointer (c i mem), hasMetadata_pointer (tree ▸ c i mem)]
    · rw [(hl.others i mem).1]
  refine ⟨heap', .branch place' layout cs', ?_, ?_, ?_, ?_⟩
  · change vacuum tr flags (n + 1) heap (.node (layout.type, place)) = _
    rw [vacuum_node tr placed.ready layout.type_ne_leaf, done, moved]
    rfl
  · simp only [tree, trees]
  · rw [Located.Resides, slots]
    constructor
    · refine ⟨ptrs', hl.stored, ?_, fun i mem => (hl.targets i mem).1⟩
      simp only [metadata, used]
    · exact fun i mem => (hl.targets i mem).2.1
  · rw [addresses, addresses, slots]
    exact run

theorem Located.height_le {sl : List Nat} {cs : Nat → Located} {i : Nat} (mem : i ∈ sl) :
    (cs i).height ≤ (sl.map fun i => (cs i).height).foldr max 0 := by
  induction sl with
  | nil => exact absurd mem not_mem_nil
  | cons j xs ih =>
    rw [map_cons, foldr_cons]
    rcases mem_cons.mp mem with rfl | hl
    · exact le_max_left _ _
    · exact (ih hl).trans (le_max_right _ _)

theorem vacuum_visits (wf : WellFormed located.tree)
    (le : located.height ≤ n) : Visits flags (vacuum tr flags n) located := by
  induction located generalizing n with
  | empty => exact wf.elim
  | leafInlined rowId =>
    intro heap hpl
    obtain ⟨n, rfl⟩ := Nat.exists_eq_add_one.mpr (Nat.zero_lt_of_lt le)
    exact ⟨heap, .leafInlined rowId, rfl, .refl hpl nofun⟩
  | leaf segs =>
    obtain ⟨n, rfl⟩ := Nat.exists_eq_add_one.mpr (Nat.zero_lt_of_lt le)
    have some : segs ≠ [] := by
      intro none
      rw [none] at wf
      exact absurd wf.2 (by simp)
    exact vacuum_visits_leaf tr some (Nat.le_of_succ_le_succ le)
  | prefixNode place data next ih =>
    obtain ⟨n, rfl⟩ := Nat.exists_eq_add_one.mpr (Nat.zero_lt_of_lt le)
    exact vacuum_visits_prefixNode tr (ih wf.2.2 (Nat.le_of_succ_le_succ le))
  | branch place layout cs ih =>
    obtain ⟨_, rfl⟩ := Nat.exists_eq_add_one.mpr (Nat.zero_lt_of_lt le)
    apply vacuum_visits_branch tr wf
    intro i mem
    obtain ⟨b, got⟩ := Layout.exists_byte wf.1 mem
    apply ih i (wf.2.2 b i got)
    exact (height_le mem).trans (Nat.le_of_succ_le_succ le)

end

/-! ## The index after a vacuum -/

/-- The nodes of a tree are exactly the segments of the allocators. -/
structure Owned (heap : Heap) (located : Located) : Prop where
  consistent : ∀ type, (heap type).Consistent
  resides : located.Resides heap
  nodup : located.addresses.Nodup
  exactly : ∀ address, heap.Allocated address ↔ address ∈ located.addresses

/-- The number of nodes of a type. -/
def Located.count (located : Located) (type : NodeType) : Nat :=
  (located.addresses.map Prod.fst).count type

section

variable {heap : Heap} {located : Located}

theorem Located.card_allocated (nd : located.addresses.Nodup)
    (exactly : ∀ addr, heap.Allocated addr ↔ addr ∈ located.addresses)
    (type : NodeType) : (heap type).allocated.card = located.count type := by
  have listed : ((located.addresses.filter (·.1 = type)).map Prod.snd).toFinset =
      (heap type).allocated := by
    ext place
    rw [List.mem_toFinset, List.mem_map]
    apply Iff.trans _ (exactly (type, place)).symm
    constructor
    · intro got
      obtain ⟨⟨_, _⟩, mem, rfl⟩ := got
      obtain ⟨mem, eq⟩ := mem_filter.mp mem
      exact of_decide_eq_true eq ▸ mem
    · intro mem
      exact ⟨(type, place), mem_filter.mpr ⟨mem, decide_eq_true rfl⟩, rfl⟩
  rw [← listed, toFinset_card_of_nodup, length_map, ← countP_eq_length_filter,
    count, List.count, countP_map]
  · rfl
  · apply (nd.filter _).map_on
    intro addr mem addr' mem' eq
    have type := of_decide_eq_true (mem_filter.mp mem).2
    have type' := of_decide_eq_true (mem_filter.mp mem').2
    exact Prod.ext (type.trans type'.symm) eq

/-- The allocators hold the tree again when each segment that is left is one of
its nodes. -/
theorem Owned.of_prepared (owned : Owned heap located)
    (prepared : ∀ type, (heap type).Prepared (heap' type) (flags type)) :
    Placed flags heap' located := by
  have get_eq (addr : Address) : heap'.get addr = heap.get addr :=
    congrFun (prepared addr.1).get_eq addr.2
  exact {
    ready := ⟨fun type => (prepared type).working, fun type => (prepared type).resting⟩
    resides := owned.resides.frame fun addr _ => get_eq addr
    nodup := owned.nodup
    held := by
      intro addr mem
      rw [Allocated, (prepared addr.1).allocated_eq]
      exact (owned.exactly addr).mpr mem }

theorem Owned.of_idle (owned : Owned heap located)
    (prepared : ∀ type, (heap type).Prepared (heap' type) false) : Owned heap' located where
  consistent type := {
    toWorking := (prepared type).working
    total := by
      rw [(prepared type).total_eq, (prepared type).allocated_eq]
      exact (owned.consistent type).total
    resting := (prepared type).resting rfl }
  resides := (owned.of_prepared prepared).resides
  nodup := owned.nodup
  exactly addr := by
    rw [← owned.exactly, Allocated, (prepared addr.1).allocated_eq]
    rfl

theorem Heap.finalize_eq (ready : Ready flags heap) :
    heap.finalize flags = fun type => (heap type).finalizeVacuum := by
  funext type
  unfold Heap.finalize
  split
  next => rfl
  next unset =>
    have none := ready.resting type (Bool.eq_false_of_not_eq_true unset)
    unfold FixedSizeAllocator.finalizeVacuum
    rw [none, Finset.sdiff_empty, ← none]

theorem Owned.of_moved (owned : Owned heap located)
    (prepared : ∀ type, (heap type).Prepared (heap₁ type) (flags type)) {located' : Located}
    (moved : Moved heap₁ located heap' located') : Owned (heap'.finalize flags) located' := by
  have run := moved.relocates
  rw [finalize_eq (run.ready (owned.of_prepared prepared).ready)]
  have exactly (addr : Address) : Allocated (fun type => (heap' type).finalizeVacuum) addr ↔
        addr ∈ located'.addresses := by
    have old : heap₁.Allocated addr ↔ addr ∈ located.addresses := by
      rw [← owned.exactly, Allocated, (prepared addr.1).allocated_eq]
      rfl
    have left := FixedSizeAllocator.mem_allocated_finalizeVacuum (a := heap' addr.1) addr.2
    apply left.trans
    change heap'.Allocated addr ∧ ¬ heap'.Vacuumed addr ↔ _
    rw [run.allocated_iff, run.vacuumed_iff, old]
    constructor
    · intro stays
      exact stays.1.elim (fun mem => run.kept addr mem stays.2) id
    · intro mem
      exact ⟨.inr mem, run.outside addr mem⟩
  have tot (type : NodeType) : (heap' type).totalSegmentCount = located'.count type := by
    rw [run.total_eq, (prepared type).total_eq, (owned.consistent type).total,
      card_allocated owned.nodup owned.exactly, count, ← run.types_eq]
    rfl
  exact {
    consistent := fun type => {
      toWorking := (run.working type).finalizeVacuum
      total := (tot type).trans (card_allocated run.nodup exactly type).symm
      resting := rfl }
    resides := moved.resides.frame fun _ _ => rfl
    nodup := run.nodup
    exactly }

theorem Owned.mem_buffers (owned : Owned heap located) (addr : Address)
    (mem : addr ∈ located.addresses) : addr.2.1 ∈ (heap addr.1).buffers :=
  ((FixedSizeAllocator.mem_allocated_iff addr.2).mp ((owned.exactly addr).mpr mem)).1

theorem Owned.total (owned : Owned heap located) (type : NodeType) :
    (heap type).totalSegmentCount = located.count type :=
  (owned.consistent type).total.trans (card_allocated owned.nodup owned.exactly type)

theorem Owned.reset (owned : Owned heap .empty) : Owned (fun type => (heap type).reset) .empty := by
  apply owned.of_idle
  intro type
  exact FixedSizeAllocator.reset_spec (owned.consistent type) (owned.total type)

theorem Owned.vacuum (tr : NodeType → Traversal Segment) (worthwhile : NodeType → Bool)
    (wf : WellFormed located.tree) (owned : Owned heap located) (le : located.height ≤ n) :
    ∃ heap' located', ART.vacuum tr worthwhile n heap located.pointer =
        some (heap', located'.pointer) ∧ located'.tree = located.tree ∧ Owned heap' located' := by
  have prepared (type : NodeType) := FixedSizeAllocator.initializeVacuum_spec (tr type)
    (worthwhile type) (owned.consistent type)
  unfold ART.vacuum
  rw [hasMetadata_pointer wf]
  simp only [Bool.not_true, Bool.false_eq_true, if_false]
  split
  next none =>
    rw [Bool.not_eq_true', List.any_eq_false] at none
    refine ⟨_, located, rfl, rfl, owned.of_idle fun type => ?_⟩
    have unset := Bool.eq_false_of_not_eq_true (none type (by cases type <;> decide))
    exact unset ▸ prepared type
  next =>
    obtain ⟨_, located', done, moved⟩ :=
      vacuum_visits tr wf le _ (owned.of_prepared prepared)
    rw [done]
    exact ⟨_, located', rfl, moved.tree_eq, owned.of_moved prepared moved⟩

/-- After a vacuum the allocators hold the same tree: no node lies in a buffer
that was destroyed, the nodes have segments of their own, and the allocators
count them. -/
theorem ART.vacuum_owned (traversal : NodeType → Traversal Segment)
    (worthwhile : NodeType → Bool) (sound : Sound located.tree) (owned : Owned heap located)
    {fuel : Nat} (enough : located.height ≤ fuel) : ∃ heap' located',
      ART.vacuum traversal worthwhile fuel heap located.pointer = some (heap', located'.pointer) ∧
      located'.tree = located.tree ∧ Owned heap' located' ∧
      (∀ address ∈ located'.addresses, address.2.1 ∈ (heap' address.1).buffers) ∧
      ∀ type, (heap' type).totalSegmentCount = located'.count type := by
  have kept : ∃ heap' located', ART.vacuum traversal worthwhile fuel heap located.pointer =
      some (heap', located'.pointer) ∧ located'.tree = located.tree ∧ Owned heap' located' := by
    rcases sound with none | wf
    · cases located with
      | empty => exact ⟨_, .empty, rfl, rfl, owned.reset⟩
      | prefixNode place data next => cases none
      | leafInlined rowId => cases none
      | leaf segments => cases none
      | branch place layout children => cases none
    · exact owned.vacuum traversal worthwhile wf enough
  obtain ⟨heap', located', done, tree, after⟩ := kept
  exact ⟨heap', located', done, tree, after, after.mem_buffers, after.total⟩

end

/-- The buffers in increasing order. -/
def Traversal.increasing (σ : Type*) : Traversal σ where
  order _ ids := (range (ids.sup id + 1)).filter (· ∈ ids)
  enumerates _ ids := by
    rw [Multiset.Nodup.ext (Multiset.coe_nodup.mpr (nodup_range.filter _)) ids.nodup]
    intro found
    have bound (mem : found ∈ ids) : found < ids.sup id + 1 :=
      Nat.lt_succ_of_le (Finset.le_sup (f := id) mem)
    simpa using bound

/-- A leaf with two segments, in two buffers for two segments each. -/
def Located.twoSegments (row : RowId) : Located :=
  .leaf [((0, 0), [row, row, row, row]), ((1, 0), [row])]

/-- The allocators for it: one of the buffers is in excess. -/
def Heap.twoSegments (row : RowId) : Heap
  | .leaf =>
    { availableSegmentsPerBuffer := 2
      totalSegmentCount := 2
      buffers := {0, 1}
      buffer := fun id =>
        { mask := fun offset => offset = 1
          segments := fun _ =>
            if id = 0 then ⟨.leaf [row, row, row, row], fun _ => .node (.leaf, (1, 0))⟩
            else ⟨.leaf [row], fun _ => .empty⟩
          segmentCount := 1
          inMemory := true }
      buffersWithFreeSpace := {0, 1}
      vacuumBuffers := ∅ }
  | _ => ⟨2, 0, ∅, fun _ => ⟨fun _ => false, fun _ => default, 0, false⟩, ∅, ∅⟩

theorem owned_twoSegments (row : RowId) :
    Owned (Heap.twoSegments row) (Located.twoSegments row) := by
  have leaves : (Heap.twoSegments row .leaf).allocated = {(0, 0), (1, 0)} := rfl
  have ho (type : NodeType) (o : type ≠ .leaf) : (Heap.twoSegments row type).allocated = ∅ := by
    cases type with
    | leaf => exact absurd rfl o
    | _ => rfl
  exact {
    consistent := by
      intro type
      by_cases leaf : type = .leaf
      · subst leaf
        exact {
          capacity_pos := Nat.zero_lt_two
          counted := fun _ _ => rfl
          space := fun id mem => ⟨mem, Finset.notMem_empty id, Nat.one_lt_two⟩
          vacuum_mem := Finset.empty_subset _
          total := by
            rw [leaves]
            rfl
          resting := rfl }
      · have none : (Heap.twoSegments row type).Working ∧
            (Heap.twoSegments row type).totalSegmentCount = 0 ∧
            (Heap.twoSegments row type).vacuumBuffers = ∅ := by
          cases type with
          | leaf => exact absurd rfl leaf
          | _ => exact ⟨⟨Nat.zero_lt_two, nofun, nofun, Finset.empty_subset _⟩, rfl, rfl⟩
        exact ⟨none.1, by rw [none.2.1, ho type leaf, Finset.card_empty], none.2.2⟩
    resides := ⟨⟨_, rfl, rfl⟩, ⟨_, rfl, rfl⟩, trivial⟩
    nodup := by simp [Located.twoSegments, Located.addresses]
    exactly := by
      intro addr
      obtain ⟨type, _⟩ := addr
      unfold Allocated
      by_cases leaf : type = .leaf
      · subst leaf
        simp [leaves, Located.twoSegments, Located.addresses]
      · simp [ho type leaf, Located.twoSegments, Located.addresses, leaf] }

/-- One of the two buffers is emptied. -/
theorem ART.vacuum_owned_twoSegments :
    let row : RowId := ⟨7, by decide⟩
    let located := Located.twoSegments row
    let heap := Heap.twoSegments row
    Sound located.tree ∧ Owned heap located ∧
      ((heap .leaf).initializeVacuum (.increasing Segment) true).1 = true ∧
      ∃ heap' located',
        ART.vacuum (fun _ => .increasing Segment) (fun _ => true) 4 heap located.pointer =
          some (heap', located'.pointer) ∧
        located'.tree = located.tree ∧ Owned heap' located' ∧
        (∀ address ∈ located'.addresses, address.2.1 ∈ (heap' address.1).buffers) ∧
        ∀ type, (heap' type).totalSegmentCount = located'.count type := by
  intro row located heap
  have sound : Sound located.tree := .inr ⟨⟨rfl, Nat.one_pos, by decide⟩, by decide⟩
  have owned : Owned heap located := owned_twoSegments row
  exact ⟨sound, owned, by decide, ART.vacuum_owned _ _ sound owned (Nat.le_refl 4)⟩

end AccessPath
