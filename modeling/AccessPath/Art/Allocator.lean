import Mathlib.Data.List.Sort
import Mathlib.Algebra.BigOperators.Group.Finset.Basic
import Mathlib.Algebra.GroupWithZero.Nat

/-!
# The allocators of the index

`FixedSizeAllocator` hands out segments of its buffers. A vacuum copies the
segments of the emptiest buffers to other ones, while the owner adjusts its
pointers, and destroys these buffers. Hash containers may be traversed in any
order.
-/

namespace AccessPath

open List Function

universe u

/-- `FixedSizeBuffer`: its bitmask has a set bit for every free segment. -/
structure FixedSizeBuffer (σ : Type u) where
  mask : Nat → Bool
  segments : Nat → σ
  segmentCount : Nat
  inMemory : Bool

/-- The first free offset, with the one after the last segment tried before. -/
def FixedSizeBuffer.getOffset {σ : Type u} (buffer : FixedSizeBuffer σ) (capacity : Nat) : Nat :=
  if buffer.mask buffer.segmentCount then buffer.segmentCount
  else ((range capacity).find? buffer.mask).getD 0

/-- `buffer` is read at the identifiers in `buffers` only. -/
structure FixedSizeAllocator (σ : Type u) where
  availableSegmentsPerBuffer : Nat
  totalSegmentCount : Nat
  buffers : Finset Nat
  buffer : Nat → FixedSizeBuffer σ
  buffersWithFreeSpace : Finset Nat
  vacuumBuffers : Finset Nat

/-- The order in which the hash containers of an allocator are traversed. -/
structure Traversal (σ : Type u) where
  order : FixedSizeAllocator σ → Finset Nat → List Nat
  enumerates : ∀ a ids, (order a ids : Multiset Nat) = ids.val

namespace Traversal

variable {σ : Type u} (tr : Traversal σ) (a : FixedSizeAllocator σ) {ids : Finset Nat}

theorem mem_order (id : Nat) : id ∈ tr.order a ids ↔ id ∈ ids := by
  rw [← Multiset.mem_coe, tr.enumerates, Finset.mem_val]

theorem headD_mem (some : ids.Nonempty) : (tr.order a ids).headD 0 ∈ ids := by
  obtain ⟨_, mem⟩ := some
  rw [← tr.mem_order a] at mem ⊢
  cases listed : tr.order a ids with
  | nil =>
    rw [listed] at mem
    exact absurd mem not_mem_nil
  | cons fst rest => exact mem_cons_self

end Traversal

namespace FixedSizeAllocator

variable {σ : Type u} [Inhabited σ]

/-! ## Operations -/

/-- The identifier of a buffer with the offset of a segment. -/
abbrev Place := Nat × Nat

def get (a : FixedSizeAllocator σ) (place : Place) : σ := (a.buffer place.1).segments place.2

def set (a : FixedSizeAllocator σ) (place : Place) (segment : σ) : FixedSizeAllocator σ := { a with
    buffer := update a.buffer place.1 { a.buffer place.1 with
        segments := update (a.buffer place.1).segments place.2 segment } }

/-- The first identifier from `id` downwards without a buffer. -/
def availableFrom (buffers : Finset Nat) : Nat → Nat
  | 0 => 0
  | id + 1 => if id + 1 ∈ buffers then availableFrom buffers id else id + 1

def getAvailableBufferId (a : FixedSizeAllocator σ) : Nat := availableFrom a.buffers a.buffers.card

/-- The first part of `New`, when no buffer has free space. -/
def addBuffer (a : FixedSizeAllocator σ) : FixedSizeAllocator σ :=
  let id := a.getAvailableBufferId
  { a with
    buffers := insert id a.buffers
    buffer := update a.buffer id
      ⟨fun offset => offset < a.availableSegmentsPerBuffer, fun _ => default, 0, true⟩
    buffersWithFreeSpace := insert id a.buffersWithFreeSpace }

/-- Mark a segment as taken and clear it. -/
def occupy (a : FixedSizeAllocator σ) (place : Place) : FixedSizeAllocator σ :=
  let buffer := a.buffer place.1
  { a with
    totalSegmentCount := a.totalSegmentCount + 1
    buffer := update a.buffer place.1 ⟨update buffer.mask place.2 false,
        update buffer.segments place.2 default, buffer.segmentCount + 1, true⟩
    buffersWithFreeSpace := if buffer.segmentCount + 1 = a.availableSegmentsPerBuffer
      then a.buffersWithFreeSpace.erase place.1 else a.buffersWithFreeSpace }

/-- The second part of `New`: take a segment of a buffer with free space. -/
def takeSegment (traversal : Traversal σ) (a : FixedSizeAllocator σ) :
    Place × FixedSizeAllocator σ :=
  let id := (traversal.order a a.buffersWithFreeSpace).headD 0
  let offset := (a.buffer id).getOffset a.availableSegmentsPerBuffer
  ((id, offset), a.occupy (id, offset))

def new (traversal : Traversal σ) (a : FixedSizeAllocator σ) : Place × FixedSizeAllocator σ :=
  if a.buffersWithFreeSpace = ∅ then a.addBuffer.takeSegment traversal
  else a.takeSegment traversal

def reset (a : FixedSizeAllocator σ) : FixedSizeAllocator σ :=
  { a with buffers := ∅, buffersWithFreeSpace := ∅, totalSegmentCount := 0 }

def removeEmpty (a : FixedSizeAllocator σ) : FixedSizeAllocator σ := { a with
    buffers := a.buffers.filter fun id => (a.buffer id).segmentCount ≠ 0
    buffersWithFreeSpace := a.buffersWithFreeSpace \
      a.buffers.filter fun id => (a.buffer id).segmentCount = 0 }

def availableIn (a : FixedSizeAllocator σ) (id : Nat) : Nat :=
  a.availableSegmentsPerBuffer - (a.buffer id).segmentCount

/-- The buffers in memory, ordered by their free segments as a multimap keeps
them. -/
def temporaryVacuumBuffers (traversal : Traversal σ) (a : FixedSizeAllocator σ) : List Nat :=
  ((traversal.order a a.buffers).filter fun id => (a.buffer id).inMemory).insertionSort
    fun id id' => a.availableIn id ≤ a.availableIn id'

/-- `excess_buffer_count`. -/
def excess (traversal : Traversal σ) (a : FixedSizeAllocator σ) : Nat :=
  ((a.temporaryVacuumBuffers traversal).map a.availableIn).sum / a.availableSegmentsPerBuffer

/-- `worthwhile` is the outcome of the test against `VACUUM_THRESHOLD`. -/
def initializeVacuum (traversal : Traversal σ) (worthwhile : Bool) (a : FixedSizeAllocator σ) :
    Bool × FixedSizeAllocator σ :=
  if a.totalSegmentCount = 0 then (false, a.reset)
  else
    let a := a.removeEmpty
    let candidates := a.temporaryVacuumBuffers traversal
    if candidates = [] then (false, a)
    else if !worthwhile then (false, a)
    else
      let chosen := (candidates.drop (candidates.length - a.excess traversal)).toFinset
      (true, { a with
          buffersWithFreeSpace := a.buffersWithFreeSpace \ chosen
          vacuumBuffers := a.vacuumBuffers ∪ chosen })

def needsVacuum (a : FixedSizeAllocator σ) (place : Place) : Bool := place.1 ∈ a.vacuumBuffers

def vacuumPointer (traversal : Traversal σ) (a : FixedSizeAllocator σ) (place : Place) :
    Place × FixedSizeAllocator σ :=
  let taken := a.new traversal
  let a' := { taken.2 with totalSegmentCount := taken.2.totalSegmentCount - 1 }
  (taken.1, a'.set taken.1 (a'.get place))

def finalizeVacuum (a : FixedSizeAllocator σ) : FixedSizeAllocator σ :=
  { a with buffers := a.buffers \ a.vacuumBuffers, vacuumBuffers := ∅ }

/-! ## Consistent allocators -/

/-- The offsets that are taken in a buffer. -/
def taken (a : FixedSizeAllocator σ) (id : Nat) : Finset Nat :=
  (Finset.range a.availableSegmentsPerBuffer).filter fun offset => (a.buffer id).mask offset = false

/-- The segments that are allocated. -/
def allocated (a : FixedSizeAllocator σ) : Finset Place :=
  (a.buffers ×ˢ Finset.range a.availableSegmentsPerBuffer).filter fun place =>
    (a.buffer place.1).mask place.2 = false

/-- The state of an allocator, also during a vacuum. -/
structure Working (a : FixedSizeAllocator σ) : Prop where
  capacity_pos : 0 < a.availableSegmentsPerBuffer
  counted : ∀ id ∈ a.buffers, (a.buffer id).segmentCount = (a.taken id).card
  space : ∀ id ∈ a.buffersWithFreeSpace, id ∈ a.buffers ∧ id ∉ a.vacuumBuffers ∧
    (a.buffer id).segmentCount < a.availableSegmentsPerBuffer
  vacuum_mem : a.vacuumBuffers ⊆ a.buffers

/-- The state of an allocator between operations. -/
structure Consistent (a : FixedSizeAllocator σ) : Prop extends Working a where
  total : a.totalSegmentCount = a.allocated.card
  resting : a.vacuumBuffers = ∅

section

variable {a : FixedSizeAllocator σ}

omit [Inhabited σ] in
theorem mem_taken_iff (id off : Nat) : off ∈ a.taken id ↔
      off < a.availableSegmentsPerBuffer ∧ (a.buffer id).mask off = false := by
  simp only [taken, Finset.mem_filter, Finset.mem_range]

variable (p : Place)

omit [Inhabited σ] in
theorem mem_allocated_iff : p ∈ a.allocated ↔ p.1 ∈ a.buffers ∧ p.2 ∈ a.taken p.1 := by
  simp only [allocated, mem_taken_iff, Finset.mem_filter, Finset.mem_product, Finset.mem_range]
  tauto

omit [Inhabited σ] in
/-- The offset that a buffer with free space gives out is free. -/
theorem getOffset_spec {id : Nat} (eq : (a.buffer id).segmentCount = (a.taken id).card)
    (space : (a.buffer id).segmentCount < a.availableSegmentsPerBuffer) :
    (a.buffer id).getOffset a.availableSegmentsPerBuffer < a.availableSegmentsPerBuffer ∧
      (a.buffer id).mask ((a.buffer id).getOffset a.availableSegmentsPerBuffer) = true := by
  unfold FixedSizeBuffer.getOffset
  split
  next hu => exact ⟨space, hu⟩
  next =>
    -- fewer offsets are taken than there are
    have notAll : ∃ off ∈ Finset.range a.availableSegmentsPerBuffer, off ∉ a.taken id := by
      apply Finset.exists_mem_notMem_of_card_lt_card
      rw [← eq, Finset.card_range]
      exact space
    obtain ⟨off, hb, free⟩ := notAll
    rw [mem_taken_iff, not_and, Bool.not_eq_false] at free
    cases got : (range a.availableSegmentsPerBuffer).find? (a.buffer id).mask with
    | none =>
      have fit := Finset.mem_range.mp hb
      have none := find?_eq_none.mp got off (mem_range.mpr fit)
      exact absurd (free fit) none
    | some fst =>
      constructor
      · exact mem_range.mp (mem_of_find?_eq_some got)
      · exact find?_some got

theorem mem_of_availableFrom_mem {buffers : Finset Nat} (n : Nat)
    (mem : availableFrom buffers n ∈ buffers) : ∀ id ≤ n, id ∈ buffers := by
  induction n with
  | zero =>
    intro id hb
    rw [Nat.le_zero.mp hb]
    exact mem
  | succ n ih =>
    intro id hb
    unfold availableFrom at mem
    split at mem
    next here =>
      rcases Nat.le_succ_iff.mp hb with lo | rfl
      · exact ih mem id lo
      · exact here
    next absent => exact absurd mem absent

omit [Inhabited σ] in
/-- Of the identifiers up to the number of buffers one is not in use. -/
theorem getAvailableBufferId_not_mem : a.getAvailableBufferId ∉ a.buffers := by
  intro mem
  have all : Finset.range (a.buffers.card + 1) ⊆ a.buffers := by
    intro id hb
    exact mem_of_availableFrom_mem _ mem id (Nat.lt_succ_iff.mp (Finset.mem_range.mp hb))
  have := Finset.card_le_card all
  rw [Finset.card_range] at this
  omega

/-! ## Allocation -/

/-- `a'` is `a` with one more segment, outside of the buffers to be vacuumed. -/
structure Allocates (a a' : FixedSizeAllocator σ) (place : Place) : Prop where
  working : a'.Working
  fresh : place ∉ a.allocated
  outside : place.1 ∉ a.vacuumBuffers
  allocated_eq : a'.allocated = insert place a.allocated
  vacuum_eq : a'.vacuumBuffers = a.vacuumBuffers
  get_eq : ∀ other ∈ a.allocated, a'.get other = a.get other

theorem taken_addBuffer (id : Nat) :
    a.addBuffer.taken id = if id = a.getAvailableBufferId then ∅ else a.taken id := by
  ext off
  by_cases new : id = a.getAvailableBufferId
  · subst new
    rw [mem_taken_iff, if_pos rfl]
    simp [addBuffer]
  · rw [mem_taken_iff, if_neg new, mem_taken_iff]
    simp [addBuffer, new]

theorem allocated_addBuffer : a.addBuffer.allocated = a.allocated := by
  ext p
  rw [mem_allocated_iff, mem_allocated_iff, taken_addBuffer]
  have hu := getAvailableBufferId_not_mem (a := a)
  by_cases new : p.1 = a.getAvailableBufferId
  · rw [new, if_pos rfl]
    simp [hu]
  · rw [if_neg new]
    simp [addBuffer, new]

theorem Working.addBuffer (work : a.Working) : a.addBuffer.Working where
  capacity_pos := work.capacity_pos
  counted := by
    intro id mem
    rw [taken_addBuffer]
    by_cases new : id = a.getAvailableBufferId
    · subst new
      simp [FixedSizeAllocator.addBuffer]
    · rw [if_neg new, ← work.counted id (Finset.mem_of_mem_insert_of_ne mem new)]
      simp [FixedSizeAllocator.addBuffer, new]
  space := by
    intro id mem
    by_cases new : id = a.getAvailableBufferId
    · subst new
      have absent : a.getAvailableBufferId ∉ a.vacuumBuffers := by
        intro mem
        exact getAvailableBufferId_not_mem (work.vacuum_mem mem)
      simpa [FixedSizeAllocator.addBuffer, absent] using work.capacity_pos
    · have held := work.space id (Finset.mem_of_mem_insert_of_ne mem new)
      simpa [FixedSizeAllocator.addBuffer, new] using held
  vacuum_mem := work.vacuum_mem.trans (Finset.subset_insert _ _)

theorem get_addBuffer (mem : p ∈ a.allocated) : a.addBuffer.get p = a.get p := by
  have old : p.1 ≠ a.getAvailableBufferId := by
    intro new
    exact getAvailableBufferId_not_mem (new ▸ ((mem_allocated_iff p).mp mem).1)
  simp [get, addBuffer, old]

section

variable {p : Place}

theorem taken_occupy (lt : p.2 < a.availableSegmentsPerBuffer) (id : Nat) : (a.occupy p).taken id =
      if id = p.1 then insert p.2 (a.taken id) else a.taken id := by
  ext off
  by_cases here : id = p.1
  · subst here
    rw [if_pos rfl, Finset.mem_insert, mem_taken_iff, mem_taken_iff]
    by_cases same : off = p.2
    · subst same
      simpa [occupy] using lt
    · simp [occupy, same]
  · rw [if_neg here, mem_taken_iff, mem_taken_iff]
    simp [occupy, here]

theorem allocated_occupy (held : p.1 ∈ a.buffers) (lt : p.2 < a.availableSegmentsPerBuffer) :
    (a.occupy p).allocated = insert p a.allocated := by
  ext o
  rw [Finset.mem_insert, mem_allocated_iff, mem_allocated_iff, taken_occupy lt]
  change o.1 ∈ a.buffers ∧ _ ↔ _
  by_cases here : o.1 = p.1
  · rw [if_pos here, Finset.mem_insert, Prod.ext_iff, here]
    simp [held]
  · rw [if_neg here, Prod.ext_iff]
    simp [here]

theorem Working.occupy (work : a.Working) (held : p.1 ∈ a.buffers)
    (lt : p.2 < a.availableSegmentsPerBuffer) (free : p.2 ∉ a.taken p.1) :
    (a.occupy p).Working where
  capacity_pos := work.capacity_pos
  counted := by
    intro id mem
    rw [taken_occupy lt]
    by_cases here : id = p.1
    · subst here
      rw [if_pos rfl, Finset.card_insert_of_notMem free, ← work.counted _ held]
      simp [FixedSizeAllocator.occupy]
    · rw [if_neg here, ← work.counted id mem]
      simp [FixedSizeAllocator.occupy, here]
  space := by
    intro id mem
    have old : id ∈ a.buffersWithFreeSpace := by
      simp only [FixedSizeAllocator.occupy] at mem
      split at mem
      · exact Finset.mem_of_mem_erase mem
      · exact mem
    obtain ⟨known, out, space⟩ := work.space id old
    apply And.intro known
    apply And.intro out
    by_cases here : id = p.1
    · subst here
      simp only [FixedSizeAllocator.occupy] at mem ⊢
      rw [update_self]
      split at mem
      next => exact absurd rfl (Finset.ne_of_mem_erase mem)
      next notFull => exact lt_of_le_of_ne space notFull
    · simpa [FixedSizeAllocator.occupy, here] using space
  vacuum_mem := work.vacuum_mem

theorem get_occupy {o : Place} (ne : o ≠ p) : (a.occupy p).get o = a.get o := by
  by_cases here : o.1 = p.1
  · have off : o.2 ≠ p.2 := by
      intro same
      exact ne (Prod.ext here same)
    simp [get, occupy, here, off]
  · simp [get, occupy, here]

end

variable (tr : Traversal σ)

theorem takeSegment_spec (work : a.Working) (room : a.buffersWithFreeSpace.Nonempty) :
    Allocates a (a.takeSegment tr).2 (a.takeSegment tr).1 := by
  obtain ⟨held, outside, space⟩ := work.space _ (tr.headD_mem a room)
  obtain ⟨hb, free⟩ := getOffset_spec (work.counted _ held) space
  unfold takeSegment
  dsimp only
  generalize (tr.order a a.buffersWithFreeSpace).headD 0 = id at *
  generalize (a.buffer id).getOffset a.availableSegmentsPerBuffer = off at *
  have unused : off ∉ a.taken id := by
    rw [mem_taken_iff, free]
    simp
  have fresh : (id, off) ∉ a.allocated := by
    intro mem
    exact unused ((mem_allocated_iff _).mp mem).2
  exact {
    working := work.occupy held hb unused
    fresh
    outside
    allocated_eq := allocated_occupy held hb
    vacuum_eq := rfl
    get_eq := by
      intro o mem
      apply get_occupy
      intro same
      exact fresh (same ▸ mem) }

theorem new_spec (work : a.Working) : Allocates a (a.new tr).2 (a.new tr).1 := by
  unfold new
  split
  next =>
    have step := takeSegment_spec tr work.addBuffer ⟨_, Finset.mem_insert_self _ _⟩
    exact {
      working := step.working
      fresh := allocated_addBuffer (a := a) ▸ step.fresh
      outside := step.outside
      allocated_eq := by rw [step.allocated_eq, allocated_addBuffer]
      vacuum_eq := step.vacuum_eq
      get_eq := by
        intro o mem
        rw [step.get_eq o (allocated_addBuffer (a := a) ▸ mem), get_addBuffer o mem] }
  next some => exact takeSegment_spec tr work (Finset.nonempty_iff_ne_empty.mpr some)

omit [Inhabited σ] in
theorem total_new [Inhabited σ] : (a.new tr).2.totalSegmentCount = a.totalSegmentCount + 1 := by
  unfold new
  split <;> rfl

/-! ## Writing to a segment -/

omit [Inhabited σ] in
theorem mask_set (seg : σ) (id : Nat) : ((a.set p seg).buffer id).mask = (a.buffer id).mask ∧
      ((a.set p seg).buffer id).segmentCount = (a.buffer id).segmentCount := by
  by_cases here : id = p.1
  · subst here
    simp [set]
  · simp [set, here]

omit [Inhabited σ] in
@[simp] theorem taken_set (seg : σ) (id : Nat) : (a.set p seg).taken id = a.taken id := by
  unfold taken
  rw [(mask_set p seg id).1]
  rfl

omit [Inhabited σ] in
@[simp] theorem allocated_set (seg : σ) : (a.set p seg).allocated = a.allocated := by
  ext other
  rw [mem_allocated_iff, mem_allocated_iff, taken_set]
  rfl

omit [Inhabited σ] in
theorem Working.set (work : a.Working) (p : Place) (seg : σ) : (a.set p seg).Working where
  capacity_pos := work.capacity_pos
  counted := by
    intro id mem
    rw [(mask_set p seg id).2, taken_set]
    exact work.counted id mem
  space := by
    intro id mem
    rw [(mask_set p seg id).2]
    exact work.space id mem
  vacuum_mem := work.vacuum_mem

omit [Inhabited σ] in
theorem get_set (seg : σ) (o : Place) : (a.set p seg).get o = if o = p then seg else a.get o := by
  by_cases here : o.1 = p.1
  · by_cases offset : o.2 = p.2
    · rw [if_pos (Prod.ext here offset)]
      simp [get, set, here, offset]
    · rw [if_neg (fun same => offset (congrArg Prod.snd same))]
      simp [get, set, here, offset]
  · rw [if_neg (fun same => here (congrArg Prod.fst same))]
    simp [get, set, here]

omit [Inhabited σ] in
theorem Working.recount (work : a.Working) (tot : Nat) :
    { a with totalSegmentCount := tot }.Working :=
  ⟨work.capacity_pos, work.counted, work.space, work.vacuum_mem⟩

/-! ## Vacuum -/

/-- A segment is moved by allocating another one with its content. -/
theorem vacuumPointer_spec (work : a.Working) {p : Place} (mem : p ∈ a.allocated) :
    Allocates a (a.vacuumPointer tr p).2 (a.vacuumPointer tr p).1 ∧
      (a.vacuumPointer tr p).2.get (a.vacuumPointer tr p).1 = a.get p := by
  have step := new_spec tr work
  unfold vacuumPointer
  generalize a.new tr = out at step ⊢
  constructor
  · exact {
      working := (step.working.recount _).set _ _
      fresh := step.fresh
      outside := step.outside
      allocated_eq := by
        rw [allocated_set]
        exact step.allocated_eq
      vacuum_eq := step.vacuum_eq
      get_eq := by
        intro o held
        have ne : o ≠ out.1 := by
          intro same
          exact step.fresh (same ▸ held)
        rw [get_set, if_neg ne]
        exact step.get_eq o held }
  · rw [get_set, if_pos rfl]
    exact step.get_eq p mem

theorem total_vacuumPointer (p : Place) :
    (a.vacuumPointer tr p).2.totalSegmentCount = a.totalSegmentCount := by
  change (a.new tr).2.totalSegmentCount - 1 = a.totalSegmentCount
  rw [total_new]
  rfl

omit [Inhabited σ] in
theorem mem_removeEmpty_buffers (id : Nat) :
    id ∈ a.removeEmpty.buffers ↔ id ∈ a.buffers ∧ (a.buffer id).segmentCount ≠ 0 :=
  Finset.mem_filter

omit [Inhabited σ] in
theorem allocated_removeEmpty (work : a.Working) : a.removeEmpty.allocated = a.allocated := by
  ext p
  rw [mem_allocated_iff, mem_allocated_iff, mem_removeEmpty_buffers]
  constructor
  · intro held
    exact ⟨held.1.1, held.2⟩
  · intro held
    have some : (a.buffer p.1).segmentCount ≠ 0 := by
      rw [work.counted _ held.1]
      exact Finset.card_ne_zero_of_mem held.2
    exact ⟨⟨held.1, some⟩, held.2⟩

omit [Inhabited σ] in
theorem Working.removeEmpty (work : a.Working) (resting : a.vacuumBuffers = ∅) :
    a.removeEmpty.Working where
  capacity_pos := work.capacity_pos
  counted := by
    intro id mem
    exact work.counted id ((mem_removeEmpty_buffers id).mp mem).1
  space := by
    intro id mem
    obtain ⟨old, kept⟩ := Finset.mem_sdiff.mp mem
    obtain ⟨held, out, space⟩ := work.space id old
    have some : (a.buffer id).segmentCount ≠ 0 := by
      intro none
      exact kept (Finset.mem_filter.mpr ⟨held, none⟩)
    exact ⟨(mem_removeEmpty_buffers id).mpr ⟨held, some⟩, out, space⟩
  vacuum_mem := by
    change a.vacuumBuffers ⊆ _
    rw [resting]
    exact Finset.empty_subset _

omit [Inhabited σ] in
theorem mem_temporaryVacuumBuffers {tr : Traversal σ} {id : Nat}
    (mem : id ∈ a.temporaryVacuumBuffers tr) : id ∈ a.buffers := by
  rw [temporaryVacuumBuffers, mem_insertionSort, mem_filter, tr.mem_order] at mem
  exact mem.1

omit [Inhabited σ] in
/-- `a'` is `a` as `InitializeVacuum` leaves it. -/
structure Prepared (a a' : FixedSizeAllocator σ) (needed : Bool) : Prop where
  working : a'.Working
  allocated_eq : a'.allocated = a.allocated
  get_eq : a'.get = a.get
  total_eq : a'.totalSegmentCount = a.totalSegmentCount
  resting : needed = false → a'.vacuumBuffers = ∅

omit [Inhabited σ] in
theorem reset_spec (consistent : a.Consistent) (none : a.totalSegmentCount = 0) :
    Prepared a a.reset false where
  working := {
    capacity_pos := consistent.capacity_pos
    counted := by simp [reset]
    space := by simp [reset]
    vacuum_mem := by simp [reset, consistent.resting] }
  allocated_eq := by
    rw [consistent.total, Finset.card_eq_zero] at none
    rw [none]
    exact Finset.eq_empty_of_forall_notMem (by simp [mem_allocated_iff, reset])
  get_eq := rfl
  total_eq := none.symm
  resting := fun _ => consistent.resting

omit [Inhabited σ] in
theorem initializeVacuum_spec (worthwhile : Bool)
    (consistent : a.Consistent) : Prepared a (a.initializeVacuum tr worthwhile).2
      (a.initializeVacuum tr worthwhile).1 := by
  have hwk := consistent.toWorking.removeEmpty consistent.resting
  have same := allocated_removeEmpty consistent.toWorking
  have kept : Prepared a a.removeEmpty false :=
    ⟨hwk, same, rfl, rfl, fun _ => consistent.resting⟩
  unfold initializeVacuum
  split
  next none => exact reset_spec consistent none
  next =>
    dsimp only
    split
    next => exact kept
    next =>
      split
      next => exact kept
      next =>
        exact {
          working := {
            capacity_pos := hwk.capacity_pos
            counted := hwk.counted
            space := by
              intro id mem
              obtain ⟨old, unchosen⟩ := Finset.mem_sdiff.mp mem
              obtain ⟨held, out, space⟩ := hwk.space id old
              exact ⟨held, Finset.notMem_union.mpr ⟨out, unchosen⟩, space⟩
            vacuum_mem := by
              intro id mem
              rcases Finset.mem_union.mp mem with old | chosen
              · exact hwk.vacuum_mem old
              · rw [List.mem_toFinset] at chosen
                have listed := mem_of_mem_drop chosen
                exact mem_temporaryVacuumBuffers (a := a.removeEmpty) listed }
          allocated_eq := same
          get_eq := rfl
          total_eq := rfl
          resting := nofun }

omit [Inhabited σ] in
theorem mem_allocated_finalizeVacuum :
    p ∈ a.finalizeVacuum.allocated ↔ p ∈ a.allocated ∧ p.1 ∉ a.vacuumBuffers := by
  rw [mem_allocated_iff, mem_allocated_iff]
  change p.1 ∈ a.buffers \ a.vacuumBuffers ∧ p.2 ∈ a.taken p.1 ↔ _
  rw [Finset.mem_sdiff]
  tauto

omit [Inhabited σ] in
theorem Working.finalizeVacuum (work : a.Working) : a.finalizeVacuum.Working where
  capacity_pos := work.capacity_pos
  counted := by
    intro id mem
    exact work.counted id (Finset.mem_sdiff.mp mem).1
  space := by
    intro id mem
    obtain ⟨held, out, space⟩ := work.space id mem
    exact ⟨Finset.mem_sdiff.mpr ⟨held, out⟩, Finset.notMem_empty id, space⟩
  vacuum_mem := Finset.empty_subset _

end

end FixedSizeAllocator

end AccessPath
