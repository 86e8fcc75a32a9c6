import Mathlib.Tactic

/-!
# Packed chains

A sequence kept in a chain of segments of bounded size. A chain is packed when
every segment but the last is full and none is empty; a packed chain is
determined by the sequence it holds.
-/

namespace AccessPath.Library

open List

section

variable {α : Type*} (size : Nat)

/-- Every segment before the last is full and none is empty. -/
def Packed : List (List α) → Prop
  | [] => True
  | [last] => 0 < last.length ∧ last.length ≤ size
  | segment :: next :: rest => segment.length = size ∧ Packed (next :: rest)

/-- Append one item: to the last segment, or in a new one if that is full. -/
def push : List (List α) → α → List (List α)
  | [], item => [[item]]
  | [last], item => if last.length = size then [last, [item]] else [last ++ [item]]
  | segment :: next :: rest, item => segment :: push (next :: rest) item

/-- The loop that fills segments from the front, in at most `fuel` rounds. -/
def fillChunks : Nat → List α → List (List α)
  | 0, _ => []
  | fuel + 1, items =>
    if items.isEmpty then [] else items.take size :: fillChunks fuel (items.drop size)

/-- Cut a sequence into full segments and a rest. -/
def chunks (items : List α) : List (List α) := fillChunks size items.length items

variable {size}

variable {seg : List α} {xs : List (List α)}

theorem Packed.tail (pack : Packed size (seg :: xs)) : Packed size xs := by
  cases xs with
  | nil => trivial
  | cons next xs => exact pack.2

theorem Packed.head_pos (pos : 0 < size) (pack : Packed size (seg :: xs))
    : 0 < seg.length ∧ seg.length ≤ size := by
  cases xs with
  | nil => exact pack
  | cons next xs => exact ⟨pack.1.symm ▸ pos, pack.1.le⟩

theorem Packed.flatten_ne_nil (pos : 0 < size) (pack : Packed size (seg :: xs))
    : (seg :: xs).flatten ≠ [] := by
  rw [flatten_cons, ← length_pos_iff, length_append]
  exact Nat.add_pos_left (pack.head_pos pos).1 _

theorem packed_cons_iff (pos : 0 < size) (seg : List α) (xs : List (List α)) :
    Packed size (seg :: xs) ↔
      (0 < seg.length ∧ seg.length ≤ size) ∧ (xs ≠ [] → seg.length = size) ∧
        Packed size xs := by
  cases xs with
  | nil => simp [Packed]
  | cons next xs =>
    constructor
    · intro hp
      exact ⟨hp.head_pos pos, fun _ => hp.1, hp.2⟩
    · intro ps
      exact ⟨ps.2.1 (cons_ne_nil _ _), ps.2.2⟩

theorem flatten_push (segs : List (List α)) (item : α) :
    (push size segs item).flatten = segs.flatten ++ [item] := by
  induction segs with
  | nil => rfl
  | cons seg xs ih =>
    cases xs with
    | nil =>
      rw [push]
      split <;> simp
    | cons next xs =>
      rw [push, flatten_cons, ih]
      simp

variable {segs : List (List α)}

section

variable (pos : 0 < size)
include pos

theorem Packed.push (pack : Packed size segs) (item : α) : Packed size (push size segs item) := by
  induction segs with
  | nil => exact ⟨Nat.one_pos, pos⟩
  | cons seg xs ih =>
    cases xs with
    | nil =>
      rw [Library.push]
      split
      · next full => exact ⟨full, Nat.one_pos, pos⟩
      · next space =>
          obtain ⟨_, fits⟩ := pack
          refine ⟨?_, ?_⟩
          · simp
          · rw [length_append, length_singleton]
            omega
    | cons next xs =>
      rw [Library.push, packed_cons_iff pos]
      exact ⟨pack.head_pos pos, fun _ => pack.1, ih pack.2⟩

theorem fillChunks_packed (n : Nat) (items : List α) :
    Packed size (fillChunks size n items) := by
  induction n generalizing items with
  | zero => trivial
  | succ n ih =>
    rw [fillChunks]
    split
    · trivial
    · next nonempty =>
        rw [packed_cons_iff pos]
        have some : 0 < items.length := by
          rw [length_pos_iff]
          simpa using nonempty
        refine ⟨?_, fun more => ?_, ih _⟩
        · rw [length_take]
          omega
        · have long : size ≤ items.length := by
            by_contra short
            have xs : items.drop size = [] := drop_eq_nil_of_le (by omega)
            apply more
            rw [xs]
            cases n <;> rfl
          rw [length_take, min_eq_left long]

theorem flatten_fillChunks {n : Nat} {items : List α}
    (enough : items.length ≤ n) : (fillChunks size n items).flatten = items := by
  induction n generalizing items with
  | zero =>
    rw [length_eq_zero_iff.mp (Nat.le_zero.mp enough)]
    rfl
  | succ n ih =>
    rw [fillChunks]
    split
    · next none => simp [List.isEmpty_iff.mp none]
    · rw [flatten_cons, ih, take_append_drop]
      rw [length_drop]
      omega

theorem chunks_packed (items : List α) : Packed size (chunks size items) :=
  fillChunks_packed pos _ _

@[simp] theorem flatten_chunks (items : List α) : (chunks size items).flatten = items :=
  flatten_fillChunks pos le_rfl

theorem Packed.eq_of_flatten {segs segs' : List (List α)}
    (pack : Packed size segs) (pack' : Packed size segs')
    (eq : segs.flatten = segs'.flatten) : segs = segs' := by
  induction segs generalizing segs' with
  | nil =>
    cases segs' with
    | nil => rfl
    | cons seg' xs' => exact absurd eq.symm (pack'.flatten_ne_nil pos)
  | cons seg xs ih =>
    cases segs' with
    | nil => exact absurd eq (pack.flatten_ne_nil pos)
    | cons seg' xs' =>
      obtain ⟨bounds, full, hl⟩ := (packed_cons_iff pos _ _).mp pack
      obtain ⟨bounds', full', hl'⟩ := (packed_cons_iff pos _ _).mp pack'
      have lengths : seg.length = seg'.length := by
        have tot := congrArg List.length eq
        rw [flatten_cons, flatten_cons, length_append, length_append] at tot
        rcases eq_nil_or_concat xs with rfl | h <;>
          rcases eq_nil_or_concat xs' with rfl | h'
        · simpa using tot
        · have long' := full' (by rintro rfl; simp at h')
          simp only [flatten_nil, length_nil, add_zero] at tot
          omega
        · have long := full (by rintro rfl; simp at h)
          simp only [flatten_nil, length_nil, add_zero] at tot
          omega
        · rw [full (by rintro rfl; simp at h), full' (by rintro rfl; simp at h')]
      obtain ⟨heads, tails⟩ := append_inj eq lengths
      rw [heads, ih hl hl' tails]

theorem Packed.eq_chunks (pack : Packed size segs) : segs = chunks size segs.flatten :=
  pack.eq_of_flatten pos (chunks_packed pos _) (flatten_chunks pos _).symm

/-- The segments before the last are full. -/
theorem packed_concat_iff (segs : List (List α)) (last : List α) : Packed size (segs ++ [last]) ↔
      (∀ seg ∈ segs, seg.length = size) ∧ 0 < last.length ∧ last.length ≤ size := by
  induction segs with
  | nil => simp [Packed]
  | cons seg xs ih =>
    rw [cons_append, packed_cons_iff pos, ih, forall_mem_cons]
    constructor
    · intro ps
      exact ⟨⟨ps.2.1 (by simp), ps.2.2.1⟩, ps.2.2.2⟩
    · intro ps
      exact ⟨⟨ps.1.1.symm ▸ pos, ps.1.1.le⟩, fun _ => ps.1.1, ps.1.2, ps.2⟩

theorem packed_of_full (full : ∀ seg ∈ segs, seg.length = size) : Packed size segs := by
  rcases eq_nil_or_concat segs with rfl | ⟨pre, last, rfl⟩
  · trivial
  · rw [concat_eq_append] at full ⊢
    rw [packed_concat_iff pos]
    have length := full last (by simp)
    exact ⟨fun seg mem => full seg (by simp [mem]), length.symm ▸ pos, length.le⟩

theorem Packed.append_full {full xs : List (List α)}
    (all : ∀ seg ∈ full, seg.length = size) (pack : Packed size xs) :
    Packed size (full ++ xs) := by
  rcases eq_nil_or_concat xs with rfl | ⟨pre, last, rfl⟩
  · rw [append_nil]
    exact packed_of_full pos all
  · rw [concat_eq_append] at pack ⊢
    obtain ⟨fronts, fits⟩ := (packed_concat_iff pos pre last).mp pack
    rw [← append_assoc, packed_concat_iff pos]
    refine ⟨fun seg mem => ?_, fits⟩
    exact (mem_append.mp mem).elim (all seg) (fronts seg)

end

theorem Packed.flatten_takeWhile (pack : Packed size segs) :
    (segs.takeWhile fun seg => seg.length = size).flatten ++
      ((segs.dropWhile fun seg => seg.length = size).head?).getD [] = segs.flatten := by
  induction segs with
  | nil => rfl
  | cons seg xs ih =>
    by_cases full : seg.length = size
    · rw [takeWhile_cons_of_pos (by simpa using full),
        dropWhile_cons_of_pos (by simpa using full), flatten_cons, flatten_cons,
        append_assoc, ih pack.tail]
    · have last : xs = [] := by
        cases xs with
        | nil => rfl
        | cons next xs => exact absurd pack.1 full
      subst last
      simp [full]

theorem Packed.append_left (pos : 0 < size) {pre back : List (List α)}
    (pack : Packed size (pre ++ back)) : Packed size pre := by
  rcases eq_nil_or_concat back with rfl | ⟨middle, last, rfl⟩
  · simpa using pack
  · rw [concat_eq_append, ← append_assoc, packed_concat_iff pos] at pack
    exact packed_of_full pos fun seg mem => pack.1 seg (by simp [mem])

theorem Packed.append_right {pre back : List (List α)} (pack : Packed size (pre ++ back)) :
    Packed size back := by
  induction pre with
  | nil => exact pack
  | cons seg pre ih => exact ih pack.tail

theorem Packed.length_eq (pack : Packed size segs) {k : Nat}
    (got : segs[k]? = some seg) (more : k + 1 < segs.length) : seg.length = size := by
  induction segs generalizing k with
  | nil => exact nomatch got
  | cons fst xs ih =>
    cases xs with
    | nil => exact absurd more (by simp)
    | cons next xs =>
      cases k with
      | zero =>
        cases got
        exact pack.1
      | succ k => exact ih pack.2 got (Nat.lt_of_succ_lt_succ more)

theorem Packed.length_le (pos : 0 < size) (pack : Packed size segs) (mem : seg ∈ segs) :
    0 < seg.length ∧ seg.length ≤ size := by
  induction segs with
  | nil => exact nomatch mem
  | cons fst xs ih =>
    rcases mem_cons.mp mem with rfl | hl
    · exact pack.head_pos pos
    · exact ih pack.tail hl

/-- A segment is found in the sequence after the full ones before it. -/
theorem Packed.drop_flatten (pack : Packed size segs) {k : Nat} (got : segs[k]? = some seg) :
    segs.flatten.drop (size * k) = seg ++ (segs.drop (k + 1)).flatten := by
  induction segs generalizing k with
  | nil => exact nomatch got
  | cons fst xs ih =>
    cases k with
    | zero =>
      cases got
      simp
    | succ k =>
      have full : fst.length = size := by
        have fit := (List.getElem?_eq_some_iff.mp got).1
        exact pack.length_eq (k := 0) rfl (by omega)
      have length : size * (k + 1) = fst.length + size * k := by
        rw [full, Nat.mul_succ, Nat.add_comm]
      rw [flatten_cons, length, drop_length_add_append, ih pack.tail got, drop_succ_cons]

theorem Packed.of_lengths {β : Type*} {segs' : List (List β)} (pack : Packed size segs)
    (eq : segs'.map List.length = segs.map List.length) : Packed size segs' := by
  induction segs generalizing segs' with
  | nil =>
    rw [map_nil, map_eq_nil_iff] at eq
    rw [eq]
    trivial
  | cons seg xs ih =>
    cases segs' with
    | nil => simp at eq
    | cons seg' xs' =>
      rw [map_cons, map_cons, List.cons.injEq] at eq
      cases xs with
      | nil =>
        rw [map_nil, map_eq_nil_iff] at eq
        rw [eq.2, Packed, eq.1]
        exact pack
      | cons next xs =>
        cases xs' with
        | nil => simp at eq
        | cons next' xs' => exact ⟨eq.1.trans pack.1, ih pack.2 eq.2⟩

variable (size)

/-- Append a sequence, item by item. -/
def pushAll (segments : List (List α)) (items : List α) : List (List α) :=
  items.foldl (push size) segments

variable {size}

theorem flatten_pushAll (segs : List (List α)) (items : List α) :
    (pushAll size segs items).flatten = segs.flatten ++ items := by
  induction items generalizing segs with
  | nil => simp [pushAll]
  | cons item items ih =>
    rw [pushAll, foldl_cons, ← pushAll, ih, flatten_push]
    simp

theorem Packed.pushAll (pos : 0 < size) (pack : Packed size segs) (items : List α) :
    Packed size (pushAll size segs items) := by
  induction items generalizing segs with
  | nil => exact pack
  | cons item items ih => exact ih (pack.push pos item)

end

end AccessPath.Library
