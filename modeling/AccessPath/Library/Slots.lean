import AccessPath.Library.OrderedEncoding

/-!
# Slot arrays under a list of keys

A small sorted map kept in two parallel arrays: a list of keys and, at the
position of each key, a slot.
-/

namespace AccessPath.Library

open List Option

section

variable {α β : Type*}

/-- Move the slots from `pos` on back by one and fill the gap. -/
def insertAt (pos : Nat) (x : α) (slots : Nat → α) : Nat → α := fun i =>
  if i < pos then slots i else if i = pos then x else slots (i - 1)

/-- Move the slots after `pos` forward by one. -/
def removeAt (pos : Nat) (slots : Nat → α) : Nat → α := fun i =>
  if i < pos then slots i else slots (i + 1)

/-- The slots after the first. -/
def later (slots : Nat → α) : Nat → α := fun i => slots (i + 1)

@[simp] theorem later_insertAt_zero (x : α) (sl : Nat → α) : later (insertAt 0 x sl) = sl := by
  funext i
  simp [later, insertAt]

@[simp] theorem later_insertAt_succ (pos : Nat) (x : α) (sl : Nat → α) :
    later (insertAt (pos + 1) x sl) = insertAt pos x (later sl) := by
  funext i
  unfold later insertAt
  by_cases old : i < pos
  · simp [old]
  · by_cases here : i = pos
    · simp [here]
    · have he : i - 1 + 1 = i := by omega
      simp [old, here, he]

@[simp] theorem removeAt_zero (sl : Nat → α) : removeAt 0 sl = later sl := by
  funext i
  simp [removeAt, later]

@[simp] theorem later_removeAt_succ (pos : Nat) (sl : Nat → α) :
    later (removeAt (pos + 1) sl) = removeAt pos (later sl) := by
  funext i
  simp [later, removeAt]

variable [DecidableEq β]

/-- The position of a key: the first that matches. -/
def position : List β → β → Option Nat
  | [], _ => none
  | key :: keys, b => if key = b then some 0 else (position keys b).map (· + 1)

/-- The value under a key. -/
def valueAt (keys : List β) (slots : Nat → α) (b : β) : Option α := (position keys b).map slots

theorem valueAt_cons (k : β) (keys : List β) (sl : Nat → α) (b : β) : valueAt (k :: keys) sl b =
      if k = b then some (sl 0) else valueAt keys (later sl) b := by
  unfold valueAt
  rw [position]
  split
  · rfl
  · rw [Option.map_map]
    rfl

theorem position_eq_some_iff {keys : List β} (nd : keys.Nodup) (b : β) (i : Nat) :
    position keys b = some i ↔ keys[i]? = some b := by
  induction keys generalizing i with
  | nil => simp [position]
  | cons k keys ih =>
    obtain ⟨hfr, nd⟩ := nodup_cons.mp nd
    rw [position]
    split
    · next eq =>
        subst eq
        cases i with
        | zero => simp
        | succ i =>
          have absent : keys[i]? ≠ some k := fun got => hfr (mem_of_getElem? got)
          simp [absent]
    · next o =>
        cases i with
        | zero => simp [o]
        | succ i => simp [ih nd]

theorem position_isSome_iff (keys : List β) (b : β) : (position keys b).isSome ↔ b ∈ keys := by
  induction keys with
  | nil => simp [position]
  | cons k keys ih =>
    rw [position, mem_cons]
    split
    · next eq => simp [eq]
    · next o => simp [ih, Ne.symm o]

variable {b : β}

theorem position_lt {keys : List β} {i : Nat} (got : position keys b = some i) :
    i < keys.length := by
  induction keys generalizing i with
  | nil => simp [position] at got
  | cons k keys ih =>
    rw [position] at got
    split at got
    · cases got
      exact Nat.succ_pos _
    · obtain ⟨_, hl, rfl⟩ := map_eq_some_iff.mp got
      exact Nat.succ_lt_succ (ih hl)

theorem valueAt_insertAt {keys : List β} {pos : Nat} (le : pos ≤ keys.length)
    (out : b ∉ keys) (x : α) (sl : Nat → α) (c : β) :
    valueAt (keys.insertIdx pos b) (insertAt pos x sl) c =
      if b = c then some x else valueAt keys sl c := by
  induction pos generalizing keys sl with
  | zero =>
    rw [insertIdx_zero, valueAt_cons, later_insertAt_zero]
    rfl
  | succ pos ih =>
    cases keys with
    | nil => simp at le
    | cons k keys =>
      obtain ⟨o, out⟩ := not_or.mp (mt mem_cons.mpr out)
      rw [insertIdx_succ_cons, valueAt_cons, later_insertAt_succ,
        ih (Nat.le_of_succ_le_succ le) out, valueAt_cons]
      by_cases hit : k = c
      · have ne : b ≠ c := fun eq => o (eq.trans hit.symm)
        simp [hit, ne, insertAt]
      · simp [hit]

theorem valueAt_removeAt {keys : List β} (nd : keys.Nodup) {pos : Nat}
    (got : position keys b = some pos) (sl : Nat → α) (c : β) :
    valueAt (keys.eraseIdx pos) (removeAt pos sl) c =
      if b = c then none else valueAt keys sl c := by
  induction keys generalizing pos sl with
  | nil => simp [position] at got
  | cons k keys ih =>
    obtain ⟨hfr, nd⟩ := nodup_cons.mp nd
    rw [position] at got
    split at got
    · next eq =>
        subst eq
        cases got
        rw [eraseIdx_zero, tail_cons, removeAt_zero, valueAt_cons]
        split
        · next hit =>
            subst hit
            have absent := mt (position_isSome_iff keys k).mp hfr
            rw [valueAt, not_isSome_iff_eq_none.mp absent, map_none]
        · rfl
    · next o =>
        obtain ⟨_, place, rfl⟩ := map_eq_some_iff.mp got
        rw [eraseIdx_cons_succ, valueAt_cons, later_removeAt_succ, ih nd place, valueAt_cons]
        by_cases hit : k = c
        · have ne : b ≠ c := fun eq => o (hit.trans eq.symm)
          simp [hit, ne, removeAt]
        · simp [hit]

theorem valueAt_update {keys : List β} (nd : keys.Nodup) {pos : Nat}
    (got : position keys b = some pos) (x : α) (sl : Nat → α) (c : β) :
    valueAt keys (Function.update sl pos x) c = if b = c then some x else valueAt keys sl c := by
  unfold valueAt
  split
  · next eq =>
      subst eq
      simp [got]
  · next o =>
      cases hit : position keys c with
      | none => rfl
      | some i =>
        have ne : i ≠ pos := by
          intro eq
          subst eq
          have k := (position_eq_some_iff nd _ _).mp got
          have k' := (position_eq_some_iff nd _ _).mp hit
          exact o (Option.some.inj (k.symm.trans k'))
        simp [ne]

end

/-! ## Sorted keys -/

section

variable {β : Type*} [LinearOrder β] {b : β}

/-- The first position whose key is not below `b`. -/
def insertPosition (keys : List β) (b : β) : Nat := keys.findIdx fun key => !decide (key < b)

theorem insertPosition_le (keys : List β) (b : β) : insertPosition keys b ≤ keys.length :=
  findIdx_le_length

theorem sorted_insertIdx {keys : List β} (asc : keys.Pairwise (· < ·))
    (out : b ∉ keys) : (keys.insertIdx (insertPosition keys b) b).Pairwise (· < ·) := by
  induction keys with
  | nil => simp [insertPosition]
  | cons k keys ih =>
    obtain ⟨fst, asc⟩ := pairwise_cons.mp asc
    obtain ⟨o, out⟩ := not_or.mp (mt mem_cons.mpr out)
    rcases lt_or_gt_of_ne o with hi | lo
    · have here : insertPosition (k :: keys) b = 0 := by
        simp [insertPosition, findIdx_cons, hi.not_gt]
      rw [here, insertIdx_zero, pairwise_cons]
      refine ⟨fun k' mem => ?_, pairwise_cons.mpr ⟨fst, asc⟩⟩
      rcases mem_cons.mp mem with rfl | mem
      · exact hi
      · exact hi.trans (fst k' mem)
    · have further : insertPosition (k :: keys) b = insertPosition keys b + 1 := by
        simp [insertPosition, findIdx_cons, lo]
      rw [further, insertIdx_succ_cons, pairwise_cons]
      refine ⟨fun k' mem => ?_, ih asc out⟩
      rcases (mem_insertIdx (insertPosition_le keys b)).mp mem with rfl | mem
      · exact lo
      · exact fst k' mem

/-- The first key that is at least `b`, with its position. -/
def nextPosition : List β → β → Option (β × Nat)
  | [], _ => none
  | key :: keys, b =>
    if b ≤ key then some (key, 0) else (nextPosition keys b).map fun (k, i) => (k, i + 1)

theorem nextPosition_eq_none {keys : List β} (gone : nextPosition keys b = none) :
    ∀ k ∈ keys, k < b := by
  induction keys with
  | nil => simp
  | cons k keys ih =>
    rw [nextPosition] at gone
    split_ifs at gone
    next lo =>
      rw [map_eq_none_iff] at gone
      intro k' mem
      rcases mem_cons.mp mem with rfl | mem
      · exact not_le.mp lo
      · exact ih gone k' mem

theorem nextPosition_eq_some {keys : List β} (asc : keys.Pairwise (· < ·)) {b k : β}
    {i : Nat} (got : nextPosition keys b = some (k, i)) :
    b ≤ k ∧ position keys k = some i ∧ ∀ k' ∈ keys, b ≤ k' → k ≤ k' := by
  induction keys generalizing i with
  | nil => simp [nextPosition] at got
  | cons fst keys ih =>
    obtain ⟨least, asc⟩ := pairwise_cons.mp asc
    rw [nextPosition] at got
    split at got
    · next hr =>
        cases got
        refine ⟨hr, by simp [position], fun k' mem _ => ?_⟩
        rcases mem_cons.mp mem with rfl | mem
        · exact le_refl _
        · exact (least k' mem).le
    · next lo =>
        obtain ⟨⟨_, _⟩, aft, eq⟩ := map_eq_some_iff.mp got
        cases eq
        obtain ⟨hr, place, minimal⟩ := ih asc aft
        have ne : fst ≠ k := fun eq => lo (eq ▸ hr)
        refine ⟨hr, by simp [position, ne, place], fun k' mem high => ?_⟩
        rcases mem_cons.mp mem with rfl | mem
        · exact absurd high lo
        · exact minimal k' mem high

end

/-! ## The bytes in order -/

def allBytes : List UInt8 := (range 256).map UInt8.ofNat

theorem toNat_succ {b : UInt8} (fit : b ≠ 255) : (b + 1).toNat = b.toNat + 1 := by
  have hb := b.toNat_lt
  have ne : b.toNat ≠ 255 := fun eq => fit (UInt8.toNat_inj.mp eq)
  rw [UInt8.toNat_add]
  exact Nat.mod_eq_of_lt (by change b.toNat + 1 < 2 ^ 8; omega)

@[simp] theorem length_allBytes : allBytes.length = 256 := by
  rw [allBytes, length_map, length_range]

theorem mem_allBytes (b : UInt8) : b ∈ allBytes :=
  List.mem_map.mpr ⟨b.toNat, mem_range.mpr b.toNat_lt, UInt8.ofNat_toNat⟩

theorem allBytes_sorted : allBytes.Pairwise (· < ·) := by
  rw [allBytes, pairwise_map]
  refine List.Pairwise.imp_of_mem ?_ pairwise_lt_range
  intro m n memM memN less
  rw [mem_range] at memM memN
  rw [UInt8.lt_iff_toNat_lt, UInt8.toNat_ofNat', UInt8.toNat_ofNat']
  omega

theorem allBytes_nodup : allBytes.Nodup := allBytes_sorted.imp ne_of_lt

section

variable {β : Type*} {b : β}

/-- One more element of a list without repetitions satisfies `q`. -/
theorem countP_of_added {p q : β → Bool} (gone : p b = false) (added : q b = true)
    (eq : ∀ c, c ≠ b → q c = p c) {xs : List β} (nd : xs.Nodup) (mem : b ∈ xs) :
    xs.countP q = xs.countP p + 1 := by
  induction xs with
  | nil => simp at mem
  | cons item xs ih =>
    obtain ⟨new, nd⟩ := nodup_cons.mp nd
    rcases mem_cons.mp mem with rfl | mem
    · have rest : xs.countP q = xs.countP p := countP_congr fun c fit => by
          rw [eq c (fun here => new (here ▸ fit))]
      simp [gone, added, rest]
    · have other : item ≠ b := fun here => new (here ▸ mem)
      rw [countP_cons, countP_cons, ih nd mem, eq item other]
      omega

end

end AccessPath.Library
