import Mathlib.Data.List.GetD
import AccessPath.Art.Layout

/-!
# Layouts as maps

What each operation on an inner node does to the map from bytes to children,
through all four layouts and the changes between them. The rest of the index
uses these facts only.
-/

namespace AccessPath

open Library Child List Option Function

namespace Layout

section

variable {α : Type*} [Child α] {cs : Nat → α} {l : Layout}

/-- A well-formed node that maps bytes to children as `m` does. -/
structure Maps (layout : Layout) (children : Nat → α) (m : UInt8 → Option α) : Prop where
  valid : layout.Valid children
  child : ∀ byte, layout.getChild children byte = m byte

/-- The number of bytes that a map gives a child. -/
def size (m : UInt8 → Option α) : Nat := allBytes.countP fun byte => (m byte).isSome

omit [Child α] in
theorem size_none : size (fun _ => none : UInt8 → Option α) = 0 :=
  countP_eq_zero.mpr fun _ _ => Bool.false_ne_true

variable {c : UInt8} {m : UInt8 → Option α}

omit [Child α] in
theorem size_insert (free : m c = none) (x : α) :
    size (Function.update m c (some x)) = size m + 1 := by
  refine countP_of_added (b := c) ?_ ?_ ?_ allBytes_nodup (mem_allBytes c)
  · simp [free]
  · simp
  · intro o apart
    simp [apart]

omit [Child α] in
theorem size_erase (took : (m c).isSome) : size (Function.update m c none) + 1 = size m := by
  refine (countP_of_added (b := c) ?_ took ?_ allBytes_nodup (mem_allBytes c)).symm
  · simp
  · intro o apart
    simp [apart]

/-! ## Sorted keys -/

variable {k : List UInt8} {cap : Nat}

theorem SortedKeys.nodup (keys : SortedKeys cs cap k) : k.Nodup := keys.sorted.imp ne_of_lt

theorem usedBytes_mem (asc : k.Pairwise (· < ·)) : usedBytes (fun c => decide (c ∈ k)) = k := by
  have eq : (usedBytes fun c => decide (c ∈ k)).Perm k := by
    refine (perm_ext_iff_of_nodup (allBytes_nodup.filter _) (asc.imp ne_of_lt)).mpr ?_
    intro c
    simp [mem_allBytes]
  exact eq.eq_of_pairwise (fun a b _ _ less less' => absurd less (lt_asymm less'))
    (allBytes_sorted.filter _) asc

omit [Child α] in
theorem size_valueAt (srt : k.Pairwise (· < ·)) (sl : Nat → α) :
    size (valueAt k sl) = k.length := by
  conv_rhs => rw [← usedBytes_mem srt, usedBytes, ← countP_eq_length_filter]
  refine countP_congr fun c _ => ?_
  rw [valueAt, isSome_map, position_isSome_iff, decide_eq_true_iff]

theorem SortedKeys.mono {cap cap' : Nat} (keys : SortedKeys cs cap k) (larger : k.length ≤ cap') :
    SortedKeys cs cap' k :=
  ⟨keys.sorted, larger, keys.occupied⟩

variable {ch : α}

theorem SortedKeys.insert (keys : SortedKeys cs cap k) (space : k.length < cap)
    (out : c ∉ k) (has : hasMetadata ch = true) :
    SortedKeys (insertAt (insertPosition k c) ch cs) cap (k.insertIdx (insertPosition k c) c) where
  sorted := sorted_insertIdx keys.sorted out
  fits := by
    rw [length_insertIdx_of_le_length (insertPosition_le k c)]
    exact space
  occupied := by
    intro i fit
    rw [length_insertIdx_of_le_length (insertPosition_le k c)] at fit
    have hi := insertPosition_le k c
    unfold insertAt
    split
    · exact keys.occupied i (by omega)
    · split
      · exact has
      · exact keys.occupied (i - 1) (by omega)

theorem SortedKeys.erase (keys : SortedKeys cs cap k) {pos : Nat} (lt : pos < k.length) :
    SortedKeys (removeAt pos cs) cap (k.eraseIdx pos) where
  sorted := keys.sorted.sublist (eraseIdx_sublist _ _)
  fits := (eraseIdx_sublist k pos).length_le.trans keys.fits
  occupied := by
    intro i hb
    rw [length_eraseIdx_of_lt lt] at hb
    unfold removeAt
    split
    · exact keys.occupied i (by omega)
    · exact keys.occupied (i + 1) (by omega)

theorem SortedKeys.update (keys : SortedKeys cs cap k) (pos : Nat)
    (has : hasMetadata ch = true) : SortedKeys (Function.update cs pos ch) cap k where
  sorted := keys.sorted
  fits := keys.fits
  occupied := by
    intro i fit
    by_cases here : i = pos
    · simpa [here] using has
    · simpa [here] using keys.occupied i fit

/-! ## Indexed slots -/

variable {idx : UInt8 → Nat} {n : Nat}

theorem IndexedSlots.getChild_eq (b : UInt8) : (node48 n idx).getChild cs b =
      if idx b ≠ emptyMarker then some (cs (idx b)) else none := by
  simp only [getChild, slot]
  split <;> rfl

section

variable (sl : IndexedSlots cs n idx)
include sl

theorem IndexedSlots.slots_nodup :
    ((usedBytes fun c => decide (idx c ≠ emptyMarker)).map idx).Nodup := by
  refine List.Nodup.map_on ?_ (allBytes_nodup.filter _)
  intro c mem o _ eq
  exact sl.distinct c o (by simpa [usedBytes] using (mem_filter.mp mem).2) eq

theorem IndexedSlots.count_le : n ≤ node48Capacity := by
  have fit : (usedBytes fun c => decide (idx c ≠ emptyMarker)).map idx ⊆ range node48Capacity := by
    intro i mem
    obtain ⟨c, used, rfl⟩ := List.mem_map.mp mem
    exact mem_range.mpr (sl.bounded c (by simpa [usedBytes] using (mem_filter.mp used).2))
  have hb := (sl.slots_nodup.subperm fit).length_le
  rwa [length_map, usedBytes, ← countP_eq_length_filter, ← sl.counted, length_range] at hb

theorem IndexedSlots.exists_free (space : n < node48Capacity) :
    ∃ i < node48Capacity, hasMetadata (cs i) = false := by
  by_contra full
  have ht : range node48Capacity ⊆ (usedBytes fun c => decide (idx c ≠ emptyMarker)).map idx := by
    intro i mem
    have fit := mem_range.mp mem
    have hoc : hasMetadata (cs i) = true := by
      by_contra free
      exact full ⟨i, fit, by simpa using free⟩
    obtain ⟨c, rfl⟩ := sl.cleared i fit hoc
    have used : idx c ≠ emptyMarker := by
      simp only [node48Capacity, emptyMarker] at fit ⊢
      omega
    exact List.mem_map.mpr ⟨c, mem_filter.mpr ⟨mem_allBytes c, by simpa using used⟩, rfl⟩
  have hb := (nodup_range.subperm ht).length_le
  rw [length_map, usedBytes, ← countP_eq_length_filter, ← sl.counted, length_range] at hb
  omega

theorem IndexedSlots.freeSlot_free (space : n < node48Capacity) :
    freeSlot cs n < node48Capacity ∧ hasMetadata (cs (freeSlot cs n)) = false := by
  unfold freeSlot
  split
  · obtain ⟨i, fit, free⟩ := sl.exists_free space
    have lt : (range node48Capacity).findIdx (fun i => !hasMetadata (cs i)) <
        (range node48Capacity).length :=
      findIdx_lt_length_of_exists ⟨i, mem_range.mpr fit, by simp [free]⟩
    have hh := findIdx_getElem (w := lt)
    rw [getElem_range] at hh
    rw [length_range] at lt
    exact ⟨lt, by simpa using hh⟩
  · next free => exact ⟨space, by simpa using free⟩

theorem IndexedSlots.insert (space : n < node48Capacity)
    (new : idx c = emptyMarker) (has : hasMetadata ch = true) :
    IndexedSlots (Function.update cs (freeSlot cs n) ch) (n + 1)
      (Function.update idx c (freeSlot cs n)) := by
  obtain ⟨fit, free⟩ := sl.freeSlot_free space
  generalize freeSlot cs n = pos at fit free ⊢
  have hu : ∀ o, idx o ≠ emptyMarker → idx o ≠ pos := by
    intro o used eq
    have hoc := sl.occupied o used
    rw [eq, free] at hoc
    exact Bool.false_ne_true hoc
  have hne : pos ≠ emptyMarker := by
    simp only [node48Capacity, emptyMarker] at fit ⊢
    omega
  refine ⟨fun o used => ?_, fun o used => ?_, fun o another used eq => ?_,
    fun i hb hoc => ?_, ?_⟩
  · by_cases here : o = c
    · simpa [here] using fit
    · simp only [update_of_ne here] at used ⊢
      exact sl.bounded o used
  · by_cases here : o = c
    · simpa [here] using has
    · simp only [update_of_ne here] at used ⊢
      rw [update_of_ne (hu o used)]
      exact sl.occupied o used
  · by_cases here : o = c <;> by_cases there : another = c
    · rw [here, there]
    · simp only [here, update_self, update_of_ne there] at eq used
      exact absurd eq.symm (hu another (eq ▸ used))
    · simp only [there, update_self, update_of_ne here] at eq used
      exact absurd eq (hu o used)
    · simp only [update_of_ne here, update_of_ne there] at eq used
      exact sl.distinct o another used eq
  · by_cases here : i = pos
    · exact ⟨c, by rw [here, update_self]⟩
    · rw [update_of_ne here] at hoc
      obtain ⟨o, ix⟩ := sl.cleared i hb hoc
      have ne : o ≠ c := by
        intro eq
        rw [eq, new] at ix
        simp only [node48Capacity, emptyMarker] at hb ix
        omega
      exact ⟨o, by rw [update_of_ne ne, ix]⟩
  · rw [sl.counted]
    symm
    refine countP_of_added (b := c) ?_ ?_ ?_ allBytes_nodup (mem_allBytes c)
    · simp [new]
    · simp [hne]
    · intro o ne
      simp [ne]

theorem IndexedSlots.erase (used : idx c ≠ emptyMarker) :
    IndexedSlots (Function.update cs (idx c) Child.cleared) (n - 1)
      (Function.update idx c emptyMarker) := by
  have ho : ∀ o, o ≠ c → idx o ≠ idx c := by
    intro o ne eq
    exact ne (sl.distinct c o used eq.symm).symm
  refine ⟨fun o used' => ?_, fun o used' => ?_, fun o another used' eq => ?_,
    fun i hb hoc => ?_, ?_⟩
  · by_cases here : o = c
    · simp [here] at used'
    · simp only [update_of_ne here] at used' ⊢
      exact sl.bounded o used'
  · by_cases here : o = c
    · simp [here] at used'
    · simp only [update_of_ne here] at used' ⊢
      rw [update_of_ne (ho o here)]
      exact sl.occupied o used'
  · by_cases here : o = c
    · simp [here] at used'
    · by_cases there : another = c
      · simp only [there, update_self] at eq
        omega
      · simp only [update_of_ne here, update_of_ne there] at eq used'
        exact sl.distinct o another used' eq
  · by_cases here : i = idx c
    · simp [here] at hoc
    · rw [update_of_ne here] at hoc
      obtain ⟨o, rfl⟩ := sl.cleared i hb hoc
      have ne : o ≠ c := fun eq => here (by rw [eq])
      exact ⟨o, update_of_ne ne _ _⟩
  · rw [sl.counted]
    refine Nat.sub_eq_of_eq_add ?_
    refine countP_of_added (b := c) ?_ ?_ ?_ allBytes_nodup (mem_allBytes c)
    · simp
    · simpa using used
    · intro o ne
      simp [ne]

theorem IndexedSlots.update (has : hasMetadata ch = true) :
    IndexedSlots (Function.update cs (idx c) ch) n idx where
  bounded := sl.bounded
  occupied := by
    intro o used'
    by_cases here : idx o = idx c
    · simpa [here] using has
    · simpa [here] using sl.occupied o used'
  distinct := sl.distinct
  cleared := by
    intro i hb hoc
    by_cases here : i = idx c
    · exact ⟨c, here.symm⟩
    · rw [update_of_ne here] at hoc
      exact sl.cleared i hb hoc
  counted := sl.counted

end

/-! ## Changes of layout -/

theorem growIndex_eq_iff (k : List UInt8) (b : UInt8) (fits : k.length ≤ emptyMarker) :
    growIndex k b = emptyMarker ↔ position k b = none := by
  unfold growIndex
  cases got : position k b with
  | none => simp
  | some i =>
    have fit := position_lt got
    simp only [getD_some, reduceCtorEq, iff_false]
    omega

/-- A sorted key array makes an index whose slots are the positions. -/
theorem indexedSlots_growIndex (asc : k.Pairwise (· < ·))
    (fits : k.length ≤ node48Capacity) {sl : Nat → α}
    (occupied : ∀ i < k.length, hasMetadata (sl i) = true)
    (free : ∀ i, k.length ≤ i → hasMetadata (sl i) = false) :
    IndexedSlots sl k.length (growIndex k) := by
  have used : ∀ c, growIndex k c ≠ emptyMarker → position k c = some (growIndex k c) := by
    intro c hne
    cases got : position k c with
    | none => exact absurd ((growIndex_eq_iff k c fits).mpr got) hne
    | some i => simp [growIndex, got]
  refine ⟨fun c hne => ?_, fun c hne => ?_, fun c other hne eq => ?_, fun i fit ht => ?_, ?_⟩
  · exact lt_of_lt_of_le (position_lt (used c hne)) fits
  · exact occupied _ (position_lt (used c hne))
  · have nd : k.Nodup := asc.imp ne_of_lt
    have hi := (position_eq_some_iff nd _ _).mp (used c hne)
    have hi' := (position_eq_some_iff nd _ _).mp (used other (eq ▸ hne))
    rw [← eq, hi] at hi'
    exact Option.some.inj hi'
  · have inKeys : i < k.length := by
      by_contra past
      rw [free i (by omega)] at ht
      exact Bool.false_ne_true ht
    refine ⟨k[i], ?_⟩
    have nd : k.Nodup := asc.imp ne_of_lt
    rw [growIndex, (position_eq_some_iff nd _ i).mpr (getElem?_eq_getElem inKeys)]
    rfl
  · rw [← size_valueAt asc sl]
    refine countP_congr fun c _ => ?_
    rw [valueAt, isSome_map, isSome_iff_ne_none, decide_eq_true_iff, ne_eq, ne_eq,
      growIndex_eq_iff k c fits]

theorem getChild_growIndex (fits : k.length ≤ node48Capacity) {sl : Nat → α} (n : Nat) (b : UInt8) :
    (node48 n (growIndex k)).getChild sl b = valueAt k sl b := by
  rw [IndexedSlots.getChild_eq, valueAt]
  cases got : position k b with
  | none =>
    rw [if_neg (by simpa using (growIndex_eq_iff k b fits).mpr got), map_none]
  | some i =>
    have hne : growIndex k b ≠ emptyMarker := by
      rw [ne_eq, growIndex_eq_iff k b fits, got]
      simp
    rw [if_pos hne]
    simp [growIndex, got]

omit [Child α] in
theorem valueAt_congr {sl slots' : Nat → α} (same : ∀ i < k.length, sl i = slots' i) (c : UInt8) :
    valueAt k sl c = valueAt k slots' c := by
  unfold valueAt
  cases got : position k c with
  | none => rfl
  | some i => rw [map_some, map_some, same i (position_lt got)]

theorem SortedKeys.grow (keys : SortedKeys cs node16Capacity k) :
    Maps (node48 k.length (growIndex k)) (growSlots cs k) (valueAt k cs) := by
  have fits : k.length ≤ node48Capacity := keys.fits.trans (by decide)
  refine ⟨indexedSlots_growIndex keys.sorted fits ?_ ?_, fun c => ?_⟩
  · intro i fit
    rw [growSlots, if_pos fit]
    exact keys.occupied i fit
  · intro i past
    rw [growSlots, if_neg (not_lt.mpr past)]
    exact hasMetadata_cleared
  · rw [getChild_growIndex fits]
    exact valueAt_congr (fun i fit => if_pos fit) c

theorem IndexedSlots.grow (sl : IndexedSlots cs n idx) :
    Maps (node256 n) (growNode48 cs idx) ((node48 n idx).getChild cs) := by
  have e (b : UInt8) : growNode48 cs idx b.toNat =
      if idx b ≠ emptyMarker then cs (idx b) else Child.cleared := by
    simp [growNode48, b.toNat_lt]
  have ht (b : UInt8) : hasMetadata (growNode48 cs idx b.toNat) = decide (idx b ≠ emptyMarker) := by
    rw [e]
    by_cases used : idx b ≠ emptyMarker
    · rw [if_pos used, sl.occupied b used, decide_eq_true used]
    · rw [if_neg used, hasMetadata_cleared, decide_eq_false used]
  refine ⟨?_, fun b => ?_⟩
  · simp only [Valid, ht]
    exact sl.counted
  · rw [IndexedSlots.getChild_eq]
    simp only [getChild, slot, ht]
    by_cases used : idx b ≠ emptyMarker
    · simp [used, e]
    · simp [used]

omit [Child α] in
theorem valueAt_used {used : UInt8 → Bool} (value : UInt8 → α) {sl : Nat → α}
    (same : ∀ i < (usedBytes used).length, sl i = value ((usedBytes used).getD i 0))
    (c : UInt8) :
    valueAt (usedBytes used) sl c = if used c then some (value c) else none := by
  have distinct : (usedBytes used).Nodup := allBytes_nodup.filter _
  unfold valueAt
  cases got : position (usedBytes used) c with
  | none =>
    have absent : c ∉ usedBytes used := by
      rw [← position_isSome_iff, got]
      simp
    have hu : used c = false := by
      simpa [usedBytes, mem_allBytes] using absent
    simp [hu]
  | some i =>
    have place := (position_eq_some_iff distinct _ _).mp got
    have mem := mem_of_getElem? place
    rw [map_some, same i (position_lt got), if_pos (mem_filter.mp mem).2]
    simp [List.getD, place]

theorem IndexedSlots.shrink (sl : IndexedSlots cs n idx) (few : n ≤ node16Capacity) :
    Maps (shrinkNode48 cs idx).1 (shrinkNode48 cs idx).2 ((node48 n idx).getChild cs) := by
  have size : (usedBytes fun b => decide (idx b ≠ emptyMarker)).length = n := by
    rw [usedBytes, ← countP_eq_length_filter, sl.counted]
  refine ⟨⟨allBytes_sorted.filter _, size.trans_le few, fun i fit => ?_⟩, fun c => ?_⟩
  · apply sl.occupied
    have mem := getElem_mem fit
    rw [getD_eq_getElem _ _ fit]
    simpa using (mem_filter.mp mem).2
  · refine (valueAt_used (fun b => cs (idx b)) (fun _ _ => rfl) c).trans ?_
    rw [IndexedSlots.getChild_eq]
    simp

theorem shrinkNode256_maps (valid : (node256 n).Valid cs) (few : n ≤ node48Capacity) :
    Maps (shrinkNode256 cs).1 (shrinkNode256 cs).2 ((node256 n).getChild cs) := by
  have size : (usedBytes fun b => hasMetadata (cs b.toNat)).length = n := by
    rw [usedBytes, ← countP_eq_length_filter]
    exact valid.symm
  have fits := size.trans_le few
  have sl (i : Nat) : (shrinkNode256 cs).2 i =
      if i < (usedBytes fun b => hasMetadata (cs b.toNat)).length
      then cs ((usedBytes fun b => hasMetadata (cs b.toNat)).getD i 0).toNat
      else cleared := rfl
  refine ⟨indexedSlots_growIndex (allBytes_sorted.filter _) fits ?_ ?_, fun c => ?_⟩
  · intro i fit
    have mem := getElem_mem fit
    rw [sl, usedBytes, if_pos fit, getD_eq_getElem _ _ fit]
    exact (mem_filter.mp mem).2
  · intro i past
    rw [sl, usedBytes, if_neg (not_lt.mpr past), hasMetadata_cleared]
  · refine (getChild_growIndex fits _ c).trans ?_
    refine (valueAt_used (fun b => cs b.toNat) (fun _ fit => if_pos fit) c).trans ?_
    simp only [getChild, slot]
    split <;> rfl

/-! ## Operations -/

omit [Child α] in
theorem update_eq (m : UInt8 → Option α) (c : UInt8) (x : Option α) (o : UInt8) :
    Function.update m c x o = if c = o then x else m o := by
  by_cases same : c = o
  · simp [same]
  · simp [same, Ne.symm same]

omit [Child α] in
theorem fresh_of_valueAt {sl : Nat → α} (free : valueAt k sl c = none) : c ∉ k := by
  rw [← position_isSome_iff]
  simpa [valueAt] using free

omit [Child α] in
theorem update_toNat (cs : Nat → α) (c o : UInt8) (ch : α) :
    Function.update cs c.toNat ch o.toNat = if c = o then ch else cs o.toNat := by
  by_cases same : c = o
  · simp [same]
  · have apart : o.toNat ≠ c.toNat := fun h => same (UInt8.toNat_inj.mp h).symm
    simp [same, apart]

theorem insertNode256_maps (maps : Maps (node256 n) cs m) (free : m c = none)
    (has : hasMetadata ch = true) : Maps (insertNode256 cs n c ch).1 (insertNode256 cs n c ch).2
      (Function.update m c (some ch)) := by
  refine ⟨?_, fun o => ?_⟩
  · have hu : hasMetadata (cs c.toNat) = false := by
      have lookup := maps.child c
      rw [free] at lookup
      simpa [getChild, slot] using lookup
    have hc : n = _ := maps.valid
    simp only [insertNode256, Valid, update_toNat]
    rw [hc]
    symm
    refine countP_of_added (b := c) hu (by simpa using has) ?_ allBytes_nodup (mem_allBytes c)
    intro o ne
    simp [Ne.symm ne]
  · have lookup := maps.child o
    rw [update_eq, ← lookup]
    simp only [insertNode256, getChild, slot, update_toNat]
    by_cases eq : c = o
    · subst eq
      simp [has]
    · simp only [eq, if_false]
      split
      · simp [update_toNat, eq]
      · rfl

theorem insertNode48_maps (maps : Maps (node48 n idx) cs m)
    (free : m c = none) (has : hasMetadata ch = true) : Maps (insertNode48 cs n idx c ch).1
      (insertNode48 cs n idx c ch).2 (Function.update m c (some ch)) := by
  have sl : IndexedSlots cs n idx := maps.valid
  have hu : idx c = emptyMarker := by
    have lookup := maps.child c
    rw [free, IndexedSlots.getChild_eq] at lookup
    simpa using lookup
  unfold insertNode48
  split
  · next space =>
      refine ⟨sl.insert space hu has, fun o => ?_⟩
      dsimp only
      obtain ⟨fit, vacant⟩ := sl.freeSlot_free space
      have hne : freeSlot cs n ≠ emptyMarker := by
        simp only [node48Capacity, emptyMarker] at fit ⊢
        omega
      rw [update_eq, ← maps.child o, IndexedSlots.getChild_eq, IndexedSlots.getChild_eq]
      by_cases eq : c = o
      · subst eq
        simp [hne]
      · rw [if_neg eq, update_of_ne (Ne.symm eq)]
        by_cases used : idx o ≠ emptyMarker
        · have ne : idx o ≠ freeSlot cs n := by
            intro eq
            have hoc := sl.occupied o used
            rw [eq, vacant] at hoc
            exact Bool.false_ne_true hoc
          rw [if_pos used, if_pos used, update_of_ne ne]
        · rw [if_neg used, if_neg used]
  · have grown := sl.grow
    exact insertNode256_maps ⟨grown.valid, fun b => (grown.child b).trans (maps.child b)⟩ free has

theorem SortedKeys.insert_maps (keys : SortedKeys cs cap k) (space : k.length < cap)
    (free : valueAt k cs c = none) (has : hasMetadata ch = true) :
    SortedKeys (insertAt (insertPosition k c) ch cs) cap (k.insertIdx (insertPosition k c) c) ∧
      ∀ o, valueAt (k.insertIdx (insertPosition k c) c) (insertAt (insertPosition k c) ch cs) o =
          Function.update (valueAt k cs) c (some ch) o := by
  have new := fresh_of_valueAt free
  refine ⟨keys.insert space new has, fun o => ?_⟩
  rw [valueAt_insertAt (insertPosition_le k c) new, update_eq]

theorem insertNode16_maps (keys : SortedKeys cs node16Capacity k)
    (free : valueAt k cs c = none) (has : hasMetadata ch = true) :
    Maps (insertNode16 cs k c ch).1 (insertNode16 cs k c ch).2
      (Function.update (valueAt k cs) c (some ch)) := by
  unfold insertNode16
  split
  · next space =>
      obtain ⟨hv, lookup⟩ := keys.insert_maps space free has
      exact ⟨hv, lookup⟩
  · exact insertNode48_maps keys.grow free has

theorem insertNode4_maps (keys : SortedKeys cs node4Capacity k)
    (free : valueAt k cs c = none) (has : hasMetadata ch = true) :
    Maps (insertNode4 cs k c ch).1 (insertNode4 cs k c ch).2
      (Function.update (valueAt k cs) c (some ch)) := by
  unfold insertNode4
  split
  · next space =>
      obtain ⟨hv, lookup⟩ := keys.insert_maps space free has
      exact ⟨hv, lookup⟩
  · exact insertNode16_maps (keys.mono (keys.fits.trans (by decide))) free has

theorem Maps.insertChild (maps : Maps l cs m) (free : m c = none) (has : hasMetadata ch = true) :
    Maps (l.insertChild cs c ch).1 (l.insertChild cs c ch).2 (Function.update m c (some ch)) := by
  have view : l.getChild cs = m := funext maps.child
  subst view
  cases l with
  | node4 k => exact insertNode4_maps maps.valid free has
  | node16 k => exact insertNode16_maps maps.valid free has
  | node48 n idx => exact insertNode48_maps maps free has
  | node256 n => exact insertNode256_maps maps free has

theorem deleteSorted_maps (keys : SortedKeys cs cap k) {pos : Nat}
    (got : position k c = some pos) : SortedKeys (removeAt pos cs) cap (k.eraseIdx pos) ∧
      ∀ o, valueAt (k.eraseIdx pos) (removeAt pos cs) o =
        Function.update (valueAt k cs) c none o := by
  refine ⟨keys.erase (position_lt got), fun o => ?_⟩
  rw [valueAt_removeAt keys.nodup got, update_eq]

theorem delete48_maps (sl : IndexedSlots cs n idx) (used : idx c ≠ emptyMarker) (o : UInt8) :
    (node48 (n - 1) (Function.update idx c emptyMarker)).getChild
        (Function.update cs (idx c) cleared) o =
      Function.update ((node48 n idx).getChild cs) c none o := by
  rw [update_eq, IndexedSlots.getChild_eq, IndexedSlots.getChild_eq]
  by_cases eq : c = o
  · simp [eq]
  · rw [if_neg eq, update_of_ne (Ne.symm eq)]
    by_cases used' : idx o ≠ emptyMarker
    · have ne : idx o ≠ idx c := fun h => eq (sl.distinct c o used h.symm)
      rw [if_pos used', if_pos used', update_of_ne ne]
    · rw [if_neg used', if_neg used']

theorem delete256_maps (valid : (node256 n).Valid cs) (used : hasMetadata (cs c.toNat) = true) :
    Maps (node256 (n - 1)) (Function.update cs c.toNat cleared)
      (Function.update ((node256 n).getChild cs) c none) := by
  refine ⟨?_, fun o => ?_⟩
  · have hc : n = _ := valid
    simp only [Valid, update_toNat]
    rw [hc]
    refine Nat.sub_eq_of_eq_add ?_
    refine countP_of_added (b := c) (by simp) used ?_ allBytes_nodup (mem_allBytes c)
    intro o ne
    simp [Ne.symm ne]
  · rw [update_eq]
    simp only [getChild, slot, update_toNat]
    by_cases eq : c = o
    · subst eq
      simp
    · simp only [eq, if_false]
      split
      · simp [update_toNat, eq]
      · rfl

theorem exists_slot (ht : (l.getChild cs c).isSome) : ∃ i, l.slot cs c = some i := by
  simpa [getChild, isSome_iff_exists] using ht

/-- Deleting at an occupied byte removes the child from the map. -/
theorem Maps.deleteChild (maps : Maps l cs m) (took : (m c).isSome) :
    Maps (l.deleteChild cs c).1 (l.deleteChild cs c).2 (Function.update m c none) := by
  have view : l.getChild cs = m := funext maps.child
  subst view
  cases l with
  | node4 k =>
    obtain ⟨pos, got⟩ : ∃ pos, position k c = some pos := exists_slot took
    obtain ⟨hv, lookup⟩ := deleteSorted_maps maps.valid got
    simp only [Layout.deleteChild, got]
    exact ⟨hv, lookup⟩
  | node16 k =>
    obtain ⟨pos, got⟩ : ∃ pos, position k c = some pos := exists_slot took
    obtain ⟨hv, lookup⟩ := deleteSorted_maps maps.valid got
    simp only [Layout.deleteChild, got]
    split
    · next few => exact ⟨hv.mono few.le, lookup⟩
    · exact ⟨hv, lookup⟩
  | node48 n idx =>
    have sl : IndexedSlots cs n idx := maps.valid
    have used : idx c ≠ emptyMarker := by
      intro hu
      simp [IndexedSlots.getChild_eq, hu] at took
    have erased := sl.erase used
    simp only [Layout.deleteChild]
    split
    · next few =>
        have shrunk := erased.shrink (few.le.trans (by decide))
        exact ⟨shrunk.valid, fun o => (shrunk.child o).trans (delete48_maps sl used o)⟩
    · exact ⟨erased, delete48_maps sl used⟩
  | node256 n =>
    have used : hasMetadata (cs c.toNat) = true := by
      by_contra hu
      simp [getChild, slot, hu] at took
    have erased := delete256_maps maps.valid used
    simp only [Layout.deleteChild]
    split
    · next few =>
        have shrunk := shrinkNode256_maps erased.valid (few.trans (by decide))
        exact ⟨shrunk.valid, fun o => (shrunk.child o).trans (erased.child o)⟩
    · exact erased

theorem Maps.replaceChild (maps : Maps l cs m) (took : (m c).isSome) (has : hasMetadata ch = true) :
    Maps l (l.replaceChild cs c ch) (Function.update m c (some ch)) := by
  have view : l.getChild cs = m := funext maps.child
  subst view
  obtain ⟨i, got⟩ := exists_slot took
  simp only [Layout.replaceChild, got]
  cases l with
  | node4 k | node16 k =>
    have keys : SortedKeys cs _ k := maps.valid
    refine ⟨keys.update i has, fun o => ?_⟩
    rw [update_eq]
    exact valueAt_update keys.nodup got ch cs o
  | node48 n idx =>
    have sl : IndexedSlots cs n idx := maps.valid
    obtain ⟨used, rfl⟩ : idx c ≠ emptyMarker ∧ idx c = i := by
      simpa [slot] using got
    refine ⟨sl.update has, fun o => ?_⟩
    rw [update_eq, IndexedSlots.getChild_eq, IndexedSlots.getChild_eq]
    by_cases eq : c = o
    · subst eq
      simp [used]
    · by_cases used' : idx o ≠ emptyMarker
      · have ne : idx o ≠ idx c := fun h => eq (sl.distinct c o used h.symm)
        rw [if_pos used', if_neg eq, if_pos used', update_of_ne ne]
      · rw [if_neg used', if_neg eq, if_neg used']
  | node256 n =>
    obtain ⟨used, rfl⟩ : hasMetadata (cs c.toNat) = true ∧ c.toNat = i := by
      simpa [slot] using got
    have e (o : UInt8) : hasMetadata (Function.update cs c.toNat ch o.toNat) =
          hasMetadata (cs o.toNat) := by
      by_cases eq : o.toNat = c.toNat
      · simp [eq, used, has]
      · simp [eq]
    refine ⟨?_, fun o => ?_⟩
    · simp only [Valid, e]
      exact maps.valid
    · rw [update_eq]
      simp only [getChild, slot, e]
      by_cases eq : c = o
      · subst eq
        simp [used]
      · have ne : o.toNat ≠ c.toNat := fun h => eq (UInt8.toNat_inj.mp h).symm
        split
        · simp [ne]
        · rfl

/-! ## Access -/

theorem Maps.count_eq (maps : Maps l cs m) : l.count = size m := by
  have view : l.getChild cs = m := funext maps.child
  subst view
  cases l with
  | node4 k | node16 k => exact (size_valueAt (SortedKeys.sorted maps.valid) cs).symm
  | node48 n idx =>
    refine (IndexedSlots.counted maps.valid).trans (countP_congr fun c _ => ?_)
    rw [IndexedSlots.getChild_eq]
    split <;> simp_all
  | node256 n =>
    have hc : n = _ := maps.valid
    refine hc.trans (countP_congr fun c _ => ?_)
    simp only [getChild, slot]
    split <;> simp_all

theorem Valid.getNextChild_some (valid : l.Valid cs) {c next : UInt8} {i : Nat}
    (got : l.getNextChild cs c = some (next, i)) : c ≤ next ∧ l.slot cs next = some i ∧
      ∀ o, c ≤ o → (l.slot cs o).isSome → next ≤ o := by
  have scanned (got : l.scanSlots cs c = some (next, i)) : c ≤ next ∧ l.slot cs next = some i ∧
        ∀ o, c ≤ o → (l.slot cs o).isSome → next ≤ o := by
    obtain ⟨old, _, _, split, hit, misses⟩ := findSome?_eq_some_iff.mp got
    split_ifs at hit
    next hr =>
      obtain ⟨_, hi, eq⟩ := map_eq_some_iff.mp hit
      cases eq
      refine ⟨hr, hi, fun o high hp => ?_⟩
      by_contra below
      have mem : o ∈ old := by
        have ord := allBytes_sorted
        have anywhere := mem_allBytes o
        rw [split] at ord anywhere
        rcases mem_append.mp anywhere with early | late
        · exact early
        · rcases mem_cons.mp late with rfl | late
          · exact absurd (le_refl o) below
          · have abv := (pairwise_cons.mp (pairwise_append.mp ord).2.1).1 o late
            exact absurd abv.le below
      have missed := misses o mem
      rw [if_pos high, map_eq_none_iff] at missed
      simp [missed] at hp
  cases l with
  | node4 k | node16 k =>
    obtain ⟨hr, hi, minimal⟩ := nextPosition_eq_some (SortedKeys.sorted valid) got
    exact ⟨hr, hi, fun o high hp => minimal o ((position_isSome_iff k o).mp hp) high⟩
  | node48 n idx => exact scanned got
  | node256 n => exact scanned got

theorem getNextChild_none (hm : l.getNextChild cs c = none) : ∀ o, c ≤ o → l.slot cs o = none := by
  have scanned (hm : l.scanSlots cs c = none) : ∀ o, c ≤ o → l.slot cs o = none := by
    intro o high
    have missed := findSome?_eq_none_iff.mp hm o (mem_allBytes o)
    rwa [if_pos high, map_eq_none_iff] at missed
  have asc {k : List UInt8} (hm : nextPosition k c = none) : ∀ o, c ≤ o → position k o = none := by
    intro o high
    rw [← not_isSome_iff_eq_none, position_isSome_iff]
    intro mem
    exact absurd high (not_le.mpr (nextPosition_eq_none hm o mem))
  cases l with
  | node4 k | node16 k => exact asc hm
  | node48 n idx => exact scanned hm
  | node256 n => exact scanned hm

theorem Valid.occupied (valid : l.Valid cs) {i : Nat}
    (got : l.slot cs c = some i) : hasMetadata (cs i) = true := by
  cases l with
  | node4 k | node16 k => exact SortedKeys.occupied valid i (position_lt got)
  | node48 n idx =>
    obtain ⟨used, rfl⟩ : idx c ≠ emptyMarker ∧ idx c = i := by
      simpa [slot] using got
    exact IndexedSlots.occupied valid c used
  | node256 n =>
    obtain ⟨used, rfl⟩ : hasMetadata (cs c.toNat) = true ∧ c.toNat = i := by
      simpa [slot] using got
    exact used

/-! ## Occupancy -/

/-- The fewest children that a node of a layout is left with. -/
def minimum : Layout → Nat
  | node4 _ => 2
  | node16 _ => node4Capacity
  | node48 _ _ => node48ShrinkThreshold
  | node256 _ => node256ShrinkThreshold + 1

theorem minimum_le_insertChild (le : l.minimum ≤ l.count) (b : UInt8) (c : α) :
    (l.insertChild cs b c).1.minimum ≤ (l.insertChild cs b c).1.count := by
  have fill256 (n : Nat) (sl : Nat → α) (many : node48Capacity ≤ n) :
      (insertNode256 sl n b c).1.minimum ≤ (insertNode256 sl n b c).1.count := by
    simp only [insertNode256, minimum, Layout.count, node256ShrinkThreshold, node48Capacity] at *
    omega
  have fill48 (n : Nat) (idx : UInt8 → Nat) (sl : Nat → α) (many : node48ShrinkThreshold ≤ n) :
      (insertNode48 sl n idx b c).1.minimum ≤ (insertNode48 sl n idx b c).1.count := by
    unfold insertNode48
    split
    · simp only [minimum, Layout.count]
      omega
    · exact fill256 _ _ (by omega)
  have fill16 (k : List UInt8) (sl : Nat → α) (many : node4Capacity ≤ k.length) :
      (insertNode16 sl k b c).1.minimum ≤ (insertNode16 sl k b c).1.count := by
    unfold insertNode16
    split
    · simp only [minimum, Layout.count, length_insertIdx_of_le_length (insertPosition_le k b)]
      omega
    · apply fill48
      simp only [node48ShrinkThreshold, node16Capacity] at *
      omega
  cases l with
  | node4 k =>
    simp only [Layout.insertChild, insertNode4]
    split
    · simp only [minimum, Layout.count, length_insertIdx_of_le_length (insertPosition_le k b)] at *
      omega
    · exact fill16 k cs (by omega)
  | node16 k => exact fill16 k cs le
  | node48 n idx => exact fill48 n idx cs le
  | node256 n =>
    simp only [Layout.insertChild, insertNode256, minimum, Layout.count] at *
    omega

/-- A node keeps its minimum through a deletion, unless it is a `Node4` with
two children. -/
theorem Maps.minimum_le_deleteChild (maps : Maps l cs m)
    (le : l.minimum ≤ l.count) (took : (m c).isSome) (more : (∃ k, l = node4 k) → 2 < l.count) :
    (l.deleteChild cs c).1.minimum ≤ (l.deleteChild cs c).1.count := by
  have aft : (l.deleteChild cs c).1.count + 1 = l.count := by
    rw [(maps.deleteChild took).count_eq, maps.count_eq, size_erase took]
  have view : l.getChild cs = m := funext maps.child
  subst view
  cases l with
  | node4 k =>
    obtain ⟨pos, got⟩ : ∃ pos, position k c = some pos := exists_slot took
    have three := more ⟨k, rfl⟩
    have fewest : ((node4 k).deleteChild cs c).1.minimum = 2 := by
      simp [Layout.deleteChild, got, minimum]
    omega
  | node16 k =>
    obtain ⟨pos, got⟩ : ∃ pos, position k c = some pos := exists_slot took
    have length : (k.eraseIdx pos).length + 1 = k.length := by
      rw [length_eraseIdx_of_lt (position_lt got)]
      have fit := position_lt got
      omega
    have eq : (node16 k).count = k.length := rfl
    have four : 4 ≤ k.length := le
    by_cases few : (k.eraseIdx pos).length < node4Capacity
    · have shrunk : ((node16 k).deleteChild cs c).1.minimum = 2 := by
        simp [Layout.deleteChild, got, few, minimum]
      omega
    · have kept : ((node16 k).deleteChild cs c).1.minimum = node4Capacity := by
        simp [Layout.deleteChild, got, few, minimum]
      omega
  | node48 n idx =>
    have eq : (node48 n idx).count = n := rfl
    have twelve : 12 ≤ n := le
    by_cases few : n - 1 < node48ShrinkThreshold
    · have shrunk : ((node48 n idx).deleteChild cs c).1.minimum =
          node4Capacity := by
        simp [Layout.deleteChild, few, minimum, shrinkNode48]
      simp only [node4Capacity] at shrunk
      omega
    · have kept : ((node48 n idx).deleteChild cs c).1.minimum =
          node48ShrinkThreshold := by
        simp [Layout.deleteChild, few, minimum]
      omega
  | node256 n =>
    have eq : (node256 n).count = n := rfl
    have many : 37 ≤ n := le
    by_cases few : n - 1 ≤ node256ShrinkThreshold
    · have shrunk : ((node256 n).deleteChild cs c).1.minimum =
          node48ShrinkThreshold := by
        simp [Layout.deleteChild, few, minimum, shrinkNode256]
      simp only [node48ShrinkThreshold] at shrunk
      omega
    · have kept : ((node256 n).deleteChild cs c).1.minimum = node256ShrinkThreshold + 1 := by
        simp [Layout.deleteChild, few, minimum]
      omega

end

end Layout

end AccessPath
