import AccessPath.Art.Erase

/-!
# The index as a multimap

Every history of insertions and deletions leaves the tree holding, under each
key, exactly the row IDs that were inserted and not deleted.
-/

namespace AccessPath

open Library Node Prefix Function

variable {key : ARTKey}

/-- No key of the set is a proper prefix of another. -/
def PrefixFree (keys : Set ARTKey) : Prop :=
  ∀ key ∈ keys, ∀ other ∈ keys, key <+: other → key = other

/-- Two strings of one letter, as the keys of the examples below. -/
theorem prefixFree_pair : PrefixFree {[97, 0], [98, 0]} := by
  intro key mem o mem'
  rcases mem with rfl | rfl <;> rcases mem' with rfl | rfl <;> decide

/-! ## Trees over a set of keys -/

namespace Node

/-- An empty or a well-formed tree. -/
def Sound (tree : Node) : Prop := tree = empty ∨ WellFormed tree

/-- The tree stores keys of the set only. -/
def Within (keys : Set ARTKey) (tree : Node) : Prop := ∀ key, rows tree key ≠ [] → key ∈ keys

theorem Within.compatible {keys : Set ARTKey} (free : PrefixFree keys) {t : Node}
    (within : Within keys t) (mem : key ∈ keys) : Compatible t key := by
  intro stored got related
  rcases related with old | old
  · exact free stored (within stored got) key mem old
  · exact (free key mem stored (within stored got) old).symm

end Node

/-! ## Histories -/

/-- A request to the index. -/
inductive Request where
  | insert (key : ARTKey) (rowId : RowId)
  | delete (key : ARTKey) (rowId : RowId)
  deriving DecidableEq

/-- The row IDs that are stored under each key. -/
abbrev Stored := ARTKey → Multiset RowId

namespace Stored

/-- What a multimap, or a map from keys to single row IDs, makes of a request. -/
def apply (unique : Bool) (stored : Stored) : Request → Stored
  | .insert key rowId =>
    if unique = true ∧ stored key ≠ 0 then stored
    else Function.update stored key (rowId ::ₘ stored key)
  | .delete key rowId => Function.update stored key ((stored key).erase rowId)

/-- An inserted pair is new and a deleted pair is present. -/
def Allows (keys : Set ARTKey) (stored : Stored) : Request → Prop
  | .insert key rowId => key ∈ keys ∧ rowId ∉ stored key
  | .delete key rowId => key ∈ keys ∧ rowId ∈ stored key

/-- Every request of a history is allowed when it is made. -/
def AllowsAll (unique : Bool) (keys : Set ARTKey) : Stored → List Request → Prop
  | _, [] => True
  | stored, request :: history =>
    Allows keys stored request ∧ AllowsAll unique keys (apply unique stored request) history

end Stored

namespace ART

/-- `ART::Insert` and `ART::Delete` of one pair. -/
def apply (unique : Bool) (tree : Node) : Request → Node
  | .insert key rowId => (insert unique tree key rowId).1
  | .delete key rowId => erase tree key rowId

/-- The tree holds the pairs that are stored. -/
structure Holds (keys : Set ARTKey) (tree : Node) (stored : Stored) : Prop where
  sound : Sound tree
  rows_eq : ∀ key, (rows tree key : Multiset RowId) = stored key
  within : ∀ key, stored key ≠ 0 → key ∈ keys

theorem holds_empty (keys : Set ARTKey) : Holds keys empty fun _ => 0 :=
  ⟨.inl rfl, fun _ => rfl, fun _ hp => absurd rfl hp⟩

section

variable {uniq : Bool} {keys : Set ARTKey} {t : Node} {stored : Stored}

theorem Holds.rows_ne_nil_iff (has : Holds keys t stored) (key : ARTKey) :
    rows t key ≠ [] ↔ stored key ≠ 0 := by
  rw [← has.rows_eq key, ne_eq, ne_eq, Multiset.coe_eq_zero]

theorem Holds.compatible (has : Holds keys t stored) (free : PrefixFree keys)
    (mem : key ∈ keys) : Compatible t key :=
  Within.compatible free (fun key got => has.within key ((has.rows_ne_nil_iff key).mp got)) mem

/-- An insertion is refused under a key that a unique index has, and adds the
row ID otherwise. -/
theorem Holds.insert_cases (uniq : Bool) (has : Holds keys t stored) (free : PrefixFree keys)
    (mem : key ∈ keys) (rid : RowId) :
    (uniq = true ∧ stored key ≠ 0 ∧ insert uniq t key rid = (t, false)) ∨
      (¬ (uniq = true ∧ stored key ≠ 0) ∧ (insert uniq t key rid).2 = true ∧
        WellFormed (insert uniq t key rid).1 ∧ ∀ o, rows (insert uniq t key rid).1 o =
          if o = key then rows t o ++ [rid] else rows t o) := by
  rcases has.sound with rfl | wf
  · right
    have eq : stored key = 0 := (has.rows_eq key).symm
    refine ⟨fun both => both.2 eq, rfl, wellFormed_newLeaf key rid, fun o => ?_⟩
    exact rows_newLeaf key rid o
  · generalize r : insert uniq t key rid = out
    have spec := insert_spec uniq wf (has.compatible free mem) rid
    rw [r] at spec
    cases spec with
    | refused huq hp =>
      exact .inl ⟨huq, (has.rows_ne_nil_iff key).mp hp, rfl⟩
    | added eq wf' hch rows_eq =>
      refine .inr ⟨fun both => ?_, rfl, wf', rows_eq⟩
      exact (has.rows_ne_nil_iff key).mpr both.2 (eq both.1)

section

variable (holds : Holds keys t stored) (free : PrefixFree keys)
include holds free

theorem Holds.insert (mem : key ∈ keys) (rid : RowId) :
    Holds keys (insert uniq t key rid).1
      (stored.apply uniq (.insert key rid)) := by
  rcases Holds.insert_cases uniq holds free mem rid with
    ⟨constrained, hp, result⟩ | ⟨accepted, _, wf, rows_eq⟩
  · rw [result, Stored.apply, if_pos ⟨constrained, hp⟩]
    exact holds
  · rw [Stored.apply, if_neg accepted]
    refine ⟨.inr wf, fun o => ?_, fun o hp => ?_⟩
    · rw [rows_eq]
      by_cases here : o = key
      · subst here
        rw [if_pos rfl, update_self, ← holds.rows_eq, ← Multiset.coe_add, add_comm]
        rfl
      · rw [if_neg here, update_of_ne here, holds.rows_eq]
    · by_cases here : o = key
      · exact here ▸ mem
      · rw [update_of_ne here] at hp
        exact holds.within o hp

theorem Holds.delete (mem : key ∈ keys) {rid : RowId} (has : rid ∈ stored key) :
    Holds keys (erase t key rid) (stored.apply uniq (.delete key rid)) := by
  rw [← holds.rows_eq, Multiset.mem_coe] at has
  rcases holds.sound with rfl | wf
  · simp [rows] at has
  · have erased := (erase_spec wf (holds.compatible free mem) rid).erased
    refine ⟨erased.shape, fun o => ?_, fun o left => ?_⟩
    · rw [Stored.apply]
      by_cases here : o = key
      · subst here
        rw [update_self, ← holds.rows_eq, Multiset.coe_erase]
        exact Quot.sound (erased.own has)
      · rw [update_of_ne here, erased.others o here, holds.rows_eq]
    · by_cases here : o = key
      · exact here ▸ mem
      · rw [Stored.apply, update_of_ne here] at left
        exact holds.within o left

theorem Holds.apply {request : Request} (allowed : stored.Allows keys request) :
    Holds keys (apply uniq t request) (stored.apply uniq request) := by
  cases request with
  | insert key rid => exact holds.insert free allowed.1 rid
  | delete key rid => exact holds.delete free allowed.1 allowed.2

theorem Holds.run {history : List Request} (allowed : stored.AllowsAll uniq keys history) :
    Holds keys (history.foldl (ART.apply uniq) t)
      (history.foldl (Stored.apply uniq) stored) := by
  induction history generalizing t stored with
  | nil => exact holds
  | cons request history ih => exact ih (holds.apply free allowed.1) allowed.2

theorem Holds.lookup (mem : key ∈ keys) : ((lookup t key).isSome ↔ stored key ≠ 0) ∧
      ∀ lf, lookup t key = some lf → ∀ maxCount, (stored key).card ≤ maxCount →
        ∃ ids : List RowId, Leaf.getRowIds lf [] maxCount = some ids ∧ ↑ids = stored key := by
  rw [← holds.rows_ne_nil_iff key, ← holds.rows_eq key]
  rcases holds.sound with rfl | wf
  · exact ⟨by simp [ART.lookup, rows], fun lf got => by simp [ART.lookup] at got⟩
  · rcases lookup_eq wf (holds.compatible free mem) with ⟨hm, absent⟩ | ⟨lf, got, ids, hp⟩
    · exact ⟨by simp [hm, absent], fun lf got => by simp [hm] at got⟩
    · refine ⟨by simp [got, hp], fun lf' got' maxCount enough => ?_⟩
      rw [got] at got'
      cases got'
      refine ⟨rows t key, ?_, rfl⟩
      rw [Multiset.coe_card] at enough
      rw [Leaf.getRowIds, ids, if_neg (by simpa using enough), List.nil_append]

end

end

/-- After every history over a prefix-free set of keys, lookup finds a leaf
exactly under the keys with stored row IDs, the leaf has exactly these, and a
unique index refuses a second row ID without any change. -/
theorem history_multimap (unique : Bool) (keys : Set ARTKey) (free : PrefixFree keys)
    (history : List Request) (allowed : Stored.AllowsAll unique keys (fun _ => 0) history) :
    let tree := history.foldl (apply unique) empty
    let stored := history.foldl (Stored.apply unique) fun _ => 0
    ∀ key ∈ keys,
      ((lookup tree key).isSome ↔ stored key ≠ 0) ∧
      (∀ leaf, lookup tree key = some leaf → ∀ maxCount, (stored key).card ≤ maxCount →
        ∃ ids : List RowId, Leaf.getRowIds leaf [] maxCount = some ids ∧ ↑ids = stored key) ∧
      ∀ rowId, unique = true → stored key ≠ 0 → insert unique tree key rowId = (tree, false) := by
  intro tree stored key mem
  have holds : Holds keys tree stored := (holds_empty keys).run free allowed
  obtain ⟨found, ids⟩ := holds.lookup free mem
  refine ⟨found, ids, fun rowId constrained present => ?_⟩
  rcases Holds.insert_cases unique holds free mem rowId with
    ⟨_, _, result⟩ | ⟨accepted, _⟩
  · exact result
  · exact absurd ⟨constrained, present⟩ accepted

/-- Two row IDs under one key, of which the first is deleted again. -/
theorem history_multimap_deleted :
    let keys : Set ARTKey := {[97, 0], [98, 0]}
    let first : RowId := ⟨5, by decide⟩
    let second : RowId := ⟨6, by decide⟩
    let history : List Request :=
      [.insert [97, 0] first, .insert [97, 0] second, .insert [98, 0] first, .delete [97, 0] first]
    PrefixFree keys ∧ Stored.AllowsAll false keys (fun _ => 0) history ∧
      (lookup (history.foldl (apply false) empty) [97, 0]).isSome := by
  intro keys first second history
  have free : PrefixFree keys := prefixFree_pair
  have allowed : Stored.AllowsAll false keys (fun _ => 0) history := by
    simp [history, first, second, keys, Stored.AllowsAll, Stored.Allows, Stored.apply]
  refine ⟨free, allowed, ?_⟩
  apply ((history_multimap false keys free history allowed [97, 0] (.inl rfl)).1).mpr
  simp [history, first, second, Stored.apply]

end ART

end AccessPath
