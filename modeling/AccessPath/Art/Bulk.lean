import AccessPath.Art.RangeScan

/-!
# Chunks and sorted keys

`ART::Insert` of a chunk undoes its insertions when a unique index refuses a
row. `ART::ConstructFromSorted` builds the tree that holds the sorted pairs.
-/

namespace AccessPath

open Library Node List Function

/-- A row of an input chunk: the key, which is empty for NULL, the row ID and
the texts of the columns. -/
structure ChunkRow where
  key : ARTKey
  rowId : RowId
  values : List String

namespace ART

/-- The insertions of `ART::Insert`, up to the index of the row that fails. -/
def insertRows (unique : Bool) (tree : Node) : List ChunkRow → Node × Option Nat
  | [] => (tree, none)
  | row :: chunk =>
    if row.key.isEmpty then
      let rest := insertRows unique tree chunk
      (rest.1, rest.2.map (· + 1))
    else
      match insert unique tree row.key row.rowId with
      | (tree, false) => (tree, some 0)
      | (tree, true) =>
        let rest := insertRows unique tree chunk
        (rest.1, rest.2.map (· + 1))

/-- The loop that removes the rows before the one that fails. -/
def eraseRows (tree : Node) (chunk : List ChunkRow) : Node :=
  chunk.foldl (fun tree row => if row.key.isEmpty then tree else erase tree row.key row.rowId) tree

/-- `BoundIndex::AppendRowError`. -/
def appendRowError (row : ChunkRow) : String := ", ".intercalate row.values

/-- `ART::Insert` of a chunk, with its constraint error. -/
def insertChunk (unique : Bool) (tree : Node) (chunk : List ChunkRow) : Node × Option String :=
  match insertRows unique tree chunk with
  | (tree, none) => (tree, none)
  | (tree, some failed) =>
    (eraseRows tree (chunk.take failed),
      some ("PRIMARY KEY or UNIQUE constraint violated: duplicate key \"" ++
        (chunk[failed]?.map appendRowError).getD "" ++ "\""))

end ART

namespace Stored

/-- The pairs with that of a row, unless its key is NULL. -/
def add (stored : Stored) (row : ChunkRow) : Stored :=
  if row.key = [] then stored else update stored row.key (row.rowId ::ₘ stored row.key)

theorem add_of_null {row : ChunkRow} (null : row.key = []) (st : Stored) :
    st.add row = st := if_pos null

theorem add_add (st : Stored) (a b : ChunkRow) : (st.add a).add b = (st.add b).add a := by
  unfold add
  by_cases null : a.key = []
  · simp only [if_pos null]
  · by_cases null' : b.key = []
    · simp only [if_pos null']
    · simp only [if_neg null, if_neg null']
      by_cases eq : a.key = b.key
      · simp only [eq, update_self, update_idem, Multiset.cons_swap]
      · rw [update_of_ne (Ne.symm eq), update_of_ne eq, update_comm eq]

theorem foldl_add (st : Stored) (row : ChunkRow) (ck : List ChunkRow) :
    ck.foldl add (st.add row) = (ck.foldl add st).add row := by
  induction ck generalizing st with
  | nil => rfl
  | cons o ck ih => rw [foldl_cons, foldl_cons, add_add, ih]

theorem foldl_add_ne_zero_iff (st : Stored) {key : ARTKey} (hne : key ≠ []) (ck : List ChunkRow) :
    ck.foldl add st key ≠ 0 ↔ st key ≠ 0 ∨ ∃ row ∈ ck, row.key = key := by
  induction ck generalizing st with
  | nil => simp
  | cons row ck ih =>
    rw [foldl_cons, ih, exists_mem_cons_iff, ← or_assoc]
    refine or_congr_left ?_
    by_cases here : row.key = key
    · subst here
      simp [add, hne]
    · by_cases null : row.key = []
      · rw [add_of_null null, or_iff_left here]
      · rw [add, if_neg null, update_of_ne (Ne.symm here), or_iff_left here]

end Stored

namespace ART

section

variable {keys : Set ARTKey} {t : Node} {st : Stored} {chunk : List ChunkRow} {row : ChunkRow}

/-- How the insertions of a chunk into a unique index end. -/
inductive Inserts (keys : Set ARTKey) (stored : Stored) (chunk : List ChunkRow) :
    Node × Option Nat → Prop
  | all {tree : Node} (fresh : ∀ front row back, chunk = front ++ row :: back → row.key ≠ [] →
      front.foldl .add stored row.key = 0) : Inserts keys stored chunk (tree, none)
  | stopped {tree : Node} {front back : List ChunkRow} {row : ChunkRow}
      (split : chunk = front ++ row :: back) (proper : row.key ≠ [])
      (taken : front.foldl .add stored row.key ≠ 0)
      (holds : Holds keys tree (front.foldl .add stored)) : Inserts keys stored chunk (tree,
        some front.length)

theorem Inserts.cons {res : Node × Option Nat} (rest : Inserts keys (st.add row) chunk res)
    (got : row.key ≠ [] → st row.key = 0) :
    Inserts keys st (row :: chunk) (res.1, res.2.map (· + 1)) := by
  cases rest with
  | all hl =>
    refine .all fun pre o back split hne => ?_
    cases pre with
    | nil =>
      cases split
      exact got hne
    | cons fst pre =>
      cases split
      exact hl pre o back rfl hne
  | @stopped _ pre _ _ split hne taken holds =>
    exact @Inserts.stopped keys st _ _ (row :: pre) _ _ (by rw [split]; rfl) hne taken holds

variable (free : PrefixFree keys)
include free

theorem insertRows_spec (hh : Holds keys t st)
    (mem : ∀ row ∈ chunk, row.key ≠ [] → row.key ∈ keys) :
    Inserts keys st chunk (insertRows true t chunk) := by
  induction chunk generalizing t st with
  | nil => exact .all fun pre row back split => by simp at split
  | cons row chunk ih =>
    have hl := fun o fit => mem o (mem_cons_of_mem row fit)
    rw [insertRows]
    by_cases null : row.key = []
    · rw [if_pos (by simp [null])]
      rw [← Stored.add_of_null null st] at hh
      exact (ih hh hl).cons (absurd null)
    · rw [if_neg (by simp [null])]
      have own := mem row mem_cons_self null
      have aft := @Holds.insert _ true _ _ _ hh free own row.rowId
      rcases hh.insert_cases true free own row.rowId with
        ⟨_, hp, result⟩ | ⟨hac, success, _⟩
      · rw [result]
        exact @Inserts.stopped keys st _ _ [] _ _ rfl null hp hh
      · rw [Stored.apply, if_neg hac] at aft
        generalize insert true t row.key row.rowId = out at success aft
        obtain ⟨tree, _⟩ := out
        subst success
        have aft' : Holds keys tree (st.add row) := by rwa [Stored.add, if_neg null]
        exact (ih aft' hl).cons fun _ => not_not.mp fun hp => hac ⟨rfl, hp⟩

/-- Erasing the rows that were added leaves what was there before. -/
theorem eraseRows_spec (hh : Holds keys t (chunk.foldl .add st))
    (mem : ∀ row ∈ chunk, row.key ≠ [] → row.key ∈ keys) : Holds keys (eraseRows t chunk) st := by
  induction chunk generalizing t with
  | nil => exact hh
  | cons row chunk ih =>
    have hl := fun o fit => mem o (mem_cons_of_mem row fit)
    rw [foldl_cons, Stored.foldl_add] at hh
    rw [eraseRows, foldl_cons]
    by_cases null : row.key = []
    · rw [Stored.add_of_null null] at hh
      rw [if_pos (by simp [null])]
      exact ih hh hl
    · rw [Stored.add, if_neg null] at hh
      rw [if_neg (by simp [null])]
      refine ih ?_ hl
      have erased := @Holds.delete _ true _ _ _ hh free (mem row mem_cons_self null) row.rowId
        (by simp)
      rwa [Stored.apply, update_self, Multiset.erase_cons_head, update_idem,
        update_eq_self] at erased

end

/-- A chunk is refused exactly when one of its keys is stored or occurs earlier
in it, and then the tree holds the pairs that it held before. -/
theorem insertChunk_atomic {keys : Set ARTKey} (free : PrefixFree keys) {tree : Node}
    (reached : Reachable false true keys tree) {chunk : List ChunkRow}
    (mem : ∀ row ∈ chunk, row.key ≠ [] → row.key ∈ keys) :
    ((insertChunk true tree chunk).2.isSome → ∀ key,
      (rows (insertChunk true tree chunk).1 key : Multiset RowId) = rows tree key) ∧
    ((insertChunk true tree chunk).2.isSome ↔ ∃ front row back, chunk = front ++ row :: back ∧
      row.key ≠ [] ∧ (rows tree row.key ≠ [] ∨ ∃ other ∈ front, other.key = row.key)) := by
  obtain ⟨sound, within⟩ := reached.sound free
  have holds : Holds keys tree fun key => rows tree key :=
    ⟨sound, fun _ => rfl, fun key found => within key (by simpa using found)⟩
  have taken_iff {key : ARTKey} (proper : key ≠ []) (front : List ChunkRow) :=
    Stored.foldl_add_ne_zero_iff (fun key => rows tree key) proper front
  simp only [ne_eq, Multiset.coe_eq_zero] at taken_iff
  rw [insertChunk]
  have spec := insertRows_spec free holds mem
  generalize insertRows true tree chunk = result at spec
  cases spec with
  | all fresh =>
    refine ⟨fun error => by simp at error, fun error => by simp at error, ?_⟩
    rintro ⟨front, row, back, split, proper, taken⟩
    exact absurd (fresh front row back split proper) ((taken_iff proper front).mpr taken)
  | @stopped _ front back row split proper taken holds' =>
    have before : ∀ row ∈ front, row.key ≠ [] → row.key ∈ keys := fun row inside =>
      mem row (by rw [split]; exact mem_append_left _ inside)
    have conflict := (taken_iff proper front).mp taken
    refine ⟨fun _ key => ?_, fun _ => ⟨front, row, back, split, proper, conflict⟩, fun _ => rfl⟩
    have erased : chunk.take front.length = front := by rw [split, take_left]
    dsimp only
    rw [erased]
    exact (eraseRows_spec free holds' before).rows_eq key

/-- A NULL, a new key and the same key again. -/
theorem insertChunk_atomic_twice :
    let keys : Set ARTKey := {[97, 0], [98, 0]}
    let chunk : List ChunkRow := [⟨[], ⟨6, by decide⟩, ["NULL"]⟩, ⟨[98, 0], ⟨7, by decide⟩, ["b"]⟩,
      ⟨[98, 0], ⟨8, by decide⟩, ["b"]⟩]
    (insertChunk true empty chunk).2 =
        some "PRIMARY KEY or UNIQUE constraint violated: duplicate key \"b\"" ∧
      (∀ row ∈ chunk, row.key ≠ [] → row.key ∈ keys) ∧
      ∀ key, (rows (insertChunk true empty chunk).1 key : Multiset RowId) = rows empty key := by
  intro keys chunk
  have mem : ∀ row ∈ chunk, row.key ≠ [] → row.key ∈ keys := by simp [chunk, keys]
  exact ⟨by decide, mem, (insertChunk_atomic prefixFree_pair .empty mem).1 (by decide)⟩

/-! ## Construction from sorted keys -/

theorem not_nodup_iff_of_sorted {list : List ARTKey} (asc : list.Pairwise (· ≤ ·)) :
    ¬ list.Nodup ↔ ∃ i key, list[i]? = some key ∧ list[i + 1]? = some key := by
  constructor
  · intro repeated
    by_contra none
    have chain : list.IsChain (· < ·) := by
      refine isChain_iff_getElem.mpr fun i fit => ?_
      refine lt_of_le_of_ne (pairwise_iff_getElem.mp asc i (i + 1) _ fit (Nat.lt_succ_self i)) ?_
      intro eq
      exact none ⟨i, list[i], getElem?_eq_getElem _, by rw [eq]; exact getElem?_eq_getElem _⟩
    exact repeated ((isChain_iff_pairwise.mp chain).imp ne_of_lt)
  · rintro ⟨_, _, here, next⟩ distinct
    have fit := (List.getElem?_eq_some_iff.mp here).1
    have eq := (List.getElem?_inj fit distinct).mp (here.trans next.symm)
    omega

/-- Construction from pairs that are sorted by their keys gives a tree in which
lookups and range scans find exactly these pairs. A unique index refuses exactly
the lists with two equal keys in a row. -/
theorem construct_exact {keys : Set ARTKey} (free : PrefixFree keys)
    {es : List (ARTKey × RowId)} (nonempty : es ≠ [])
    (asc : es.Pairwise fun a b => a.1 ≤ b.1) (mem : ∀ entry ∈ es, entry.1 ∈ keys) :
    ∃ enough, ∀ fuel, enough ≤ fuel → (∃ tree, construct false fuel es = (tree, true) ∧
        (∀ key, rows tree key = held es key) ∧
        (∀ key ∈ keys, ((lookup tree key).isSome ↔ held es key ≠ []) ∧
          ∀ leaf, lookup tree key = some leaf → ∀ maxCount, (held es key).length ≤ maxCount →
            ∃ ids, Leaf.getRowIds leaf [] maxCount = some ids ∧ ids.Perm (held es key)) ∧
        ∀ lower ∈ keys, ∀ upper ≠ [], ∀ leftEqual rightEqual maxCount, ∃ steps, ∀ more,
          steps ≤ more →
          Exact tree (AtLeast leftEqual lower) maxCount
            (searchGreater more tree lower leftEqual maxCount) ∧
          Exact tree (AtMost rightEqual upper) maxCount
            (searchLess more tree upper rightEqual maxCount) ∧
          Exact tree (fun key => AtLeast leftEqual lower key ∧ AtMost rightEqual upper key) maxCount
            (searchCloseRange more tree lower upper leftEqual rightEqual maxCount)) ∧
      ((construct true fuel es).2 = false ↔ ∃ i key, (es.map Prod.fst)[i]? = some key ∧
        (es.map Prod.fst)[i + 1]? = some key) := by
  have input : KeySection es :=
    ⟨nonempty, asc, fun a here b there => free a.1 (mem a here) b.1 (mem b there)⟩
  refine ⟨(es.map (·.1.length)).sum + 1, fun fuel enough => ?_⟩
  have long : ∀ entry ∈ es, entry.1.length < fuel := fun entry inside => by
    have := single_le_sum (by simp) _ (mem_map_of_mem (f := fun entry => entry.1.length) inside)
    omega
  constructor
  · rcases construct_spec false input long with ⟨success, wf, rows_eq, _⟩ | ⟨_, never, _⟩
    · have reached : Reachable false false keys (construct false fuel es).1 :=
        .construct nonempty asc mem long (.inl success)
      generalize construct false fuel es = built at *
      obtain ⟨tree, _⟩ := built
      subst success
      have within := (reached.sound free).2
      have holds : Holds keys tree fun key => held es key := ⟨.inr wf, fun key => by rw [rows_eq],
          fun key found => within key (by simpa [rows_eq] using found)⟩
      refine ⟨tree, rfl, rows_eq, fun key inside => ?_,
        fun lower inside upper proper left right maxCount => ?_⟩
      · obtain ⟨found, ids⟩ := holds.lookup free inside
        refine ⟨by simpa using found, fun leaf at_ maxCount fits => ?_⟩
        obtain ⟨list, eq, same⟩ := ids leaf at_ maxCount fits
        exact ⟨list, eq, Multiset.coe_eq_coe.mp same⟩
      · exact search_exact free reached lower inside upper proper left right maxCount
    · exact absurd never (by decide)
  · rw [← not_nodup_iff_of_sorted (pairwise_map.mpr asc)]
    rcases construct_spec true input long with ⟨success, _, _, distinct⟩ | ⟨failed, _, repeated⟩
    · simp [success, distinct rfl]
    · simp [failed, repeated]

/-- The two keys of a list with one key twice. -/
theorem construct_exact_twice :
    let keys : Set ARTKey := {[97, 0], [98, 0]}
    let first : RowId := ⟨5, by decide⟩
    let es : List (ARTKey × RowId) := [([97, 0], first), ([98, 0], first), ([98, 0], first)]
    PrefixFree keys ∧ ∃ fuel, (construct false fuel es).2 = true ∧
      (construct true fuel es).2 = false := by
  intro keys first es
  have asc : es.Pairwise fun a b => a.1 ≤ b.1 := by
    decide
  obtain ⟨fuel, built⟩ := construct_exact prefixFree_pair (cons_ne_nil _ _) asc (by simp)
  obtain ⟨⟨_, eq, _⟩, refused⟩ := built fuel le_rfl
  exact ⟨prefixFree_pair, fuel, by rw [eq], refused.mpr ⟨1, [98, 0], rfl, rfl⟩⟩

end ART

end AccessPath
