import AccessPath.Art.Construct
import AccessPath.Art.Merge
import AccessPath.Art.Multimap

/-!
# Reachable trees

The trees that `Insert`, `Erase`, `ConstructFromSorted` and `Merge` lead to, and
what holds in every one of them.
-/

namespace AccessPath

open Library Node Prefix List

variable {key : ARTKey} {fuel : Nat} {l node r : Node}

namespace ART

/-! ## Reachability -/

/-- The trees over a set of keys. A construction and a merge run until they
return; a construction that a constraint stops leaves its tree behind only with
`keepFailed`. -/
inductive Reachable (keepFailed unique : Bool) (keys : Set ARTKey) : Node → Prop
  | empty : Reachable keepFailed unique keys empty
  | insert {tree : Node} {key : ARTKey} (rowId : RowId) (mem : key ∈ keys)
      (before : Reachable keepFailed unique keys tree) :
      Reachable keepFailed unique keys (insert unique tree key rowId).1
  | erase {tree : Node} {key : ARTKey} (rowId : RowId) (mem : key ∈ keys)
      (before : Reachable keepFailed unique keys tree) :
      Reachable keepFailed unique keys (erase tree key rowId)
  | construct {fuel : Nat} {entries : List (ARTKey × RowId)} (nonempty : entries ≠ [])
      (sorted : entries.Pairwise fun a b => a.1 ≤ b.1) (mem : ∀ entry ∈ entries, entry.1 ∈ keys)
      (enough : ∀ entry ∈ entries, entry.1.length < fuel)
      (kept : (construct unique fuel entries).2 = true ∨ keepFailed = true) :
      Reachable keepFailed unique keys (construct unique fuel entries).1
  | merge {l r : Node} {fuel : Nat} {result : Node × Bool}
      (left : Reachable keepFailed unique keys l) (right : Reachable keepFailed unique keys r)
      (enough : Bounded fuel (rows l)) (enough' : Bounded fuel (rows r))
      (merged : merge unique fuel l r = some result) : Reachable keepFailed unique keys result.1

section

variable {uniq : Bool} {keys : Set ARTKey} {t : Node}

section

variable (free : PrefixFree keys)
include free

theorem joint_of_within (fits : Within keys l) (hw' : Within keys r) : Joint (rows l) (rows r) := by
  intro key o got got' related
  rcases related with old | old
  · exact free key (fits key got) o (hw' o got') old
  · exact (free o (hw' o got') key (fits key got) old).symm

theorem sound_insert (ok : Sound t) (within : Within keys t) (mem : key ∈ keys) (rid : RowId) :
    Sound (insert uniq t key rid).1 ∧ Within keys (insert uniq t key rid).1 := by
  have hh : Holds keys t fun key => rows t key :=
    ⟨ok, fun _ => rfl, fun key got => within key (by simpa using got)⟩
  have aft : Holds keys (insert uniq t key rid).1 _ := hh.insert free mem rid
  exact ⟨aft.sound, fun o got => aft.within o ((aft.rows_ne_nil_iff o).mp got)⟩

theorem sound_erase (ok : Sound t) (within : Within keys t) (mem : key ∈ keys)
    (rid : RowId) : Sound (erase t key rid) ∧ Within keys (erase t key rid) := by
  rcases ok with rfl | wf
  · exact ⟨.inl rfl, within⟩
  · have erased := (erase_spec wf (within.compatible free mem) rid).erased
    refine ⟨erased.shape, fun o got => ?_⟩
    by_cases here : o = key
    · exact here ▸ mem
    · rw [erased.others o here] at got
      exact within o got

theorem sound_construct {es : List (ARTKey × RowId)} (ne : es ≠ [])
    (srt : es.Pairwise fun a b => a.1 ≤ b.1) (mem : ∀ e ∈ es, e.1 ∈ keys)
    (suff : ∀ e ∈ es, e.1.length < fuel)
    (success : (construct uniq fuel es).2 = true) :
    Sound (construct uniq fuel es).1 ∧ Within keys (construct uniq fuel es).1 := by
  have input : KeySection es :=
    ⟨ne, srt, fun a here b there => free a.1 (mem a here) b.1 (mem b there)⟩
  rcases construct_spec uniq input suff with ⟨_, wf, rows_eq, _⟩ | ⟨hfa, _⟩
  · refine ⟨.inr wf, fun key got => ?_⟩
    rw [rows_eq, ne_eq, held_eq_nil_iff] at got
    push Not at got
    obtain ⟨e, here, rfl⟩ := got
    exact mem e here
  · rw [success] at hfa
    exact Bool.noConfusion hfa

theorem sound_merge (ok : Sound l) (ok' : Sound r) (fits : Within keys l)
    (hw' : Within keys r) (suff : Bounded fuel (rows l)) (suff' : Bounded fuel (rows r))
    {res : Node × Bool} (merged : merge uniq fuel l r = some res) :
    Sound res.1 ∧ Within keys res.1 := by
  obtain ⟨_, hr, ok, _, fit, _⟩ := merge_spec uniq ok ok' (joint_of_within free fits hw') suff suff'
  rw [merged] at hr
  cases hr
  exact ⟨ok, fun key got => (fit key got).elim (fits key) (hw' key)⟩

/-- Every reachable tree is well formed and has no other keys. -/
theorem Reachable.sound (reached : Reachable false uniq keys t) : Sound t ∧ Within keys t := by
  induction reached with
  | empty => exact ⟨.inl rfl, fun _ got => absurd rfl got⟩
  | insert rid mem _ ih => exact sound_insert free ih.1 ih.2 mem rid
  | erase rid mem _ ih => exact sound_erase free ih.1 ih.2 mem rid
  | construct ne srt mem hn kept =>
    exact sound_construct free ne srt mem hn (by simpa using kept)
  | merge _ _ hn hn' merged ih ih' =>
    exact sound_merge free ih.1 ih'.1 ih.2 ih'.2 hn hn' merged

end

end

/-! ## Merging reachable trees -/

/-- Merging two trees over one prefix-free key space gives the union of their
pairs. A unique index refuses exactly when a key is in both. -/
theorem merge_union (unique : Bool) {keys : Set ARTKey} (free : PrefixFree keys) {l r : Node}
    (left : Reachable false unique keys l) (right : Reachable false unique keys r) :
    ∃ enough, ∀ fuel, enough ≤ fuel → ∃ tree success, merge unique fuel l r = some (tree, success) ∧
      (success = true → ∀ key, (rows tree key : Multiset RowId) = rows l key + rows r key) ∧
      (success = false ↔ unique = true ∧ ∃ key, rows l key ≠ [] ∧ rows r key ≠ []) := by
  obtain ⟨sound, within⟩ := left.sound free
  obtain ⟨sound', within'⟩ := right.sound free
  obtain ⟨bound, short⟩ := exists_bounded l
  obtain ⟨bound', short'⟩ := exists_bounded r
  refine ⟨max bound bound', fun fuel enough => ?_⟩
  obtain ⟨⟨tree, success⟩, resolved, _, union, _, refused⟩ := merge_spec unique sound sound'
    (joint_of_within free within within') (short.mono ((le_max_left _ _).trans enough))
    (short'.mono ((le_max_right _ _).trans enough))
  refine ⟨tree, success, resolved, fun merged key => ?_, refused⟩
  rw [Multiset.coe_add]
  exact Quot.sound (union merged key)

/-- Two trees with a key in common, merged without a constraint. -/
theorem merge_union_shared :
    let keys : Set ARTKey := {[97, 0], [98, 0]}
    let first : RowId := ⟨5, by decide⟩
    let second : RowId := ⟨6, by decide⟩
    let l := (insert false empty [97, 0] first).1
    let r := (insert false (insert false empty [97, 0] second).1 [98, 0] first).1
    PrefixFree keys ∧ Reachable false false keys l ∧ Reachable false false keys r ∧
      ∃ fuel tree, merge false fuel l r = some (tree, true) ∧
        (rows tree [97, 0] : Multiset RowId) = {first, second} := by
  intro keys first second l r
  have free : PrefixFree keys := prefixFree_pair
  have left : Reachable false false keys l := .insert first (.inl rfl) .empty
  have right : Reachable false false keys r :=
    .insert first (.inr rfl) (.insert second (.inl rfl) .empty)
  obtain ⟨fuel, enough⟩ := merge_union false free left right
  obtain ⟨tree, success, merged, union, refused⟩ := enough fuel le_rfl
  have accepted : success = true := by
    rw [← Bool.not_eq_false, refused]
    simp
  subst accepted
  refine ⟨free, left, right, fuel, tree, merged, ?_⟩
  rw [union rfl]
  rfl

/-! ## Erasing a pair that is not stored -/

theorem mem_spared_iff (ids : List RowId) : (∀ id, id ∈ Leaf.spared ids ↔ id ∈ ids) ↔
    ids.length ≤ 2 ∨ ∃ last ∈ ids.getLast?, last ∈ ids.dropLast := by
  unfold Leaf.spared
  split
  · next few => simp [few]
  · next more =>
      rcases eq_nil_or_concat ids with rfl | ⟨_, _, rfl⟩
      · simp at more
      · rw [concat_eq_append] at more ⊢
        simp only [dropLast_concat, getLast?_concat, more, false_or, Option.mem_some_iff]
        simp

/-- Erasing a row ID that is not stored under the key keeps the pairs exactly
when the key has at most two row IDs or the last of them occurs once more:
`Leaf::Remove` takes the last one out before it looks for the row ID. -/
theorem erase_absent_iff {keys : Set ARTKey} (free : PrefixFree keys) {tree : Node}
    (reached : Reachable false false keys tree) {key : ARTKey} (mem : key ∈ keys) {rowId : RowId}
    (absent : rowId ∉ rows tree key) :
    (∀ other id, id ∈ rows (erase tree key rowId) other ↔ id ∈ rows tree other) ↔
      (rows tree key).length ≤ 2 ∨
        ∃ last ∈ (rows tree key).getLast?, last ∈ (rows tree key).dropLast := by
  obtain ⟨sound, within⟩ := reached.sound free
  rcases sound with rfl | wf
  · exact ⟨fun _ => .inl (Nat.zero_le 2), fun _ _ _ => Iff.rfl⟩
  · have erased := (erase_spec wf (within.compatible free mem) rowId).erased
    rw [← mem_spared_iff, ← erased.absent absent]
    refine ⟨fun kept => kept key, fun own other id => ?_⟩
    by_cases here : other = key
    · rw [here]
      exact own id
    · rw [erased.others other here]

/-- Two row IDs under a key stay. -/
theorem erase_absent_iff_two :
    let keys : Set ARTKey := {[97, 0], [98, 0]}
    let first : RowId := ⟨5, by decide⟩
    let second : RowId := ⟨6, by decide⟩
    let tree := (insert false (insert false empty [97, 0] first).1 [97, 0] second).1
    Reachable false false keys tree ∧ ∀ other id,
      id ∈ rows (erase tree [97, 0] ⟨8, by decide⟩) other ↔ id ∈ rows tree other := by
  intro keys first second tree
  have reached : Reachable false false keys tree :=
    .insert second (.inl rfl) (.insert first (.inl rfl) .empty)
  refine ⟨reached, ?_⟩
  exact (erase_absent_iff prefixFree_pair reached (.inl rfl) (by decide)).mpr (.inl (by decide))

/-- Of three row IDs under a key the last one is lost. -/
theorem erase_absent_lost :
    let keys : Set ARTKey := {[97, 0], [98, 0]}
    let first : RowId := ⟨5, by decide⟩
    let second : RowId := ⟨6, by decide⟩
    let third : RowId := ⟨7, by decide⟩
    let other : RowId := ⟨8, by decide⟩
    let tree := (insert false (insert false (insert false empty [97, 0] first).1
      [97, 0] second).1 [97, 0] third).1
    PrefixFree keys ∧ Reachable false false keys tree ∧ other ∉ rows tree [97, 0] ∧
      third ∈ rows tree [97, 0] ∧ third ∉ rows (erase tree [97, 0] other) [97, 0] := by
  intro keys first second third other tree
  have reached : Reachable false false keys tree :=
    .insert third (.inl rfl) (.insert second (.inl rfl) (.insert first (.inl rfl) .empty))
  exact ⟨prefixFree_pair, reached, by decide, by decide, by decide⟩

/-! ## The invariants of every node -/

/-- The nodes of a tree. -/
inductive Occurs : Node → Node → Prop
  | self (node : Node) : Occurs node node
  | next {data : Bytes} {next node : Node} (below : Occurs next node) :
      Occurs (prefixNode data next) node
  | child {layout : Layout} {children : Nat → Node} {byte : UInt8} {i : Nat} {node : Node}
      (place : layout.slot children byte = some i) (below : Occurs (children i) node) :
      Occurs (branch layout children) node

/-- The invariants of one inner node. -/
structure BranchInvariant (layout : Layout) (children : Nat → Node) : Prop where
  count_eq : layout.count = allBytes.countP fun byte => (layout.slot children byte).isSome
  count_le : layout.count ≤ layout.capacity
  present : ∀ byte i, layout.slot children byte = some i → (children i).hasMetadata = true
  two : ∀ key, layout = .node4 key → 2 ≤ key.length
  increasing : ∀ key, layout = .node4 key ∨ layout = .node16 key → key.Pairwise (· < ·)
  distinct : ∀ count childIndex, layout = .node48 count childIndex → ∀ byte other,
    childIndex byte ≠ emptyMarker → childIndex byte = childIndex other → byte = other
  occupied : ∀ count childIndex, layout = .node48 count childIndex → ∀ byte,
    childIndex byte ≠ emptyMarker →
      childIndex byte < node48Capacity ∧ (children (childIndex byte)).hasMetadata = true
  cleared : ∀ count childIndex, layout = .node48 count childIndex → ∀ i < node48Capacity,
    (∀ byte, childIndex byte ≠ i) → children i = empty

/-- The invariants of one node. -/
def Invariant : Node → Prop
  | empty => True
  | prefixNode data next =>
    (0 < data.length ∧ data.length ≤ prefixSize) ∧
      (next.isPrefixNode = true → data.length = prefixSize)
  | leafInlined _ => True
  | leaf segments =>
    (∀ segment ∈ segments.dropLast, segment.length = leafSize) ∧
      (∀ segment ∈ segments, 0 < segment.length ∧ segment.length ≤ leafSize) ∧
      2 ≤ segments.flatten.length
  | branch layout children => BranchInvariant layout children

theorem branchInvariant_of_wellFormed {l : Layout} {cs : Nat → Node}
    (wf : WellFormed (branch l cs)) : BranchInvariant l cs := by
  obtain ⟨maps, hn, _⟩ := (wellFormed_branch_iff l cs).mp wf
  have hv : l.Valid cs := maps.valid
  have hc : l.count = allBytes.countP fun b => (l.slot cs b).isSome := by
    rw [maps.count_eq, Layout.size]
    simp only [Layout.getChild, Option.isSome_map]
  refine ⟨hc, ?_, fun b i place => hv.occupied place, ?_, ?_, ?_, ?_, ?_⟩
  · cases l with
    | node4 key | node16 key => exact Layout.SortedKeys.fits hv
    | node48 n childIndex => exact Layout.IndexedSlots.count_le hv
    | node256 n =>
      have hb : n ≤ allBytes.length := hv ▸ countP_le_length
      rwa [length_allBytes] at hb
  · rintro key rfl
    exact hn
  · rintro _ (rfl | rfl)
    · exact Layout.SortedKeys.sorted hv
    · exact Layout.SortedKeys.sorted hv
  · rintro n childIndex rfl
    exact Layout.IndexedSlots.distinct hv
  · rintro n childIndex rfl b used
    exact ⟨Layout.IndexedSlots.bounded hv b used, Layout.IndexedSlots.occupied hv b used⟩
  · rintro _ _ rfl i fit hu
    by_contra taken
    obtain ⟨b, here⟩ := Layout.IndexedSlots.cleared hv i fit ((hasMetadata_iff (cs i)).mpr taken)
    exact hu b here

theorem invariant_of_wellFormed (wf : WellFormed node) : Invariant node := by
  cases node with
  | empty => exact wf.elim
  | prefixNode data next => exact ⟨wf.1, wf.2.1⟩
  | leafInlined rid => trivial
  | leaf segs =>
    obtain ⟨packed, two⟩ := wf
    rcases eq_nil_or_concat segs with rfl | ⟨pre, last, rfl⟩
    · simp at two
    · rw [concat_eq_append] at packed two ⊢
      obtain ⟨full, fits⟩ := (packed_concat_iff leafSize_pos pre last).mp packed
      refine ⟨by simpa using full, fun seg mem => ?_, two⟩
      rcases mem_append.mp mem with old | here
      · rw [full seg old]
        exact ⟨leafSize_pos, le_refl _⟩
      · rw [mem_singleton.mp here]
        exact fits
  | branch l cs => exact branchInvariant_of_wellFormed wf

theorem wellFormed_of_occurs {t : Node} (wf : WellFormed t) (occurs : Occurs t node) :
    WellFormed node := by
  induction occurs with
  | self node => exact wf
  | next lo ih => exact ih wf.2.2
  | child place lo ih => exact ih (wf.2.2 _ _ place)

/-- Every node of every reachable tree has its invariants. -/
theorem reachable_invariant {unique : Bool} {keys : Set ARTKey} (free : PrefixFree keys)
    {tree : Node} (reached : Reachable false unique keys tree) :
    ∀ node, Occurs tree node → Invariant node := by
  intro node occurs
  rcases (reached.sound free).1 with rfl | wf
  · cases occurs
    trivial
  · exact invariant_of_wellFormed (wellFormed_of_occurs wf occurs)

/-- A tree that was constructed and erased from. -/
theorem reachable_invariant_erased :
    let keys : Set ARTKey := {[97, 0], [98, 0]}
    let first : RowId := ⟨5, by decide⟩
    let l := (construct false 3 [([97, 0], first), ([98, 0], first)]).1
    PrefixFree keys ∧ Reachable false false keys (erase l [97, 0] first) ∧
      ∀ node, Occurs (erase l [97, 0] first) node → Invariant node := by
  intro keys first l
  have free : PrefixFree keys := prefixFree_pair
  have built : Reachable false false keys l := by
    refine .construct (cons_ne_nil _ _) ?_ ?_ ?_ (.inl rfl)
    · exact pairwise_pair.mpr (by decide)
    · simp [keys]
    · simp
  have reached : Reachable false false keys (erase l [97, 0] first) := .erase first (.inl rfl) built
  exact ⟨free, reached, reachable_invariant free reached⟩

/-- The tree that a construction leaves behind when a unique index gets a key
twice: an inner node with one child, which is cleared. -/
theorem reachable_invariant_failed :
    let keys : Set ARTKey := {[97, 0], [98, 0]}
    let first : RowId := ⟨5, by decide⟩
    let tree := (construct true 3 [([97, 0], first), ([97, 0], first), ([98, 0], first)]).1
    PrefixFree keys ∧ Reachable true true keys tree ∧
      ∃ node, Occurs tree node ∧ ¬ Invariant node := by
  intro keys first tree
  have free : PrefixFree keys := prefixFree_pair
  have reached : Reachable true true keys tree := by
    refine .construct (cons_ne_nil _ _) ?_ ?_ ?_ (.inr rfl)
    · simp only [pairwise_cons, mem_cons, not_mem_nil, or_false, forall_eq_or_imp,
        forall_eq, List.Pairwise.nil, and_true, IsEmpty.forall_iff, implies_true]
      decide
    · simp [keys]
    · simp
  obtain ⟨children, shape⟩ : ∃ children, tree = branch (.node4 [97]) children := ⟨_, rfl⟩
  refine ⟨free, reached, tree, .self tree, fun invariant => ?_⟩
  rw [shape] at invariant
  exact absurd (invariant.two [97] rfl) (by decide)

end ART

end AccessPath
