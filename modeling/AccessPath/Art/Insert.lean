import AccessPath.Art.Contents

/-!
# Insertion and lookup

Inserting a row ID under a key adds it to the rows of that key and of no other
one, and keeps the tree well formed; a unique index refuses a key that it has.
-/

namespace AccessPath

open Library Node Prefix List Function

variable {k : ARTKey} {next : Node} {res : Node × Bool}

namespace ART

/-! ## New nodes -/

theorem wellFormed_newLeaf (k : ARTKey) (rid : RowId) : WellFormed (newLeaf k rid) := by
  rw [newLeaf, new_eq_prepend rfl]
  exact wellFormed_prepend (show WellFormed (leafInlined rid) from trivial) k

theorem rows_newLeaf (k : ARTKey) (rid : RowId) (o : ARTKey) :
    rows (newLeaf k rid) o = if o = k then [rid] else [] := by
  rw [newLeaf, new_eq_prepend rfl, rows_prepend]
  by_cases pre : k <+: o
  · obtain ⟨_, rfl⟩ := pre
    rw [under_append_key, rows]
    simp
  · have ne : o ≠ k := by
      intro same
      exact pre (same ▸ prefix_refl _)
    rw [under_of_not_isPrefix pre, if_neg ne]

theorem under_rows_newLeaf (b : UInt8) (k : ARTKey) (rid : RowId) (o : ARTKey) :
    under [b] (rows (newLeaf k rid)) o = if o = b :: k then [rid] else [] := by
  by_cases pre : [b] <+: o
  · obtain ⟨_, rfl⟩ := pre
    rw [under_append_key, rows_newLeaf]
    simp
  · have ne : o ≠ b :: k := fun same => pre (same ▸ ⟨k, rfl⟩)
    rw [under_of_not_isPrefix pre, if_neg ne]

/-- Two children. -/
def two (byte : UInt8) (child : Node) (byte' : UInt8) (child' : Node) : UInt8 → Option Node :=
  update (update (fun _ => none) byte (some child)) byte' (some child')

variable {ch ch' : Node} {c c' : UInt8}

theorem newNode4_maps (ne : c ≠ c') (wf : WellFormed ch) (wf' : WellFormed ch') :
    ∃ k cs, newNode4 c ch c' ch' = branch (.node4 k) cs ∧
      (Layout.node4 k).Maps cs (two c ch c' ch') := by
  have start : (Layout.node4 []).Maps (fun _ => empty) (fun _ => none) :=
    ⟨⟨List.Pairwise.nil, by decide, by simp⟩, fun _ => rfl⟩
  have first : Layout.Maps _ _ (update (fun _ => none) c (some ch)) :=
    start.insertChild rfl wf.hasMetadata
  have free : update (fun _ => none) c (some ch) c' = none := by
    rw [update_of_ne ne.symm]
  exact ⟨_, _, rfl, first.insertChild free wf'.hasMetadata⟩

theorem two_wellFormed (wf : WellFormed ch)
    (wf' : WellFormed ch') (o : UInt8) (got : Node)
    (at_ : two c ch c' ch' o = some got) : WellFormed got := by
  unfold two at at_
  by_cases here : o = c'
  · rw [here, update_self] at at_
    cases at_
    exact wf'
  · rw [update_of_ne here] at at_
    by_cases there : o = c
    · rw [there, update_self] at at_
      cases at_
      exact wf
    · rw [update_of_ne there] at at_
      simp at at_

section

variable (ne : c ≠ c') (wf : WellFormed ch) (wf' : WellFormed ch')
include ne wf wf'

theorem wellFormed_newNode4 : WellFormed (newNode4 c ch c' ch') := by
  obtain ⟨_, _, hsp, maps⟩ := newNode4_maps ne wf wf'
  have free : update (fun _ => none) c (some ch) c' = none := by
    rw [update_of_ne ne.symm]
  have pair : Layout.size (two c ch c' ch') = 2 := by
    rw [two, Layout.size_insert free, Layout.size_insert rfl, Layout.size_none]
  rw [hsp]
  refine WellFormed.of_maps maps ?_ (two_wellFormed wf wf')
  rw [maps.count_eq, pair]
  exact le_refl 2

theorem rows_newNode4 (k : ARTKey) : rows (newNode4 c ch c' ch') k =
      under [c] (rows ch) k ++ under [c'] (rows ch') k := by
  obtain ⟨_, _, hsp, maps⟩ := newNode4_maps ne wf wf'
  rw [hsp, rows_of_maps maps]
  cases k with
  | nil => simp [rowsOf, under]
  | cons o xs =>
    rw [rowsOf, two]
    by_cases here : o = c'
    · subst here
      simp [under, ne]
    · by_cases there : o = c
      · subst there
        simp [under, here, Ne.symm here]
      · simp [under, here, there, Ne.symm here, Ne.symm there]

theorem isPrefixNode_newNode4 : (newNode4 c ch c' ch').isPrefixNode = false := by
  obtain ⟨_, _, hsp, _⟩ := newNode4_maps ne wf wf'
  rw [hsp]
  rfl

end

/-! ## Insertion -/

/-- What an insertion does to the rows of a tree. -/
inductive Inserted (unique : Bool) (node : Node) (key : ARTKey) (rowId : RowId) : Node × Bool → Prop
  | refused (constrained : unique = true) (present : rows node key ≠ []) :
      Inserted unique node key rowId (node, false)
  | added {result : Node} (fresh : unique = true → rows node key = [])
      (wf : WellFormed result) (chained : result.isPrefixNode = true → node.isPrefixNode = true)
      (rows_eq : ∀ other, rows result other =
        if other = key then rows node other ++ [rowId] else rows node other) :
      Inserted unique node key rowId (result, true)

theorem leafSize_pos : 0 < leafSize := by decide

variable {n : Node}

theorem insertLeaf_spec (wf : WellFormed n) (leaf : n.isLeaf = true) (rid : RowId) :
    WellFormed (Leaf.insert n rid) ∧ (Leaf.insert n rid).isLeaf = true ∧
      Leaf.rowIds (Leaf.insert n rid) = Leaf.rowIds n ++ [rid] := by
  cases n with
  | leafInlined inlined =>
    refine ⟨⟨?_, le_refl 2⟩, rfl, rfl⟩
    have single : Packed leafSize [[inlined]] := ⟨Nat.one_pos, leafSize_pos⟩
    exact single.push leafSize_pos rid
  | leaf segs =>
    refine ⟨⟨wf.1.push leafSize_pos rid, ?_⟩, rfl, flatten_push segs rid⟩
    have two := wf.2
    rw [flatten_push, length_append]
    omega
  | _ => simp [isLeaf] at leaf

variable {uniq : Bool}

theorem insertToLeaf_spec (wf : WellFormed n) (lf : n.isLeaf = true) (rid : RowId) :
    Inserted uniq n [] rid (insertToLeaf uniq n rid) := by
  unfold insertToLeaf
  split
  · next huq => exact .refused huq (rows_leaf_ne_nil wf lf)
  · next free =>
      obtain ⟨wf', lf', ids⟩ := insertLeaf_spec wf lf rid
      refine .added (fun huq => absurd huq free) wf' (fun hch => ?_) fun o => ?_
      · rw [isPrefixNode_of_isLeaf lf'] at hch
        exact Bool.noConfusion hch
      · rw [rows_of_isLeaf lf', rows_of_isLeaf lf, ids]
        split <;> rfl

theorem Inserted.prefixNode {data : Bytes} {xs : ARTKey} {rid : RowId}
    (wf : WellFormed (prefixNode data next)) (lo : Inserted uniq next xs rid res) :
    Inserted uniq (prefixNode data next) (data ++ xs) rid (prefixNode data res.1, res.2) := by
  cases lo with
  | refused huq present =>
    refine .refused huq ?_
    rwa [rows, under_append_key]
  | added new wf' hch rows_eq =>
    refine .added ?_ ⟨wf.1, fun more => wf.2.1 (hch more), wf'⟩ (fun _ => rfl) fun other => ?_
    · rwa [rows, under_append_key]
    · rw [rows, rows]
      by_cases pre : data <+: other
      · obtain ⟨other, rfl⟩ := pre
        rw [under_append_key, under_append_key, rows_eq]
        simp
      · have ne : other ≠ data ++ xs := fun same => pre (same ▸ prefix_append _ _)
        rw [under_of_not_isPrefix pre, under_of_not_isPrefix pre, if_neg ne]

section

variable {l : Layout} {cs : Nat → Node} {b : UInt8} {xs : ARTKey} {rid : RowId}

theorem Inserted.branch {i : Nat} (wf : WellFormed (branch l cs)) (got : l.slot cs b = some i)
    (lo : Inserted uniq (cs i) xs rid res) : Inserted uniq (branch l cs) (b :: xs) rid
      (branch l (update cs i res.1), res.2) := by
  cases lo with
  | refused huq present =>
    rw [update_eq_self]
    refine .refused huq ?_
    simpa only [rows, got] using present
  | added new wf' hch rows_eq =>
    have hup := maps_replaced wf got wf'
    refine .added ?_ (wf.replaced got wf') id fun o => ?_
    · intro huq
      simpa only [rows, got] using new huq
    · cases o with
      | nil => rfl
      | cons o more =>
        rw [rows_of_update hup]
        by_cases here : o = b
        · subst here
          rw [if_pos rfl, rows_eq]
          simp [rows, got]
        · simp [here]

theorem insertChild_spec (wf : WellFormed (branch l cs)) (free : l.slot cs b = none) :
    Inserted uniq (branch l cs) (b :: xs) rid
      (branch (l.insertChild cs b (newLeaf xs rid)).1
        (l.insertChild cs b (newLeaf xs rid)).2, true) := by
  have leaf := wellFormed_newLeaf xs rid
  have hup := maps_inserted wf free leaf
  refine .added ?_ (wf.inserted free leaf) id fun o => ?_
  · intro _
    rw [rows, free]
  · cases o with
    | nil => rfl
    | cons o more =>
      rw [rows_of_update hup]
      by_cases here : o = b
      · subst here
        rw [if_pos rfl, rows_newLeaf]
        simp [rows, free]
      · simp [here]

end

theorem split_spec {com : Bytes} {a b : UInt8} {restD restK : Bytes}
    (wf : WellFormed (prefixNode (com ++ a :: restD) next)) (ne : a ≠ b) (rid : RowId) :
    Inserted uniq (prefixNode (com ++ a :: restD) next) (com ++ b :: restK) rid
      (prepend com (newNode4 a (prepend restD next) b (newLeaf restK rid)), true) := by
  have ch := wellFormed_prepend wf.2.2 restD
  have leaf := wellFormed_newLeaf restK rid
  have split : com ++ a :: restD = com ++ ([a] ++ restD) := rfl
  have hm : rows (prefixNode (com ++ a :: restD) next) (com ++ b :: restK) = [] := by
    rw [rows]
    apply under_of_not_isPrefix
    rw [prefix_append_right_inj, cons_prefix_cons]
    exact fun front => ne front.1
  refine .added (fun _ => hm)
    (wellFormed_prepend (wellFormed_newNode4 ne ch leaf) com) (fun _ => rfl)
    fun other => ?_
  rw [rows_prepend, rows, split]
  by_cases pre : com <+: other
  · obtain ⟨other, rfl⟩ := pre
    rw [under_append_key, rows_newNode4 ne ch leaf, rows_prepend, under_under,
      ← under_under com, under_append_key, under_rows_newLeaf]
    simp only [append_cancel_left_eq]
    split
    · rfl
    · exact append_nil _
  · have other_ne : other ≠ com ++ b :: restK := fun same => pre (same ▸ prefix_append _ _)
    rw [under_of_not_isPrefix pre, if_neg other_ne, ← under_under, under_of_not_isPrefix pre]

theorem insert_spec (uniq : Bool) (wf : WellFormed n) (comp : Compatible n k)
    (rid : RowId) : Inserted uniq n k rid (insert uniq n k rid) := by
  induction n generalizing k with
  | empty => exact wf.elim
  | leafInlined _ | leaf _ =>
    rw [comp.eq_nil wf rfl]
    exact insertToLeaf_spec wf rfl rid
  | branch l cs ih =>
    obtain ⟨c, xs, rfl⟩ := comp.exists_cons wf
    simp only [insert, headD_cons, tail_cons]
    cases hi : l.slot cs c with
    | some i => exact (ih i (wf.2.2 c i hi) (comp.child hi)).branch wf hi
    | none => exact insertChild_spec wf hi
  | prefixNode data next ih =>
    rcases mismatchPosition_cases data k (comp.inside wf) with
      ⟨matched, _, rfl⟩ | ⟨com, a, _, restD, restK, rfl, rfl, ne, pos⟩
    · simp only [insert, matched, drop_left]
      exact (ih wf.2.2 comp.next).prefixNode wf
    · simp only [insert, pos, drop_left, headD_cons, tail_cons]
      have lt : com.length < (com ++ a :: restD).length := by simp
      have ch := wellFormed_prepend wf.2.2 restD
      have leaf := wellFormed_newLeaf restK rid
      have c : (com ++ a :: restD).getD com.length 0 = a := by simp
      have behind : (com ++ a :: restD).drop (com.length + 1) = restD := by simp
      rw [splitChild_eq_prepend wf lt, c, behind,
        splitNode_eq_prepend wf.1.2 lt (wellFormed_newNode4 ne ch leaf)
          (isPrefixNode_newNode4 ne ch leaf), take_left]
      exact split_spec wf ne rid

/-! ## Lookup -/

/-- Lookup returns the leaf with the rows of a key, if there are any. -/
theorem lookup_eq (wf : WellFormed n) (comp : Compatible n k) :
    (lookup n k = none ∧ rows n k = []) ∨
      ∃ leaf, lookup n k = some leaf ∧ Leaf.rowIds leaf = rows n k ∧ rows n k ≠ [] := by
  induction n generalizing k with
  | empty => exact wf.elim
  | leafInlined _ | leaf _ =>
    rw [comp.eq_nil wf rfl]
    exact .inr ⟨_, rfl, rfl, rowIds_ne_nil wf rfl⟩
  | branch l cs ih =>
    obtain ⟨c, xs, rfl⟩ := comp.exists_cons wf
    simp only [lookup, headD_cons, tail_cons, rows]
    cases hi : l.slot cs c with
    | none => exact .inl ⟨rfl, rfl⟩
    | some i => exact ih i (wf.2.2 c i hi) (comp.child hi)
  | prefixNode data next ih =>
    rcases mismatchPosition_cases data k (comp.inside wf) with
      ⟨matched, _, rfl⟩ | ⟨_, _, _, _, _, rfl, rfl, ne, pos⟩
    · simp only [lookup, matched, drop_left, rows, under_append_key]
      exact ih wf.2.2 comp.next
    · simp only [lookup, pos, rows]
      refine .inl ⟨trivial, under_of_not_isPrefix ?_⟩
      rw [prefix_append_right_inj, cons_prefix_cons]
      exact fun pre => ne pre.1

end ART

end AccessPath
