import AccessPath.Art.Insert

/-!
# Deletion

Erasing a stored row ID removes it from the rows of its key and leaves the
other keys alone, while nodes shrink through the layouts and one-way nodes are
merged into the prefix nodes around them.
-/

namespace AccessPath

open Library Node Prefix Function
open List hiding chain_cons

variable {k : ARTKey} {d : Bytes} {i : Nat} {next res : Node}

/-! ## Row IDs of a leaf -/

variable {node : Node}

namespace Leaf

open ART

/-- The first occurrence of a row ID is replaced. -/
def replaceFirst (rowId last : RowId) (ids : List RowId) : List RowId :=
  match ids.idxOf? rowId with
  | some i => ids.set i last
  | none => ids

theorem replaceFirst_cons (rid last fst : RowId) (ids : List RowId) :
    replaceFirst rid last (fst :: ids) =
      if fst = rid then last :: ids else fst :: replaceFirst rid last ids := by
  unfold replaceFirst
  rw [idxOf?_cons]
  by_cases here : fst = rid
  · simp [here]
  · have ne : (fst == rid) = false := by simpa using here
    simp only [ne, Bool.false_eq_true, if_false, if_neg here]
    cases List.idxOf? rid ids <;> rfl

variable (rid last : RowId)

theorem length_replaceFirst (ids : List RowId) :
    (replaceFirst rid last ids).length = ids.length := by
  unfold replaceFirst
  cases List.idxOf? rid ids <;> simp

theorem replaceFirst_append (ids more : List RowId) :
    replaceFirst rid last (ids ++ more) = if rid ∈ ids then replaceFirst rid last ids ++ more
      else ids ++ replaceFirst rid last more := by
  induction ids with
  | nil => simp
  | cons fst ids ih =>
    rw [cons_append, replaceFirst_cons, ih, replaceFirst_cons]
    by_cases here : fst = rid
    · simp [here]
    · by_cases hl : rid ∈ ids <;> simp [here, hl, Ne.symm here]

/-- Overwriting the removed row ID with the last one keeps the others. -/
theorem replaceFirst_perm {rid last : RowId} {ids : List RowId} (mem : rid ∈ ids ++ [last]) :
    (replaceFirst rid last ids).Perm ((ids ++ [last]).erase rid) := by
  induction ids with
  | nil =>
    have eq : rid = last := by simpa using mem
    simp [eq, replaceFirst]
  | cons fst ids ih =>
    rw [replaceFirst_cons, cons_append, erase_cons]
    by_cases here : fst = rid
    · rw [if_pos here, if_pos (by simpa using here)]
      exact (perm_append_singleton last ids).symm
    · rw [if_neg here, if_neg (by simpa using here)]
      refine List.Perm.cons fst (ih ?_)
      rcases mem_cons.mp mem with eq | hl
      · exact absurd eq.symm here
      · exact hl

variable (segments : List (List RowId))

theorem flatten_overwrite :
    (overwrite rid last segments).flatten = replaceFirst rid last segments.flatten := by
  induction segments with
  | nil => rfl
  | cons seg xs ih =>
    rw [overwrite, flatten_cons, replaceFirst_append]
    cases got : List.idxOf? rid seg with
    | none =>
      have hno : rid ∉ seg := idxOf?_eq_none_iff.mp got
      rw [if_neg hno, flatten_cons, ih]
    | some i =>
      have mem : rid ∈ seg := by
        by_contra hno
        simp [idxOf?_eq_none_iff.mpr hno] at got
      simp [if_pos mem, replaceFirst, got]

theorem lengths_overwrite :
    (overwrite rid last segments).map List.length = segments.map List.length := by
  induction segments with
  | nil => rfl
  | cons seg xs ih =>
    rw [overwrite]
    cases List.idxOf? rid seg with
    | none => rw [map_cons, ih, map_cons]
    | some i => simp

theorem dropLast_concat (tail : List RowId) : dropLast (segments ++ [tail]) =
      if tail.length = 1 then segments else segments ++ [tail.dropLast] := by
  simp [dropLast]

theorem dropLast_spec {segs : List (List RowId)} (pack : Packed leafSize segs)
    (ne : segs ≠ []) : Packed leafSize (dropLast segs) ∧
      ∃ last, segs.flatten = (dropLast segs).flatten ++ [last] := by
  rcases eq_nil_or_concat segs with rfl | ⟨pre, tail, rfl⟩
  · exact absurd rfl ne
  · rw [concat_eq_append] at pack ⊢
    obtain ⟨full, some, fits⟩ := (packed_concat_iff leafSize_pos pre tail).mp pack
    rcases eq_nil_or_concat tail with rfl | ⟨ids, last, rfl⟩
    · simp at some
    · rw [concat_eq_append] at fits ⊢
      rw [length_append, length_singleton] at fits
      rw [dropLast_concat]
      by_cases single : ids = []
      · subst single
        exact ⟨packed_of_full leafSize_pos full, last, by simp⟩
      · have more : 0 < ids.length := length_pos_iff.mpr single
        rw [if_neg (by rw [length_append, length_singleton]; omega), List.dropLast_concat]
        refine ⟨(packed_concat_iff leafSize_pos pre ids).mpr ⟨full, more, by omega⟩, last, ?_⟩
        simp

/-- What a removal leaves of row IDs that the removed one is not among. -/
def spared (ids : List RowId) : List RowId := if ids.length ≤ 2 then ids else ids.dropLast

/-- What is left of a leaf. -/
structure Removed (node : Node) (rowId : RowId) (result : Node) : Prop where
  shape : result = empty ∨ WellFormed result ∧ result.isLeaf = true
  perm : rowId ∈ rowIds node → (rowIds result).Perm ((rowIds node).erase rowId)
  absent : rowId ∉ rowIds node → rowIds result = spared (rowIds node)

theorem remove_inlined (inlined rid : RowId) :
    Removed (leafInlined inlined) rid (remove (leafInlined inlined) rid) := by
  rw [remove]
  split
  · next eq => exact ⟨.inl rfl, fun _ => by simp [rowIds, eq], by simp [rowIds, eq]⟩
  · next o =>
      refine ⟨.inr ⟨trivial, rfl⟩, fun hp => ?_, fun _ => rfl⟩
      exact absurd (by simpa [rowIds] using hp) (Ne.symm o)

theorem remove_two (fst snd rid : RowId) (wf : WellFormed (leaf [[fst, snd]])) :
    Removed (leaf [[fst, snd]]) rid (remove (leaf [[fst, snd]]) rid) := by
  rw [remove]
  by_cases here : fst = rid
  · rw [if_pos here]
    exact ⟨.inr ⟨trivial, rfl⟩, fun _ => by simp [rowIds, here], by simp [rowIds, here]⟩
  · by_cases there : snd = rid
    · rw [if_neg here, if_pos there]
      exact ⟨.inr ⟨trivial, rfl⟩, fun _ => by simp [rowIds, here, there], by simp [rowIds, there]⟩
    · rw [if_neg here, if_neg there]
      refine ⟨.inr ⟨wf, rfl⟩, fun hp => ?_, fun _ => rfl⟩
      have hno : rid ∉ [fst, snd] := by simp [Ne.symm here, Ne.symm there]
      exact absurd (by simpa [rowIds] using hp) hno

/-- Of more row IDs the last one takes the place of the removed one. -/
theorem remove_more {segs : List (List RowId)} (rid : RowId)
    (pack : Packed leafSize segs) (three : 3 ≤ segs.flatten.length) :
    Removed (leaf segs) rid
      (match segs.flatten.getLast? with
      | none => leaf segs
      | some last => leaf (overwrite rid last (dropLast segs))) := by
  have ne : segs ≠ [] := by
    intro none
    simp [none] at three
  obtain ⟨hp', last, split⟩ := dropLast_spec pack ne
  rw [split, getLast?_concat]
  refine ⟨.inr ⟨⟨hp'.of_lengths (lengths_overwrite _ _ _), ?_⟩, rfl⟩, fun hpr => ?_, fun hno => ?_⟩
  · rw [flatten_overwrite, length_replaceFirst]
    rw [split, length_append, length_singleton] at three
    omega
  · rw [rowIds, split] at hpr
    rw [rowIds, rowIds, flatten_overwrite, split]
    exact replaceFirst_perm hpr
  · rw [rowIds, split] at hno
    have kept : rid ∉ (dropLast segs).flatten := fun mem => hno (mem_append_left _ mem)
    rw [rowIds, rowIds, flatten_overwrite, spared, if_neg (by omega), split, List.dropLast_concat,
      replaceFirst, idxOf?_eq_none_iff.mpr kept]

theorem remove_spec (wf : WellFormed node) (leaf : node.isLeaf = true)
    (rid : RowId) : Removed node rid (remove node rid) := by
  cases node with
  | leafInlined inlined => exact remove_inlined inlined rid
  | leaf segments =>
    obtain ⟨hp, two⟩ := wf
    -- a first segment of two row IDs is the whole chain
    by_cases pair : ∃ first second xs, segments = [first, second] :: xs
    · obtain ⟨first, second, xs, rfl⟩ := pair
      have alone : xs = [] := by
        by_contra more
        have full := ((packed_cons_iff leafSize_pos _ _).mp hp).2.1 more
        simp [leafSize] at full
      subst alone
      exact remove_two first second rid ⟨hp, two⟩
    · have three : 3 ≤ segments.flatten.length := by
        cases segments with
        | nil => simp at two
        | cons seg xs =>
          by_contra few
          have exact_ : (seg :: xs).flatten.length = 2 := by omega
          obtain ⟨bounds, full, _⟩ := (packed_cons_iff leafSize_pos _ _).mp hp
          have alone : xs = [] := by
            by_contra more
            have length := full more
            rw [flatten_cons, length_append, length] at exact_
            simp only [leafSize] at exact_
            omega
          subst alone
          rw [flatten_singleton] at exact_
          obtain ⟨first, second, rfl⟩ := length_eq_two.mp exact_
          exact pair ⟨first, second, [], rfl⟩
      have more := remove_more rid hp three
      simp only [remove]
      split
      · next first second xs => exact absurd ⟨first, second, xs, rfl⟩ pair
      · exact more
  | _ => simp [isLeaf] at leaf

theorem remove_plain (leaf : node.isLeaf = true) (rid : RowId) :
    (remove node rid).isPrefixNode = false := by
  cases node with
  | leafInlined inlined =>
    rw [remove]
    split <;> rfl
  | leaf segments =>
    simp only [remove]
    split
    · split
      · rfl
      · split <;> rfl
    · split <;> rfl
  | _ => simp [isLeaf] at leaf

end Leaf

/-! ## Prefix nodes above -/

namespace ART

/-- Bytes in front of what is left of a tree. -/
def attach (front : Bytes) : Node → Node
  | empty => empty
  | node => prepend front node

theorem attach_of_ne_empty (ne : node ≠ empty) (pre : Bytes) :
    attach pre node = prepend pre node := by
  cases node <;> first | rfl | exact absurd rfl ne

theorem attach_attach {pre next : Bytes} (ne : node = empty ∨ WellFormed node) :
    attach pre (attach next node) = attach (pre ++ next) node := by
  rcases ne with rfl | wf
  · rfl
  · rw [attach_of_ne_empty wf.ne_empty, attach_of_ne_empty wf.ne_empty,
      attach_of_ne_empty (prepend_ne_empty wf next), prepend_prepend]

variable {above : List Bytes}

theorem chain_of_plain (pack : Packed prefixSize above)
    (plain : node.isPrefixNode = false) (ne : node ≠ empty) :
    chain above node = attach above.flatten node := by
  rw [attach_of_ne_empty ne, prepend, bytes, (segments_eq_nil_iff node).mpr plain,
    base_of_not_prefixNode plain, flatten_nil, append_nil,
    ← pack.eq_chunks prefixSize_pos]

theorem packed_above (wf : WellFormed (chain above node)) : Packed prefixSize above := by
  have hp := ((wellFormed_iff _).mp wf).1
  have split : segments (chain above node) = above ++ segments node := by
    clear wf hp
    induction above with
    | nil => rfl
    | cons d above ih => rw [chain_cons, segments, ih, cons_append]
  rw [split] at hp
  exact hp.append_left prefixSize_pos

/-! ## Deleting a child -/

/-- A `Node4` is merged away when one child is left; any other node stays. -/
theorem deleteChild_cases (l : Layout) (cs : Nat → Node) (b : UInt8) :
    (∃ k only, l = .node4 k ∧ (l.deleteChild cs b).1 = .node4 [only] ∧
        ∀ above, deleteChild above l cs b = concatenate above only ((l.deleteChild cs b).2 0)) ∨
      ((∀ k only, l = .node4 k → (l.deleteChild cs b).1 ≠ .node4 [only]) ∧
        ∀ above, deleteChild above l cs b = chain above (branch (l.deleteChild cs b).1
            (l.deleteChild cs b).2)) := by
  simp only [deleteChild]
  cases l with
  | node4 k =>
    generalize Layout.deleteChild cs (.node4 k) b = res
    obtain ⟨l', cs'⟩ := res
    match l' with
    | .node4 [only] => exact .inl ⟨k, only, rfl, rfl, fun _ => rfl⟩
    | .node4 [] => exact .inr ⟨by simp, fun _ => rfl⟩
    | .node4 (_ :: _ :: _) => exact .inr ⟨by simp, fun _ => rfl⟩
    | .node16 _ => exact .inr ⟨by simp, fun _ => rfl⟩
    | .node48 _ _ => exact .inr ⟨by simp, fun _ => rfl⟩
    | .node256 _ => exact .inr ⟨by simp, fun _ => rfl⟩
  | node16 _ | node48 _ _ | node256 _ => exact .inr ⟨by simp, fun _ => rfl⟩

variable {cs : Nat → Node} {l : Layout} {b c : UInt8}

theorem deleteChild_spec (wf : WellFormed (branch l cs)) (took : (l.getChild cs c).isSome) :
    WellFormed (deleteChild [] l cs c) ∧ ∀ k, rows (deleteChild [] l cs c) k =
        rowsOf (update (l.getChild cs) c none) k := by
  obtain ⟨maps, le, each⟩ := (wellFormed_branch_iff l cs).mp wf
  have deleted := maps.deleteChild took
  have each' : ∀ o ch, update (l.getChild cs) c none o = some ch → WellFormed ch := by
    intro o ch got
    by_cases here : o = c
    · simp [here] at got
    · rw [update_of_ne here] at got
      exact each o ch got
  have kept (le : (l.deleteChild cs c).1.minimum ≤ (l.deleteChild cs c).1.count) :
      WellFormed (branch (l.deleteChild cs c).1 (l.deleteChild cs c).2) ∧
        ∀ k, rows (branch (l.deleteChild cs c).1 (l.deleteChild cs c).2) k =
            rowsOf (update (l.getChild cs) c none) k :=
    ⟨WellFormed.of_maps deleted le each', rows_of_maps deleted⟩
  rcases deleteChild_cases l cs c with
    ⟨k, only, _, shape, res⟩ | ⟨shape, res⟩ <;> rw [res]
  -- one child is left: its byte joins the prefix nodes
  · have ch : update (l.getChild cs) c none only = some ((l.deleteChild cs c).2 0) := by
        rw [← deleted.child only, shape]
        simp [Layout.getChild, Layout.slot, position]
    · have single : ∀ o, o ≠ only → update (l.getChild cs) c none o = none := by
        intro o ne
        rw [← deleted.child o, shape]
        simp [Layout.getChild, Layout.slot, position, Ne.symm ne]
      rw [concatenate_eq_prepend (show Packed prefixSize [] from trivial)]
      refine ⟨wellFormed_prepend (each' only _ ch) _, fun k => ?_⟩
      rw [rows_prepend, flatten_nil, nil_append]
      cases k with
      | nil => simp [rowsOf, under]
      | cons o xs =>
        rw [rowsOf]
        by_cases here : o = only
        · rw [here, ch, show only :: xs = [only] ++ xs from rfl, under_append_key]
          rfl
        · rw [single o here, under_of_not_isPrefix]
          · rfl
          · rw [cons_prefix_cons]
            exact fun pre => here pre.1.symm
  · refine kept (maps.minimum_le_deleteChild le took ?_)
    · rintro ⟨k, rfl⟩
      by_contra few
      have two : 2 ≤ (Layout.node4 k).count := le
      have aft : ((Layout.node4 k).deleteChild cs c).1.count + 1 = (Layout.node4 k).count := by
        rw [deleted.count_eq, maps.count_eq, Layout.size_erase took]
      obtain ⟨pos, got⟩ : ∃ pos, position k c = some pos := Layout.exists_slot took
      have res : ((Layout.node4 k).deleteChild cs c).1 = .node4 (k.eraseIdx pos) := by
        simp [Layout.deleteChild, got]
      rw [res] at aft
      have one : (k.eraseIdx pos).length = 1 := by
        simp only [Layout.count] at aft two few
        omega
      obtain ⟨only, xs⟩ := length_eq_one_iff.mp one
      rw [xs] at res
      exact shape k only rfl res

/-- The prefix nodes above take part in the merge of a one-way node. -/
theorem deleteChild_above (hp : Packed prefixSize above)
    (wf : WellFormed (branch l cs)) (took : (l.getChild cs c).isSome) :
    deleteChild above l cs c = attach above.flatten (deleteChild [] l cs c) := by
  have hpr := (deleteChild_spec wf took).1.ne_empty
  rw [attach_of_ne_empty hpr]
  rcases deleteChild_cases l cs c with
    ⟨k, only, _, shape, res⟩ | ⟨shape, res⟩ <;> rw [res, res]
  · rw [concatenate_eq_prepend hp, concatenate_eq_prepend (show Packed prefixSize [] from trivial),
      prepend_prepend, flatten_nil, nil_append]
  · rw [chain_of_plain hp rfl (by simp), attach_of_ne_empty (by simp), chain_nil]

/-! ## Erase -/

/-- What an erasure does to the rows of a tree. -/
structure Erased (node : Node) (key : ARTKey) (rowId : RowId) (result : Node) : Prop where
  shape : result = empty ∨ WellFormed result
  others : ∀ other, other ≠ key → rows result other = rows node other
  own : rowId ∈ rows node key → (rows result key).Perm ((rows node key).erase rowId)
  absent : rowId ∉ rows node key → rows result key = Leaf.spared (rows node key)

variable {rid : RowId}

theorem Erased.unchanged (wf : WellFormed node) (nil : rows node k = []) :
    Erased node k rid node :=
  ⟨.inr wf, fun _ _ => rfl, fun hp => by simp [nil] at hp, fun _ => by rw [nil]; rfl⟩

variable {xs : ARTKey}

theorem Erased.attach (lo : Erased next xs rid res) :
    Erased (prefixNode d next) (d ++ xs) rid (attach d res) := by
  have read : rows (ART.attach d res) = under d (rows res) := by
    rcases lo.shape with rfl | wf
    · funext k
      by_cases pre : d <+: k
      · obtain ⟨k, rfl⟩ := pre
        rw [under_append_key]
        rfl
      · rw [under_of_not_isPrefix pre]
        rfl
    · rw [attach_of_ne_empty wf.ne_empty, rows_prepend]
  refine ⟨?_, fun o ne => ?_, fun hp => ?_, fun hno => ?_⟩
  · rcases lo.shape with rfl | wf
    · exact .inl rfl
    · rw [attach_of_ne_empty wf.ne_empty]
      exact .inr (wellFormed_prepend wf d)
  · rw [read, rows]
    by_cases pre : d <+: o
    · obtain ⟨o, rfl⟩ := pre
      rw [under_append_key, under_append_key, lo.others]
      exact fun eq => ne (congrArg (d ++ ·) eq)
    · rw [under_of_not_isPrefix pre, under_of_not_isPrefix pre]
  · rw [rows, under_append_key] at hp
    rw [read, rows, under_append_key, under_append_key]
    exact lo.own hp
  · rw [rows, under_append_key] at hno
    rw [read, rows, under_append_key, under_append_key]
    exact lo.absent hno

/-- The inner node with what is left of a child. -/
def eraseChild (layout : Layout) (children : Nat → Node) (byte : UInt8) (i : Nat) : Node → Node
  | empty => deleteChild [] layout children byte
  | child => branch layout (update children i child)

theorem eraseChild_of_ne_empty {ch : Node} (ne : ch ≠ empty) :
    eraseChild l cs c i ch = branch l (update cs i ch) := by
  cases ch <;> first | rfl | exact absurd rfl ne

theorem Erased.branch (wf : WellFormed (branch l cs))
    (spot : l.slot cs b = some i) (lo : Erased (cs i) xs rid res) :
    Erased (branch l cs) (b :: xs) rid (eraseChild l cs b i res) ∧
      eraseChild l cs b i res ≠ empty := by
  obtain ⟨maps, hn, each⟩ := (wellFormed_branch_iff l cs).mp wf
  have got : l.getChild cs b = some (cs i) := by
    rw [Layout.getChild, spot, Option.map_some]
  have ht : (l.getChild cs b).isSome := by rw [got]; rfl
  have read (xs : ARTKey) : rows (Node.branch l cs) (b :: xs) = rows (cs i) xs := by
    rw [rows, spot]
  have hne (m : UInt8 → Option Node) {x : Option Node} {o : UInt8} {more : ARTKey} (ne : o ≠ b) :
      rowsOf (update m b x) (o :: more) = rowsOf m (o :: more) := by
    rw [rowsOf, rowsOf, update_of_ne ne]
  rcases lo.shape with rfl | wf'
  · obtain ⟨full, rows_eq⟩ := deleteChild_spec wf ht
    have own (more : ARTKey) : rowsOf (update (l.getChild cs) b none) (b :: more) = [] := by
      rw [rowsOf, update_self]
      rfl
    refine ⟨⟨.inr full, fun o ne => ?_, fun hp => ?_, fun hno => ?_⟩, full.ne_empty⟩
    · rw [eraseChild, rows_eq]
      cases o with
      | nil => rfl
      | cons o more =>
        by_cases here : o = b
        · subst here
          rw [own, read, ← lo.others more (fun eq => ne (by rw [eq]))]
          rfl
        · rw [hne _ here, rows_branch]
    · rw [read] at hp
      rw [eraseChild, rows_eq, own, read]
      exact lo.own hp
    · rw [read] at hno
      rw [eraseChild, rows_eq, own, read]
      exact lo.absent hno
  · have hrp := maps.replaceChild ht wf'.hasMetadata
    rw [Layout.replaceChild, spot] at hrp
    have own (more : ARTKey) : rowsOf (update (l.getChild cs) b (some res))
        (b :: more) = rows res more := by
      rw [rowsOf, update_self]
      rfl
    rw [eraseChild_of_ne_empty wf'.ne_empty]
    refine ⟨⟨.inr (WellFormed.of_maps hrp hn fun o c at_ => ?_),
      fun o ne => ?_, fun hp => ?_, fun hno => ?_⟩, by simp⟩
    · by_cases here : o = b
      · rw [here, update_self] at at_
        cases at_
        exact wf'
      · rw [update_of_ne here] at at_
        exact each o c at_
    · rw [rows_of_maps hrp]
      cases o with
      | nil => rfl
      | cons o more =>
        by_cases here : o = b
        · subst here
          rw [own, read, lo.others more (fun eq => ne (by rw [eq]))]
        · rw [hne _ here, rows_branch]
    · rw [read] at hp
      rw [rows_of_maps hrp, own, read]
      exact lo.own hp
    · rw [read] at hno
      rw [rows_of_maps hrp, own, read]
      exact lo.absent hno

theorem Erased.of_removed (leaf : node.isLeaf = true) (removed : Leaf.Removed node rid res) :
    Erased node [] rid res := by
  have read : ∀ k, rows res k = if k = [] then Leaf.rowIds res else [] := by
    intro k
    rcases removed.shape with rfl | ⟨_, leaf'⟩
    · simp [rows, Leaf.rowIds]
    · exact rows_of_isLeaf leaf' k
  refine ⟨removed.shape.imp_right And.left, fun o ne => ?_, fun hp => ?_, fun hno => ?_⟩
  · rw [read, rows_of_isLeaf leaf, if_neg ne, if_neg ne]
  · rw [rows_of_isLeaf leaf, if_pos rfl] at hp
    rw [read, rows_of_isLeaf leaf, if_pos rfl, if_pos rfl]
    exact removed.perm hp
  · rw [rows_of_isLeaf leaf, if_pos rfl] at hno
    rw [read, rows_of_isLeaf leaf, if_pos rfl, if_pos rfl]
    exact removed.absent hno

/-- All that the recursion of `ART::Erase` relies on at a subtree: its result,
the part that the prefix nodes above it take, and what the traversal of its own
prefix nodes leads to. -/
structure EraseSpec (node : Node) (key : ARTKey) (rowId : RowId) : Prop where
  erased : Erased node key rowId (erase node key rowId)
  below : ∀ above, WellFormed (chain above node) →
    eraseBelow above node key rowId = attach above.flatten (erase node key rowId)
  missed : (traverse node key).1.isPrefixNode = true → erase node key rowId = node
  atLeaf : (traverse node key).1.isLeaf = true → erase node key rowId =
      if (Leaf.remove (traverse node key).1 rowId).hasMetadata
      then replaceBase node (Leaf.remove (traverse node key).1 rowId) else empty
  atInner : (traverse node key).1.isPrefixNode = false → (traverse node key).1.isLeaf = false →
    erase node key rowId ≠ empty

theorem eraseSpec_leaf (wf : WellFormed node) (leaf : node.isLeaf = true)
    (rid : RowId) : EraseSpec node [] rid := by
  have removed := Leaf.remove_spec wf leaf rid
  have alone : traverse node [] = (node, []) := by
    cases node <;> first | rfl | simp [isLeaf] at leaf
  have general (above : List Bytes) : eraseBelow above node [] rid =
      if (Leaf.remove node rid).hasMetadata
      then chain above (Leaf.remove node rid) else empty := by
    cases node <;> first | rfl | simp [isLeaf] at leaf
  have hp : ∀ res : Node, res.isLeaf = true → res.isPrefixNode = false := by
    intro res
    cases res <;> simp [isLeaf, isPrefixNode]
  have res : erase node [] rid = Leaf.remove node rid := by
    rw [erase, general]
    rcases removed.shape with none | ⟨wf', _⟩
    · rw [none]
      rfl
    · rw [if_pos wf'.hasMetadata, chain_nil]
  refine ⟨?_, fun above wf' => ?_, fun hch => ?_, fun _ => ?_, fun _ inner => ?_⟩
  · rw [res]
    exact .of_removed leaf removed
  · rw [res, general]
    rcases removed.shape with none | ⟨wf'', leaf'⟩
    · rw [none]
      rfl
    · rw [if_pos wf''.hasMetadata]
      exact chain_of_plain (packed_above wf') (hp _ leaf') wf''.ne_empty
  · rw [alone, hp node leaf] at hch
    exact absurd hch Bool.false_ne_true
  · rw [alone, erase, general, replaceBase, (segments_eq_nil_iff node).mpr (hp node leaf)]
  · rw [alone, leaf] at inner
    exact absurd inner (by decide)

theorem eraseBelow_branch (got : l.slot cs b = some i) (abv : List Bytes)
    (xs : ARTKey) (rid : RowId) :
    eraseBelow abv (branch l cs) (b :: xs) rid =
      if (traverse (cs i) xs).1.isPrefixNode then chain abv (branch l cs)
      else if (traverse (cs i) xs).1.isLeaf then
        if (Leaf.remove (traverse (cs i) xs).1 rid).hasMetadata then
          chain abv (branch l (update cs i
            (replaceBase (cs i) (Leaf.remove (traverse (cs i) xs).1 rid))))
        else deleteChild abv l cs b
      else chain abv (branch l (update cs i (erase (cs i) xs rid))) := by
  simp only [eraseBelow, headD_cons, got]
  rfl

theorem eraseSpec_branch (wf : WellFormed (branch l cs))
    (each : ∀ i, l.slot cs b = some i → EraseSpec (cs i) xs rid) :
    EraseSpec (branch l cs) (b :: xs) rid := by
  have unfolded (above : List Bytes) (pack : Packed prefixSize above) :
      eraseBelow above (branch l cs) (b :: xs) rid =
        attach above.flatten ((l.slot cs b).elim (branch l cs)
          fun i => eraseChild l cs b i (erase (cs i) xs rid)) := by
    have eq : chain above (branch l cs) =
        attach above.flatten (branch l cs) := chain_of_plain pack rfl (by simp)
    cases hi : l.slot cs b with
    | none =>
      simp only [eraseBelow, headD_cons, hi]
      exact eq
    | some i =>
      rw [eraseBelow_branch hi]
      have spec := each i hi
      have c := wf.2.2 b i hi
      have ht : (l.getChild cs b).isSome := by
        rw [Layout.getChild, hi]
        rfl
      have hrp {res : Node} (ne : res ≠ empty) : chain above (branch l (update cs i res)) =
            attach above.flatten (eraseChild l cs b i res) := by
        rw [eraseChild_of_ne_empty ne]
        exact chain_of_plain pack rfl (by simp)
      rw [Option.elim_some]
      by_cases hch : (traverse (cs i) xs).1.isPrefixNode = true
      · rw [if_pos hch, spec.missed hch, ← hrp c.ne_empty, update_eq_self]
      · rw [if_neg hch]
        by_cases leaf : (traverse (cs i) xs).1.isLeaf = true
        · rw [if_pos leaf, spec.atLeaf leaf]
          · by_cases kept : (Leaf.remove (traverse (cs i) xs).1 rid).hasMetadata = true
            · rw [if_pos kept, if_pos kept]
              · refine hrp ?_
                have leftover := spec.erased.shape
                rw [spec.atLeaf leaf, if_pos kept] at leftover
                rcases leftover with none | wf'
                · rw [replaceBase] at none
                  cases ps : segments (cs i) with
                  | nil =>
                    rw [ps, chain_nil] at none
                    rw [none] at kept
                    exact absurd kept Bool.false_ne_true
                  | cons d more =>
                    rw [ps, chain_cons] at none
                    exact absurd none (by simp)
                · exact wf'.ne_empty
            · rw [if_neg kept, if_neg kept]
              exact deleteChild_above pack wf ht
        · rw [if_neg leaf]
          exact hrp (spec.atInner (by simpa using hch) (by simpa using leaf))
  have res : erase (branch l cs) (b :: xs) rid = (l.slot cs b).elim (branch l cs)
        fun i => eraseChild l cs b i (erase (cs i) xs rid) := by
    rw [erase, unfolded [] trivial]
    cases hi : l.slot cs b with
    | none => exact prepend_nil wf
    | some i =>
      obtain ⟨erased, ne⟩ := (each i hi).erased.branch wf hi
      rw [Option.elim_some]
      rw [attach_of_ne_empty ne]
      exact prepend_nil (erased.shape.resolve_left ne)
  refine ⟨?_, fun above wf' => ?_, fun hch => ?_, fun leaf => ?_, fun _ _ => ?_⟩
  · rw [res]
    cases hi : l.slot cs b with
    | none =>
      refine .unchanged wf ?_
      rw [rows, hi]
    | some i => exact ((each i hi).erased.branch wf hi).1
  · rw [unfolded above (packed_above wf'), res]
  · exact absurd hch Bool.false_ne_true
  · exact absurd leaf Bool.false_ne_true
  · rw [res]
    cases hi : l.slot cs b with
    | none => simp
    | some i => exact ((each i hi).erased.branch wf hi).2

theorem eraseSpec_mismatch {pos : Nat} (wf : WellFormed (prefixNode d next))
    (got : mismatchPosition d k = some pos) (nil : rows (prefixNode d next) k = []) :
    EraseSpec (prefixNode d next) k rid := by
  have lo (above : List Bytes) : eraseBelow above (prefixNode d next) k rid =
      chain above (prefixNode d next) := by
    simp only [eraseBelow, got]
  have res : erase (prefixNode d next) k rid = prefixNode d next := lo []
  have stopped : (traverse (prefixNode d next) k).1 = prefixNode d next := by
    simp only [traverse, got]
  refine ⟨?_, fun above wf' => ?_, fun _ => res, fun lf => ?_, fun hp _ => ?_⟩
  · rw [res]
    exact .unchanged wf nil
  · rw [lo, res, attach_of_ne_empty (by simp)]
    exact chain_eq_prepend wf'
  · rw [stopped] at lf
    exact absurd lf Bool.false_ne_true
  · rw [stopped] at hp
    exact absurd hp.symm Bool.false_ne_true

theorem eraseSpec_match (wf : WellFormed (prefixNode d next))
    (got : mismatchPosition d (d ++ xs) = none) (spec : EraseSpec next xs rid) :
    EraseSpec (prefixNode d next) (d ++ xs) rid := by
  have below (above : List Bytes) (wf : WellFormed (chain above (prefixNode d next))) :
      eraseBelow above (prefixNode d next) (d ++ xs) rid =
        attach above.flatten (attach d (erase next xs rid)) := by
    have longer : WellFormed (chain (above ++ [d]) next) := by
      rw [chain_append]
      exact wf
    simp only [eraseBelow, got, drop_left]
    rw [spec.below _ longer, attach_attach spec.erased.shape]
    simp
  have res : erase (prefixNode d next) (d ++ xs) rid = attach d (erase next xs rid) := by
    rw [erase, below [] wf, flatten_nil, attach_attach spec.erased.shape, nil_append]
  have onward : (traverse (prefixNode d next) (d ++ xs)).1 = (traverse next xs).1 := by
    simp [traverse, got]
  refine ⟨?_, fun above wf' => ?_, fun hch => ?_, fun lf => ?_, fun hpl inner => ?_⟩
  · rw [res]
    exact spec.erased.attach
  · rw [below above wf', res]
  · rw [onward] at hch
    rw [res, spec.missed hch, attach_of_ne_empty wf.2.2.ne_empty, prefixNode_eq_prepend wf]
  · rw [onward] at lf
    have shape := spec.erased.shape
    rw [onward, res, spec.atLeaf lf]
    rw [spec.atLeaf lf] at shape
    have full := Leaf.remove_plain lf rid
    generalize Leaf.remove (traverse next xs).1 rid = removed at shape full ⊢
    by_cases kept : removed.hasMetadata = true
    · rw [if_pos kept] at shape ⊢
      rw [if_pos kept]
      have hp : replaceBase next removed ≠ empty := by
        rw [replaceBase]
        cases segments next with
        | nil => exact (hasMetadata_iff removed).mp kept
        | cons d more => simp
      have wf' := shape.resolve_left hp
      have longer : replaceBase (prefixNode d next) removed =
          prefixNode d (replaceBase next removed) := rfl
      rw [attach_of_ne_empty hp, longer]
      refine (prefixNode_eq_prepend ⟨wf.1, fun hch => ?_, wf'⟩).symm
      by_contra short
      have hpl : next.isPrefixNode = false := by
        by_contra more
        exact short (wf.2.1 (by simpa using more))
      rw [replaceBase, (segments_eq_nil_iff next).mpr hpl, chain_nil, full] at hch
      exact absurd hch Bool.false_ne_true
    · rw [if_neg kept, if_neg kept]
      rfl
  · rw [onward] at hpl inner
    have hp := spec.atInner hpl inner
    rw [res, attach_of_ne_empty hp]
    exact prepend_ne_empty (spec.erased.shape.resolve_left hp) d

theorem erase_spec (wf : WellFormed node) (comp : Compatible node k) (rid : RowId) :
    EraseSpec node k rid := by
  induction node generalizing k with
  | empty => exact wf.elim
  | leafInlined _ | leaf _ =>
    rw [comp.eq_nil wf rfl]
    exact eraseSpec_leaf wf rfl rid
  | branch l cs ih =>
    obtain ⟨c, xs, rfl⟩ := comp.exists_cons wf
    exact eraseSpec_branch wf fun i hi => ih i (wf.2.2 c i hi) (comp.child hi)
  | prefixNode d next ih =>
    rcases mismatchPosition_cases d k (comp.inside wf) with
      ⟨none, xs, rfl⟩ | ⟨shared, a, b, restD, restK, rfl, rfl, ne, pos⟩
    · exact eraseSpec_match wf none (ih wf.2.2 comp.next)
    · refine eraseSpec_mismatch wf pos ?_
      rw [rows]
      apply under_of_not_isPrefix
      rw [prefix_append_right_inj, cons_prefix_cons]
      exact fun pre => ne pre.1

end ART

end AccessPath
