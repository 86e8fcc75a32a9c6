import AccessPath.Art.Insert
import Mathlib.Data.List.TakeWhile

/-!
# Merging two trees

`Node::Merge` combines two trees over one key space into the union of what they
hold. The sides are handled by what can be read in them, so that swapping them
is symmetry of `Merged`.
-/

namespace AccessPath

open Library Node Prefix List Option Nat

variable {xs : ARTKey} {l next' : Node}

variable {right : ARTKey → List RowId} {d front : Bytes} {i j : Nat} {next : Node} {b byte : UInt8}

/-- No key of one side ends inside a key of the other. -/
def Joint (left right : ARTKey → List RowId) : Prop :=
  ∀ key other, left key ≠ [] → right other ≠ [] → key <+: other ∨ other <+: key → key = other

/-- All keys are shorter than a bound. -/
def Bounded (bound : Nat) (read : ARTKey → List RowId) : Prop :=
  ∀ key, read key ≠ [] → key.length < bound

section

variable {left right : ARTKey → List RowId} {bd : Nat}

theorem Joint.symm (joint : Joint left right) : Joint right left :=
  fun k o got got' related => (joint o k got' got related.symm).symm

theorem Joint.of_under (joint : Joint (under front left) (under front right)) :
    Joint left right := by
  intro k o got got' related
  have full := joint (front ++ k) (front ++ o) (by rwa [under_append_key])
    (by rwa [under_append_key]) (by simpa only [prefix_append_right_inj] using related)
  exact append_cancel_left full

theorem Bounded.of_under (len : Bounded (bd + 1) (under front left))
    (pos : 0 < front.length) : Bounded bd left := by
  intro k got
  have fits := len (front ++ k) (by rwa [under_append_key])
  rw [length_append] at fits
  omega

theorem Bounded.mono {bd' : Nat} (len : Bounded bd left) (larger : bd ≤ bd') :
    Bounded bd' left := fun k got => (len k got).trans_le larger

end

theorem exists_bounded (node : Node) : ∃ bd, Bounded bd (rows node) := by
  induction node with
  | empty => exact ⟨0, fun _ got => absurd rfl got⟩
  | prefixNode d next ih =>
    obtain ⟨bd, short⟩ := ih
    refine ⟨d.length + bd, fun k got => ?_⟩
    obtain ⟨xs, rfl, held⟩ := exists_of_under_ne_nil got
    rw [length_append]
    exact Nat.add_lt_add_left (short xs held) _
  | leafInlined _ | leaf _ =>
    refine ⟨1, fun k got => ?_⟩
    cases k with
    | nil => exact one_pos
    | cons byte xs => exact absurd rfl got
  | branch ly cs ih =>
    choose bd short using ih
    -- the children are below finitely many bytes
    refine ⟨(Finset.range 256).sup (fun n =>
      ((ly.slot cs (UInt8.ofNat n)).map bd).getD 0) + 1, fun k got => ?_⟩
    cases k with
    | nil => exact absurd rfl got
    | cons byte xs =>
      cases hi : ly.slot cs byte with
      | none =>
        rw [rows, hi] at got
        exact absurd rfl got
      | some i =>
        have held : rows (cs i) xs ≠ [] := by
          simpa only [rows, hi] using got
        have lo := Finset.le_sup (f := fun n => ((ly.slot cs (UInt8.ofNat n)).map bd).getD 0)
          (Finset.mem_range.mpr byte.toNat_lt)
        rw [UInt8.ofNat_toNat, hi, map_some, getD_some] at lo
        exact succ_lt_succ ((short i xs held).trans_le lo)

variable {n : Node}

theorem exists_of_isPrefixNode (link : n.isPrefixNode = true) :
    ∃ d next, n = prefixNode d next := by
  cases n with
  | prefixNode d next => exact ⟨d, next, rfl⟩
  | _ => simp [isPrefixNode] at link

theorem Node.WellFormed.leaf_or_branch (wf : WellFormed n) (plain : n.isPrefixNode = false) :
    n.isLeaf = true ∨ ∃ ly cs, n = branch ly cs := by
  cases n with
  | empty => exact wf.elim
  | prefixNode d next => simp [isPrefixNode] at plain
  | leafInlined rid => exact .inl rfl
  | leaf segs => exact .inl rfl
  | branch ly cs => exact .inr ⟨ly, cs, rfl⟩

theorem Joint.eq_nil (joint : Joint (rows n) right) (wf : WellFormed n)
    (leaf : n.isLeaf = true) {k : ARTKey} (ne : right k ≠ []) : k = [] :=
  (joint [] k (rows_leaf_ne_nil wf leaf) ne (.inl nil_prefix)).symm

/-- A node without prefix beside keys that do not end is an inner node. -/
theorem Joint.exists_branch (joint : Joint (rows n) right) (wf : WellFormed n)
    (plain : n.isPrefixNode = false) (ne : right (b :: xs) ≠ []) : ∃ ly cs, n = branch ly cs := by
  rcases wf.leaf_or_branch plain with lf | inner
  · exact absurd (joint.eq_nil wf lf ne) (cons_ne_nil b xs)
  · exact inner

variable {cs : Nat → Node} {ly : Layout}

theorem Node.WellFormed.exists_row_branch (wf : WellFormed (branch ly cs)) :
    ∃ b xs, rows (branch ly cs) (b :: xs) ≠ [] := by
  obtain ⟨k, got⟩ := wf.exists_row
  cases k with
  | nil => exact absurd rfl got
  | cons b xs => exact ⟨b, xs, got⟩

namespace ART

/-- What a merge makes of the rows of both sides. -/
structure Merged (unique : Bool) (left right : ARTKey → List RowId) (result : Node × Bool) :
    Prop where
  wf : WellFormed result.1
  union : result.2 = true → ∀ key, (rows result.1 key).Perm (left key ++ right key)
  within : ∀ key, rows result.1 key ≠ [] → left key ≠ [] ∨ right key ≠ []
  refused_iff : result.2 = false ↔ unique = true ∧ ∃ key, left key ≠ [] ∧ right key ≠ []

section

variable {uniq : Bool} {left right : ARTKey → List RowId} {res : Node × Bool}

theorem Merged.symm (join : Merged uniq left right res) : Merged uniq right left res where
  wf := join.wf
  union := fun hok k => (join.union hok k).trans perm_append_comm
  within := fun k got => (join.within k got).symm
  refused_iff := by
    rw [join.refused_iff]
    simp only [and_comm]

theorem Merged.prefixNode (hm : Merged uniq left right res) (wf : WellFormed (prefixNode d res.1)) :
    Merged uniq (under d left) (under d right) (prefixNode d res.1, res.2) where
  wf := wf
  union := by
    intro hok k
    rw [rows]
    by_cases pre : d <+: k
    · obtain ⟨k, rfl⟩ := pre
      rw [under_append_key, under_append_key, under_append_key]
      exact hm.union hok k
    · rw [under_of_not_isPrefix pre, under_of_not_isPrefix pre,
        under_of_not_isPrefix pre, append_nil]
  within := by
    intro k got
    obtain ⟨xs, rfl, held⟩ := exists_of_under_ne_nil got
    rw [under_append_key, under_append_key]
    exact hm.within xs held
  refused_iff := by
    rw [hm.refused_iff]
    refine and_congr_right fun _ => ⟨fun both => ?_, fun both => ?_⟩
    · obtain ⟨k, got, got'⟩ := both
      exact ⟨d ++ k, by rwa [under_append_key], by rwa [under_append_key]⟩
    · obtain ⟨_, got, got'⟩ := both
      obtain ⟨xs, rfl, held⟩ := exists_of_under_ne_nil got
      exact ⟨xs, held, by rwa [under_append_key] at got'⟩

variable {t : Node}

theorem Merged.present_iff (join : Merged uniq left right (t, true))
    (k : ARTKey) : rows t k ≠ [] ↔ left k ≠ [] ∨ right k ≠ [] := by
  have same : rows t k = [] ↔ left k ++ right k = [] := by
    rw [← perm_nil, ← perm_nil]
    exact List.Perm.congr_left (join.union rfl k) []
  rw [ne_eq, same, append_eq_nil_iff, not_and_or]

theorem within_of_perm {held l r : List RowId} (union : held.Perm (l ++ r)) (ne : held ≠ []) :
    l ≠ [] ∨ r ≠ [] := by
  by_contra hno
  rw [not_or, not_not, not_not] at hno
  rw [hno.1, hno.2, append_nil, perm_nil] at union
  exact ne union

theorem Merged.of_disjoint (wf : WellFormed t) (union : ∀ k, (rows t k).Perm (left k ++ right k))
    (disjoint : ∀ k, left k ≠ [] → right k = []) : Merged uniq left right (t, true) where
  wf := wf
  union := fun _ => union
  within := fun k => within_of_perm (union k)
  refused_iff := by
    refine ⟨fun refused => absurd refused Bool.noConfusion, fun both => ?_⟩
    obtain ⟨_, k, got, got'⟩ := both
    exact absurd (disjoint k got) got'

theorem Merged.trans {fst snd : ARTKey → List RowId} (pre : Merged uniq left fst (t, true))
    (aft : Merged uniq (rows t) snd res)
    (disjoint : ∀ k, fst k ≠ [] → snd k = []) :
    Merged uniq left (fun k => fst k ++ snd k) res where
  wf := aft.wf
  union := by
    intro hok k
    rw [← append_assoc]
    exact (aft.union hok k).trans ((pre.union rfl k).append_right _)
  within := by
    intro k got
    rw [ne_eq (_ ++ _), append_eq_nil_iff, not_and_or]
    rcases aft.within k got with held | held
    · exact (pre.within k held).imp_right .inl
    · exact .inr (.inr held)
  refused_iff := by
    rw [aft.refused_iff]
    refine and_congr_right fun huq => exists_congr fun k => ?_
    have alone : left k ≠ [] → fst k = [] := by
      intro got
      by_contra got'
      exact Bool.noConfusion (pre.refused_iff.mpr ⟨huq, k, got, got'⟩)
    rw [pre.present_iff, ne_eq (_ ++ _), append_eq_nil_iff]
    tauto

theorem Merged.refused_mono {more : ARTKey → List RowId} (join : Merged uniq left right (t, false))
    (part : ∀ k, right k ≠ [] → more k ≠ []) : Merged uniq left more (t, false) where
  wf := join.wf
  union := fun hok => Bool.noConfusion hok
  within := fun k got => (join.within k got).imp_right (part k)
  refused_iff := by
    obtain ⟨huq, k, got, got'⟩ := join.refused_iff.mp rfl
    exact ⟨fun _ => ⟨huq, k, got, part k got'⟩, fun _ => rfl⟩

variable {ly : Layout} {cs : Nat → Node} {b : UInt8}

theorem Merged.child (wf : WellFormed (branch ly cs))
    (spot : ly.slot cs b = some i) (join : Merged uniq (rows (cs i)) right res) :
    Merged uniq (rows (branch ly cs)) (under [b] right)
      (branch ly (Function.update cs i res.1), res.2) := by
  have hup := maps_replaced wf spot join.wf
  have lo (xs : ARTKey) : rows (branch ly cs) (b :: xs) = rows (cs i) xs := by
    simp only [rows, spot]
  refine ⟨wf.replaced spot join.wf, fun hok k => ?_, fun k got => ?_, ?_⟩
  · cases k with
    | nil => simp [rows, under]
    | cons o xs =>
      rw [rows_of_update hup, under_singleton]
      by_cases here : o = b
      · rw [if_pos here, if_pos here, here, lo]
        exact join.union hok xs
      · rw [if_neg here, if_neg here, append_nil]
  · cases k with
    | nil => exact absurd rfl got
    | cons o xs =>
      rw [rows_of_update hup] at got
      rw [under_singleton]
      by_cases here : o = b
      · rw [if_pos here] at got
        rw [if_pos here, here, lo]
        exact join.within xs got
      · rw [if_neg here] at got
        exact .inl got
  · rw [join.refused_iff]
    refine and_congr_right fun _ => ⟨fun both => ?_, fun both => ?_⟩
    · obtain ⟨xs, got, got'⟩ := both
      refine ⟨b :: xs, by rwa [lo], ?_⟩
      rwa [under_singleton, if_pos rfl]
    · obtain ⟨_, got, got'⟩ := both
      obtain ⟨xs, rfl, held⟩ := exists_of_under_ne_nil got'
      exact ⟨xs, by rwa [singleton_append, lo] at got, held⟩

theorem Merged.newChild (wf : WellFormed (branch ly cs))
    (free : ly.slot cs b = none) {c : Node} (wf' : WellFormed c) :
    Merged uniq (rows (branch ly cs)) (under [b] (rows c))
      (branch (ly.insertChild cs b c).1 (ly.insertChild cs b c).2, true) := by
  have hup := maps_inserted wf free wf'
  have hno (xs : ARTKey) : rows (branch ly cs) (b :: xs) = [] := by
    simp only [rows, free]
  refine Merged.of_disjoint (wf.inserted free wf') (fun k => ?_) fun k got => ?_
  · cases k with
    | nil => simp [rows, under]
    | cons o xs =>
      rw [rows_of_update hup, under_singleton]
      by_cases here : o = b
      · rw [if_pos here, if_pos here, here, hno, nil_append]
      · rw [if_neg here, if_neg here, append_nil]
  · apply under_of_not_isPrefix
    intro pre
    obtain ⟨xs, rfl⟩ := pre
    exact got (hno xs)

end

/-! ## Leaves -/

variable {l r : Node}

theorem mergeLeaf_spec (wf : WellFormed l) (wf' : WellFormed r)
    (leaf : l.isLeaf = true) (leaf' : r.isLeaf = true) :
    WellFormed (Leaf.merge l r) ∧ (Leaf.merge l r).isLeaf = true ∧
      (Leaf.rowIds (Leaf.merge l r)).Perm (Leaf.rowIds l ++ Leaf.rowIds r) := by
  have inserted {n : Node} (wf : WellFormed n) (leaf : n.isLeaf = true) (rid : RowId) :
      WellFormed (Leaf.insert n rid) ∧ (Leaf.insert n rid).isLeaf = true ∧
        (Leaf.rowIds (Leaf.insert n rid)).Perm (Leaf.rowIds n ++ [rid]) := by
    obtain ⟨wf', leaf', ids⟩ := insertLeaf_spec wf leaf rid
    exact ⟨wf', leaf', ids ▸ List.Perm.refl _⟩
  cases r with
  | leafInlined rid =>
    have unfolded : Leaf.merge l (leafInlined rid) = Leaf.insert l rid := by
      cases l <;> rfl
    rw [unfolded]
    exact inserted wf leaf rid
  | leaf segs' =>
    cases l with
    | leafInlined rid =>
      obtain ⟨res, hsp, ids⟩ := inserted wf' leaf' rid
      exact ⟨res, hsp, ids.trans perm_append_comm⟩
    | leaf segs =>
      have full : ∀ seg ∈ segs.takeWhile (fun seg => seg.length = leafSize),
          seg.length = leafSize := by
        intro seg mem
        simpa using mem_takeWhile_imp mem
      have packed := (Packed.append_full leafSize_pos full wf'.1).pushAll leafSize_pos
        (((segs.dropWhile fun seg => seg.length = leafSize).head?).getD [])
      have ids : (Leaf.rowIds (Leaf.merge (.leaf segs) (.leaf segs'))).Perm
          (segs.flatten ++ segs'.flatten) := by
        rw [← wf.1.flatten_takeWhile]
        simp only [Leaf.merge, Leaf.rowIds, flatten_pushAll, flatten_append, append_assoc]
        exact perm_append_comm.append_left _
      refine ⟨⟨packed, ?_⟩, rfl, ids⟩
      have length := ids.length_eq
      have two := wf.2
      rw [length_append] at length
      exact le_trans two (length ▸ le_add_right _ _)
    | _ => simp [isLeaf] at leaf
  | _ => simp [isLeaf] at leaf'

theorem mergeLeaves (uniq : Bool) (wf : WellFormed l) (wf' : WellFormed r)
    (leaf : l.isLeaf = true) (leaf' : r.isLeaf = true) :
    ∃ res, (if uniq then some (l, false) else some (Leaf.merge l r, true)) = some res ∧
      Merged uniq (rows l) (rows r) res ∧ res.1.isPrefixNode = false := by
  split
  · next huq =>
      refine ⟨_, rfl, ⟨wf, fun hok => Bool.noConfusion hok, fun k got => .inl got,
        fun _ => ⟨huq, [], ?_, ?_⟩, fun _ => rfl⟩, isPrefixNode_of_isLeaf leaf⟩
      · exact rows_leaf_ne_nil wf leaf
      · exact rows_leaf_ne_nil wf' leaf'
  · next free =>
      obtain ⟨res, hsp, ids⟩ := mergeLeaf_spec wf wf' leaf leaf'
      have union (k : ARTKey) : (rows (Leaf.merge l r) k).Perm (rows l k ++ rows r k) := by
        rw [rows_of_isLeaf leaf, rows_of_isLeaf leaf', rows_of_isLeaf hsp]
        split
        · exact ids
        · exact List.Perm.refl _
      exact ⟨_, rfl, ⟨res, fun _ => union, fun k => within_of_perm (union k),
        fun refused => Bool.noConfusion refused, fun both => absurd both.1 free⟩,
        isPrefixNode_of_isLeaf hsp⟩

/-! ## Inner nodes -/

/-- Merging trees whose keys have fewer than `bound` bytes. -/
def Resolves (unique : Bool) (bound : Nat) (resolve : Node → Node → Option (Node × Bool)) : Prop :=
  ∀ l r, WellFormed l → WellFormed r → Joint (rows l) (rows r) →
    Bounded bound (rows l) → Bounded bound (rows r) →
      ∃ result, resolve l r = some result ∧ Merged unique (rows l) (rows r) result ∧
        (result.1.isPrefixNode = true → l.isPrefixNode = true)

/-- The part of a reading at first bytes below a bound. -/
def firstBelow (bound : Nat) (read : ARTKey → List RowId) : ARTKey → List RowId
  | [] => []
  | byte :: key => if byte.toNat < bound then read (byte :: key) else []

section

variable {uniq : Bool} {bd : Nat} {resolve : Node → Node → Option (Node × Bool)}
  {ly' : Layout} {cs' : Nat → Node}

theorem firstBelow_next (valid : ly'.Valid cs') {next : UInt8}
    (got : ly'.getNextChild cs' byte = some (next, j)) :
    firstBelow next.toNat (rows (branch ly' cs')) =
      firstBelow byte.toNat (rows (branch ly' cs')) := by
  obtain ⟨high, _, least⟩ := valid.getNextChild_some got
  funext k
  cases k with
  | nil => rfl
  | cons o xs =>
    rw [firstBelow, firstBelow]
    by_cases pre : o.toNat < byte.toNat
    · have low : o.toNat < next.toNat := lt_of_lt_of_le pre (UInt8.le_iff_toNat_le.mp high)
      rw [if_pos pre, if_pos low]
    · rw [if_neg pre]
      split
      · next low =>
          have free : ly'.slot cs' o = none := by
            by_contra taken
            have hi := least o (UInt8.le_iff_toNat_le.mpr (not_lt.mp pre))
              (isSome_iff_ne_none.mpr taken)
            exact absurd (UInt8.le_iff_toNat_le.mp hi) (not_le.mpr low)
          rw [rows, free]
      · rfl

theorem firstBelow_succ (got : ly'.slot cs' byte = some j) :
    firstBelow (byte.toNat + 1) (rows (branch ly' cs')) = fun k =>
      firstBelow byte.toNat (rows (branch ly' cs')) k ++ under [byte] (rows (cs' j)) k := by
  funext k
  cases k with
  | nil => simp [firstBelow, under]
  | cons o xs =>
    rw [firstBelow, firstBelow, under_singleton]
    by_cases here : o = byte
    · subst here
      rw [if_pos (lt_succ_self _), if_neg (lt_irrefl _), if_pos rfl, rows, got, nil_append]
    · have ne : o.toNat ≠ byte.toNat := fun same => here (UInt8.toNat_inj.mp same)
      rw [if_neg here, append_nil]
      split <;> split <;> first | rfl | omega

theorem firstBelow_all {least : Nat} (free : ∀ o : UInt8, least ≤ o.toNat → ly'.slot cs' o = none) :
    firstBelow least (rows (branch ly' cs')) = rows (branch ly' cs') := by
  funext k
  cases k with
  | nil => rfl
  | cons o xs =>
    rw [firstBelow]
    split
    · rfl
    · next high => rw [rows, free o (not_lt.mp high)]

theorem firstBelow_disjoint {read read' : ARTKey → List RowId} (k : ARTKey)
    (ne : firstBelow byte.toNat read k ≠ []) : under [byte] read' k = [] := by
  cases k with
  | nil => exact absurd rfl ne
  | cons o xs =>
    rw [under_singleton, if_neg]
    intro here
    rw [here, firstBelow, if_neg (lt_irrefl _)] at ne
    exact ne rfl

/-- What is below a byte that is still to come is there on the left side. -/
theorem Merged.left_of_child {left : ARTKey → List RowId}
    (join : Merged uniq left (firstBelow b.toNat right) (branch ly cs, true))
    (got : ly.slot cs b = some i) (ne : rows (cs i) xs ≠ []) : left (b :: xs) ≠ [] := by
  have held : rows (branch ly cs) (b :: xs) ≠ [] := by
    simpa only [rows, got] using ne
  rcases (join.present_iff (b :: xs)).mp held with here | there
  · exact here
  · rw [firstBelow, if_neg (lt_irrefl _)] at there
    exact absurd rfl there

section

variable (resolves : Resolves uniq bd resolve) {left : ARTKey → List RowId}
  (wf : WellFormed (branch ly' cs'))
  (joint : Joint left (rows (branch ly' cs'))) (short : Bounded (bd + 1) left)
  (short' : Bounded (bd + 1) (rows (branch ly' cs')))
include resolves wf joint short short'

theorem Resolves.child
    (pre : Merged uniq left (firstBelow b.toNat (rows (branch ly' cs'))) (branch ly cs, true))
    (got : ly.slot cs b = some i) (spot' : ly'.slot cs' b = some j) :
    ∃ res, resolve (cs i) (cs' j) = some res ∧ Merged uniq (rows (cs i)) (rows (cs' j)) res := by
  have held {xs : ARTKey} (ne : rows (cs' j) xs ≠ []) : rows (branch ly' cs') (b :: xs) ≠ [] := by
    simpa only [rows, spot'] using ne
  have jointly : Joint (rows (cs i)) (rows (cs' j)) := by
    intro k o ne hp' related
    have full := joint (b :: k) (b :: o) (pre.left_of_child got ne)
      (held hp') (by simpa only [prefix_cons_inj] using related)
    exact (List.cons.inj full).2
  have shorter : Bounded bd (rows (cs i)) := fun k ne =>
    lt_of_succ_lt_succ (short (b :: k) (pre.left_of_child got ne))
  have shorter' : Bounded bd (rows (cs' j)) := fun k ne =>
    lt_of_succ_lt_succ (short' (b :: k) (held ne))
  obtain ⟨res, hr, hm, _⟩ := resolves (cs i) (cs' j)
    (pre.wf.2.2 b i got) (wf.2.2 b j spot') jointly shorter shorter'
  exact ⟨res, hr, hm⟩

theorem mergeChildren_spec {rounds : Nat} {b : UInt8} (enough : 256 ≤ b.toNat + rounds)
    (pre : Merged uniq left (firstBelow b.toNat (rows (branch ly' cs'))) (branch ly cs, true)) :
    ∃ n hok, mergeChildren resolve ly' cs' rounds b ly cs = some (n, hok) ∧
      Merged uniq left (rows (branch ly' cs')) (branch n.1 n.2, hok) := by
  induction rounds generalizing b ly cs with
  | zero =>
    have bounded := b.toNat_lt
    omega
  | succ rounds ih =>
    rw [mergeChildren]
    cases got : ly'.getNextChild cs' b with
    | none =>
      have xs : ∀ o : UInt8, b.toNat ≤ o.toNat → ly'.slot cs' o = none := fun o high =>
        Layout.getNextChild_none got o (UInt8.le_iff_toNat_le.mpr high)
      rw [firstBelow_all xs] at pre
      exact ⟨(ly, cs), true, rfl, pre⟩
    | some e =>
      obtain ⟨next, j⟩ := e
      obtain ⟨high, hi', _⟩ := wf.1.getNextChild_some got
      have c := wf.2.2 next j hi'
      rw [← firstBelow_next wf.1 got] at pre
      -- the rest of the loop, once the child at `next` is merged
      have continued {ly : Layout} {cs : Nat → Node} (aft : Merged uniq left
            (firstBelow (next.toNat + 1) (rows (branch ly' cs')))
            (branch ly cs, true)) :
          ∃ n hok, (if next = 255 then some ((ly, cs), true)
              else mergeChildren resolve ly' cs' rounds (next + 1) ly cs) = some (n, hok) ∧
            Merged uniq left (rows (branch ly' cs')) (branch n.1 n.2, hok) := by
        by_cases last : next = 255
        · rw [if_pos last]
          rw [firstBelow_all] at aft
          · exact ⟨_, _, rfl, aft⟩
          · intro o past
            have bounded := o.toNat_lt
            rw [last] at past
            exact absurd past (not_le.mpr bounded)
        · rw [if_neg last]
          rw [← toNat_succ last] at aft
          have progress := UInt8.le_iff_toNat_le.mp high
          exact ih (by rw [toNat_succ last]; omega) aft
      dsimp only
      cases hi : ly.slot cs next with
      | none =>
        apply continued
        rw [firstBelow_succ hi']
        exact pre.trans (Merged.newChild pre.wf hi c) firstBelow_disjoint
      | some i =>
        obtain ⟨⟨_, hok⟩, hr, hm⟩ := resolves.child wf joint short short' pre hi hi'
        have aft := pre.trans (hm.child pre.wf hi) firstBelow_disjoint
        rw [← firstBelow_succ hi'] at aft
        dsimp only
        rw [hr]
        cases hok with
        | false =>
          refine ⟨_, _, rfl, aft.refused_mono fun k hp => ?_⟩
          cases k with
          | nil => exact absurd rfl hp
          | cons o xs =>
            rw [firstBelow] at hp
            split at hp
            · exact hp
            · exact absurd rfl hp
        | true => exact continued aft

end

end

section

variable {uniq : Bool} {bd : Nat} {resolve : Node → Node → Option (Node × Bool)}

theorem mergeBranches (resolves : Resolves uniq bd resolve) {ly ly' : Layout}
    {cs cs' : Nat → Node} (wf : WellFormed (branch ly cs)) (wf' : WellFormed (branch ly' cs'))
    (joint : Joint (rows (branch ly cs)) (rows (branch ly' cs')))
    (len : Bounded (bd + 1) (rows (branch ly cs)))
    (len' : Bounded (bd + 1) (rows (branch ly' cs'))) :
    ∃ n hok, mergeChildren resolve ly' cs' 256 0 ly cs = some (n, hok) ∧
      Merged uniq (rows (branch ly cs)) (rows (branch ly' cs')) (branch n.1 n.2, hok) := by
  have start : firstBelow 0 (rows (branch ly' cs')) = fun _ => [] := by
    funext k
    cases k with
    | nil => rfl
    | cons byte xs => rw [firstBelow, if_neg (not_lt_zero _)]
  refine mergeChildren_spec resolves wf' joint len len' (le_refl 256) ?_
  change Merged uniq _ (firstBelow 0 _) _
  rw [start]
  exact Merged.of_disjoint wf (fun k => by rw [append_nil]) fun _ _ => rfl

theorem mergeInternal_swap (less : l.type < r.type) :
    mergeInternal uniq resolve l r = mergeInternal uniq resolve r l := by
  rw [mergeInternal, mergeInternal, if_pos less, if_neg (not_lt.mpr less.le)]

theorem mergeInternal_of_leaves (leaf : l.isLeaf = true) (leaf' : r.isLeaf = true)
    (ord : ¬ l.type < r.type) :
    mergeInternal uniq resolve l r =
      if uniq then some (l, false) else some (Leaf.merge l r, true) := by
  rw [mergeInternal, if_neg ord]
  cases l <;> cases r <;> first | rfl | simp [isLeaf] at leaf leaf'

section

variable (resolves : Resolves uniq bd resolve) (wf : WellFormed l) (wf' : WellFormed r)
  (plain : l.isPrefixNode = false) (plain' : r.isPrefixNode = false)
  (joint : Joint (rows l) (rows r)) (short : Bounded (bd + 1) (rows l))
  (short' : Bounded (bd + 1) (rows r))
include resolves wf wf' plain plain' joint short short'

/-- `Node::MergeInternal` of two nodes without prefix that are in order. -/
theorem mergeInternal_ordered (ord : ¬ l.type < r.type) :
    ∃ res, mergeInternal uniq resolve l r = some res ∧
      Merged uniq (rows l) (rows r) res ∧ res.1.isPrefixNode = false := by
  rcases wf.leaf_or_branch plain with lf | ⟨_, _, rfl⟩
  · rcases wf'.leaf_or_branch plain' with lf' | ⟨ly', cs', rfl⟩
    · rw [mergeInternal_of_leaves lf lf' ord]
      exact mergeLeaves uniq wf wf' lf lf'
    · obtain ⟨byte, xs, got⟩ := wf'.exists_row_branch
      exact absurd (joint.eq_nil wf lf got) (cons_ne_nil byte xs)
  · obtain ⟨_, _, got⟩ := wf.exists_row_branch
    obtain ⟨_, _, rfl⟩ := joint.symm.exists_branch wf' plain' got
    obtain ⟨_, _, res, hm⟩ := mergeBranches resolves wf wf' joint short short'
    refine ⟨_, ?_, hm, rfl⟩
    rw [mergeInternal, if_neg ord]
    simp only [res]

theorem mergeInternal_spec : ∃ res, mergeInternal uniq resolve l r = some res ∧
      Merged uniq (rows l) (rows r) res ∧ res.1.isPrefixNode = false := by
  by_cases less : l.type < r.type
  · obtain ⟨res, hr, hm, hsp⟩ := mergeInternal_ordered resolves wf' wf plain' plain
      joint.symm short' short (not_lt.mpr less.le)
    exact ⟨res, (mergeInternal_swap less).trans hr, hm.symm, hsp⟩
  · exact mergeInternal_ordered resolves wf wf' plain plain' joint short short' less

end

/-! ## Prefixes -/

/-- The prefix of one side ends at an inner node, the other one continues. -/
theorem mergePrefixContainsOtherPrefix_spec (resolves : Resolves uniq bd resolve) {l : Node}
    (wf : WellFormed l) (plain : l.isPrefixNode = false) {front xs : Bytes} {b : UInt8}
    {next : Node} (wf' : WellFormed (prefixNode (front ++ b :: xs) next))
    (joint : Joint (rows l) (under (b :: xs) (rows next))) (len : Bounded (bd + 1) (rows l))
    (len' : Bounded (bd + 1) (under (b :: xs) (rows next))) :
    ∃ res, mergePrefixContainsOtherPrefix resolve l (front ++ b :: xs) next front.length =
        some res ∧ Merged uniq (rows l) (under (b :: xs) (rows next)) res ∧
        res.1.isPrefixNode = false := by
  have reduced : reduce (front ++ b :: xs) next front.length = prepend xs next := by
    rw [reduce_eq_prepend wf' (by simp)]
    simp
  have head : (front ++ b :: xs).getD front.length 0 = b := by simp
  have c := wellFormed_prepend wf'.2.2 xs
  have hr : under (b :: xs) (rows next) = under [b] (rows (prepend xs next)) := by
    rw [rows_prepend, under_under, singleton_append]
  obtain ⟨sto, _⟩ := wf'.2.2.exists_row
  have ne : under (b :: xs) (rows next) (b :: (xs ++ sto)) ≠ [] := by
    rwa [← cons_append, under_append_key]
  obtain ⟨ly, cs, rfl⟩ := joint.exists_branch wf plain ne
  rw [hr] at joint len' ⊢
  simp only [mergePrefixContainsOtherPrefix, head, reduced]
  cases hi : ly.slot cs b with
  | none => exact ⟨_, rfl, Merged.newChild wf hi c, rfl⟩
  | some i =>
    have held {k : ARTKey} (ne : rows (cs i) k ≠ []) : rows (branch ly cs) (b :: k) ≠ [] := by
      simpa only [rows, hi] using ne
    have jointly : Joint (rows (cs i)) (rows (prepend xs next)) := by
      intro k other ne hp' related
      have full := joint (b :: k) (b :: other) (held ne) (by rwa [under_singleton, if_pos rfl])
        (by simpa only [prefix_cons_inj] using related)
      exact (List.cons.inj full).2
    have shorter : Bounded bd (rows (cs i)) := fun k ne =>
      lt_of_succ_lt_succ (len (b :: k) (held ne))
    obtain ⟨_, hrs, hm, _⟩ := resolves (cs i) (prepend xs next)
      (wf.2.2 b i hi) c jointly shorter (len'.of_under one_pos)
    exact ⟨_, by simp only [hrs], hm.child wf hi, rfl⟩

theorem mergePrefixesDiffer_spec {com xs xs' : Bytes} {a b : UInt8} (ne : a ≠ b)
    (wf : WellFormed (prefixNode (com ++ a :: xs) next))
    (wf' : WellFormed (prefixNode (com ++ b :: xs') next')) :
    Merged uniq (rows (prefixNode (com ++ a :: xs) next))
      (rows (prefixNode (com ++ b :: xs') next'))
      (mergePrefixesDiffer (com ++ a :: xs) next (com ++ b :: xs') next' com.length, true) := by
  have ch := wellFormed_prepend wf.2.2 xs
  have ch' := wellFormed_prepend wf'.2.2 xs'
  have n := wellFormed_newNode4 ne ch ch'
  have hsp : mergePrefixesDiffer (com ++ a :: xs) next (com ++ b :: xs') next'
      com.length = prepend com (newNode4 a (prepend xs next) b (prepend xs' next')) := by
    have lt : com.length < (com ++ a :: xs).length := by simp
    have lt' : com.length < (com ++ b :: xs').length := by simp
    have behind : (com ++ a :: xs).drop (com.length + 1) = xs := by simp
    have behind' : (com ++ b :: xs').drop (com.length + 1) = xs' := by simp
    have byte : (com ++ a :: xs).getD com.length 0 = a := by simp
    have byte' : (com ++ b :: xs').getD com.length 0 = b := by simp
    rw [mergePrefixesDiffer, splitChild_eq_prepend wf lt, reduce_eq_prepend wf' lt', behind,
      behind', byte, byte', splitNode_eq_prepend wf.1.2 lt n
        (isPrefixNode_newNode4 ne ch ch'), take_left]
  have hr {c : UInt8} {more : Bytes} {aft : Node} : rows (prefixNode (com ++ c :: more) aft) =
        under com (under [c] (rows (prepend more aft))) := by
    funext k
    rw [rows, rows_prepend, under_under, under_under, append_assoc, singleton_append]
  rw [hsp, hr, hr]
  refine Merged.of_disjoint (wellFormed_prepend n com) (fun k => ?_) fun k got => ?_
  · rw [rows_prepend]
    by_cases pre : com <+: k
    · obtain ⟨k, rfl⟩ := pre
      rw [under_append_key, under_append_key, under_append_key, rows_newNode4 ne ch ch']
    · rw [under_of_not_isPrefix pre, under_of_not_isPrefix pre,
        under_of_not_isPrefix pre, append_nil]
  · obtain ⟨k, rfl, inner⟩ := exists_of_under_ne_nil got
    obtain ⟨_, rfl, _⟩ := exists_of_under_ne_nil inner
    rw [under_append_key, singleton_append, under_singleton, if_neg ne]

end

section

variable {uniq : Bool} {n : Nat}

theorem resolvePrefixes_plain (plain : l.isPrefixNode = false) (plain' : r.isPrefixNode = false) :
    resolvePrefixes uniq (n + 1) l r = mergeInternal uniq (resolvePrefixes uniq n) l r := by
  cases l <;> cases r <;> first | rfl | simp [isPrefixNode] at plain plain'

theorem resolvePrefixes_left {r : Node} (plain : r.isPrefixNode = false) :
    resolvePrefixes uniq (n + 1) (prefixNode d next) r =
      mergePrefixContainsOtherPrefix (resolvePrefixes uniq n) r d next 0 := by
  cases r <;> first | rfl | simp [isPrefixNode] at plain

theorem resolvePrefixes_right (plain : l.isPrefixNode = false) :
    resolvePrefixes uniq (n + 1) l (prefixNode d next) =
      mergePrefixContainsOtherPrefix (resolvePrefixes uniq n) l d next 0 := by
  cases l <;> first | rfl | simp [isPrefixNode] at plain

theorem compare_prefixes (d data' : Bytes) :
    (∃ com a b xs xs', d = com ++ a :: xs ∧ data' = com ++ b :: xs' ∧ a ≠ b ∧
        mismatchPosition (d.take (min d.length data'.length)) data' = some com.length) ∨
      mismatchPosition (d.take (min d.length data'.length)) data' = none ∧
        (d = data' ∨ (∃ byte xs, d = data' ++ byte :: xs) ∨
          ∃ byte xs, data' = d ++ byte :: xs) := by
  have proper {front full : Bytes} (pre : front <+: full) (ne : front ≠ full) :
      ∃ byte xs, full = front ++ byte :: xs := by
    obtain ⟨xs, rfl⟩ := pre
    cases xs with
    | nil => exact absurd (append_nil _).symm ne
    | cons byte xs => exact ⟨byte, xs, rfl⟩
  have fits : data' <+: d.take (min d.length data'.length) →
      (d.take (min d.length data'.length)).length ≤ data'.length := by
    intro _
    rw [length_take]
    omega
  rcases mismatchPosition_cases _ data' fits with ⟨matched, pre⟩ |
    ⟨com, a, b, xs, xs', split, split', ne, pos⟩
  · right
    refine ⟨matched, ?_⟩
    by_cases same : d = data'
    · exact .inl same
    · right
      rcases le_total d.length data'.length with short | short
      · rw [min_eq_left short, take_length] at pre
        exact .inr (proper pre same)
      · rw [min_eq_right short] at pre
        have full := pre.eq_of_length (by rw [length_take, min_eq_left short])
        exact .inl (proper (full ▸ take_prefix _ d) (Ne.symm same))
  · left
    refine ⟨com, a, b, xs ++ d.drop (min d.length data'.length), xs', ?_, split', ne, pos⟩
    rw [← cons_append, ← append_assoc, ← split, take_append_drop]

theorem mergeLongerPrefix (resolves : Resolves uniq n (resolvePrefixes uniq n))
    {xs : Bytes} (wf : WellFormed (prefixNode front l)) (plain : l.isPrefixNode = false)
    (wf' : WellFormed (prefixNode (front ++ byte :: xs) next))
    (joint : Joint (under front (rows l)) (under (front ++ byte :: xs) (rows next)))
    (len : Bounded (n + 1) (under front (rows l)))
    (len' : Bounded (n + 1) (under (front ++ byte :: xs) (rows next))) :
    ∃ res, (mergePrefixContainsOtherPrefix (resolvePrefixes uniq n) l
          (front ++ byte :: xs) next front.length).map
          (fun res => (prefixNode front res.1, res.2)) = some res ∧
      Merged uniq (under front (rows l)) (under (front ++ byte :: xs) (rows next)) res := by
  rw [← under_under] at joint len' ⊢
  obtain ⟨res, hr, hm, hsp⟩ := mergePrefixContainsOtherPrefix_spec resolves wf.2.2
    plain wf' joint.of_under ((len.of_under wf.1.1).mono (le_succ _))
    ((len'.of_under wf.1.1).mono (le_succ _))
  refine ⟨(prefixNode front res.1, res.2), ?_, hm.prefixNode ⟨wf.1, fun hch => ?_, hm.wf⟩⟩
  · rw [hr, map_some]
  · rw [hsp] at hch
    exact Bool.noConfusion hch

theorem resolvePrefixes_both (resolves : Resolves uniq n (resolvePrefixes uniq n))
    {data' : Bytes} (wf : WellFormed (prefixNode d next))
    (wf' : WellFormed (prefixNode data' next'))
    (joint : Joint (under d (rows next)) (under data' (rows next')))
    (len : Bounded (n + 1) (under d (rows next)))
    (len' : Bounded (n + 1) (under data' (rows next'))) :
    ∃ res, resolvePrefixes uniq (n + 1) (prefixNode d next) (prefixNode data' next') =
        some res ∧ Merged uniq (under d (rows next)) (under data' (rows next')) res := by
  have plainNext {d : Bytes} {next : Node} (wf : WellFormed (prefixNode d next))
      (less : d.length < prefixSize) : next.isPrefixNode = false := by
    by_contra hch
    exact absurd (wf.2.1 (by simpa using hch)) less.ne
  rw [resolvePrefixes]
  rcases compare_prefixes d data' with
    ⟨_, _, _, xs, _, rfl, rfl, ne, pos⟩ | ⟨matched, rfl | ⟨byte, xs, rfl⟩ | ⟨byte, xs, rfl⟩⟩
  · rw [pos]
    exact ⟨_, rfl, mergePrefixesDiffer_spec ne wf wf'⟩
  · rw [matched]
    obtain ⟨res, hr, hm, hch⟩ := resolves next next' wf.2.2 wf'.2.2
      joint.of_under (len.of_under wf.1.1) (len'.of_under wf.1.1)
    refine ⟨(prefixNode d res.1, res.2), ?_,
      hm.prefixNode ⟨wf.1, fun more => wf.2.1 (hch more), hm.wf⟩⟩
    simp [hr, map_some]
  · have less : data'.length < (data' ++ byte :: xs).length := by simp
    have plain := plainNext wf' (less.trans_le wf.1.2)
    obtain ⟨res, hr, hm⟩ := mergeLongerPrefix resolves wf' plain wf joint.symm len' len
    refine ⟨res, ?_, hm.symm⟩
    rw [matched]
    simp [plain, Bool.false_eq_true, not_false_eq_true, and_self, hr]
  · have less : d.length < (d ++ byte :: xs).length := by simp
    have plain := plainNext wf (less.trans_le wf'.1.2)
    obtain ⟨res, hr, hm⟩ := mergeLongerPrefix resolves wf plain wf' joint len len'
    refine ⟨res, ?_, hm⟩
    rw [matched]
    simp [and_false, hr]

/-- Enough fuel resolves the prefixes of two trees over one key space. -/
theorem resolvePrefixes_spec (uniq : Bool) (n : Nat) :
    Resolves uniq n (resolvePrefixes uniq n) := by
  induction n with
  | zero =>
    intro l r wf wf' joint short short'
    obtain ⟨sto, got⟩ := wf.exists_row
    exact absurd (short sto got) (not_lt_zero _)
  | succ n ih =>
    intro l r wf wf' joint short short'
    cases plain : l.isPrefixNode with
    | false =>
      cases plain' : r.isPrefixNode with
      | false =>
        rw [resolvePrefixes_plain plain plain']
        obtain ⟨res, hr, hm, hsp⟩ :=
          mergeInternal_spec ih wf wf' plain plain' joint short short'
        exact ⟨res, hr, hm, fun hch => hsp ▸ hch⟩
      | true =>
        obtain ⟨d, next, rfl⟩ := exists_of_isPrefixNode plain'
        obtain ⟨byte, xs, rfl⟩ := exists_cons_of_length_pos wf'.1.1
        rw [resolvePrefixes_right plain]
        obtain ⟨res, hr, hm, hsp⟩ :=
          @mergePrefixContainsOtherPrefix_spec uniq n _ ih l wf plain [] xs byte next wf'
            joint short short'
        exact ⟨res, hr, hm, fun hch => hsp ▸ hch⟩
    | true =>
      obtain ⟨_, next, rfl⟩ := exists_of_isPrefixNode plain
      cases plain' : r.isPrefixNode with
      | false =>
        obtain ⟨byte, xs, rfl⟩ := exists_cons_of_length_pos wf.1.1
        rw [resolvePrefixes_left plain']
        obtain ⟨res, hr, hm, _⟩ :=
          @mergePrefixContainsOtherPrefix_spec uniq n _ ih r wf' plain' [] xs byte next wf
            joint.symm short' short
        exact ⟨res, hr, hm.symm, fun _ => rfl⟩
      | true =>
        obtain ⟨_, _, rfl⟩ := exists_of_isPrefixNode plain'
        obtain ⟨res, hr, hm⟩ := resolvePrefixes_both ih wf wf' joint short short'
        exact ⟨res, hr, hm, fun _ => rfl⟩

/-- `Node::Merge` of two trees over one key space, either of which may be empty. -/
theorem merge_spec (uniq : Bool) (sound : l = empty ∨ WellFormed l)
    (sound' : r = empty ∨ WellFormed r) (joint : Joint (rows l) (rows r))
    (short : Bounded n (rows l)) (short' : Bounded n (rows r)) :
    ∃ res, merge uniq n l r = some res ∧ (res.1 = empty ∨ WellFormed res.1) ∧
      (res.2 = true → ∀ k, (rows res.1 k).Perm (rows l k ++ rows r k)) ∧
      (∀ k, rows res.1 k ≠ [] → rows l k ≠ [] ∨ rows r k ≠ []) ∧
      (res.2 = false ↔ uniq = true ∧ ∃ k, rows l k ≠ [] ∧ rows r k ≠ []) := by
  have nothing (k : ARTKey) : ¬ rows empty k ≠ [] := fun got => got rfl
  rcases sound' with rfl | wf'
  · refine ⟨(l, true), ?_, sound, fun _ k => ?_, fun k got => .inl got, ?_⟩
    · rw [merge]
    · rw [rows, append_nil]
    · simp [nothing]
  · rcases sound with rfl | wf
    · refine ⟨(r, true), ?_, .inr wf', fun _ k => ?_, fun k got => .inr got, ?_⟩
      · cases r <;> rfl
      · exact List.Perm.refl _
      · simp [nothing]
    · obtain ⟨res, hr, hm, _⟩ := resolvePrefixes_spec uniq n l r wf wf' joint short short'
      refine ⟨res, ?_, .inr hm.wf, hm.union, hm.within, hm.refused_iff⟩
      rw [← hr]
      cases l with
      | empty => exact wf.elim
      | _ => cases r <;> first | rfl | exact wf'.elim

end

end ART

end AccessPath
