import AccessPath.Art.Insert
import Mathlib.Data.List.SplitBy

/-!
# Construction from sorted keys

`ART::ConstructFromSorted` builds the tree of a sorted list of keys at once. It
succeeds unless a unique index is given a key twice, and the tree holds the row
IDs of each key in the order of the input.
-/

namespace AccessPath

open Library Node Prefix List Option Function

variable {rest com : ARTKey} {front : Bytes} {n least : Nat} {cs : Nat → Node}
  {uniq : Bool} {l : Layout} {es part : List (ARTKey × RowId)}

namespace ART

/-- Sorted keys of which none ends inside another. -/
structure KeySection (entries : List (ARTKey × RowId)) : Prop where
  nonempty : entries ≠ []
  sorted : entries.Pairwise fun a b => a.1 ≤ b.1
  free : ∀ a ∈ entries, ∀ b ∈ entries, a.1 <+: b.1 → a.1 = b.1

/-- The row IDs that the input has under a key. -/
def held (entries : List (ARTKey × RowId)) (key : ARTKey) : List RowId :=
  (entries.filter fun entry => entry.1 = key).map Prod.snd

/-- The entries with bytes in front of their keys. -/
def beneath (front : Bytes) (entries : List (ARTKey × RowId)) : List (ARTKey × RowId) :=
  entries.map fun entry => (front ++ entry.1, entry.2)

/-! ## Entries -/

theorem held_append (es es' : List (ARTKey × RowId)) (k : ARTKey) :
    held (es ++ es') k = held es k ++ held es' k := by
  rw [held, filter_append, map_append, held, held]

theorem held_eq_nil_iff (es : List (ARTKey × RowId)) (k : ARTKey) :
    held es k = [] ↔ ∀ e ∈ es, e.1 ≠ k := by
  rw [held, map_eq_nil_iff, filter_eq_nil_iff]
  simp

theorem held_beneath (fr : Bytes) (es : List (ARTKey × RowId)) :
    held (beneath fr es) = under fr (held es) := by
  funext k
  by_cases pre : fr <+: k
  · obtain ⟨_, rfl⟩ := pre
    rw [under_append_key, held, held, beneath, List.filter_map, List.map_map]
    simp [comp_def]
  · rw [under_of_not_isPrefix pre, held_eq_nil_iff]
    intro e mem eq
    obtain ⟨e, _, rfl⟩ := List.mem_map.mp mem
    exact pre ⟨e.1, eq⟩

variable {es : List (ARTKey × RowId)} {entry : ARTKey × RowId}

theorem mem_beneath (mem : entry ∈ es) : (front ++ entry.1, entry.2) ∈ beneath front es :=
  List.mem_map.mpr ⟨entry, mem, rfl⟩

theorem beneath_sublist (pre : Bytes) (sub : part.Sublist es) :
    (beneath pre part).Sublist (beneath pre es) :=
  sub.map _

theorem keys_beneath (pre : Bytes) (es : List (ARTKey × RowId)) :
    (beneath pre es).map Prod.fst = (es.map Prod.fst).map (pre ++ ·) := by
  rw [beneath, List.map_map, List.map_map]
  rfl

theorem nodup_beneath (pre : Bytes) (es : List (ARTKey × RowId)) :
    ((beneath pre es).map Prod.fst).Nodup ↔ (es.map Prod.fst).Nodup := by
  rw [keys_beneath]
  exact nodup_map_iff fun _ _ eq => append_cancel_left eq

/-! ## Sorted keys -/

theorem cons_le_cons_iff (a b : UInt8) (k o : ARTKey) :
    a :: k ≤ b :: o ↔ a < b ∨ a = b ∧ k ≤ o := by
  rw [← not_lt, cons_lt_cons_iff, ← not_lt]
  rcases lt_trichotomy a b with less | eq | less
  · simp [less, less.not_gt, less.ne']
  · simp [eq]
  · simp [less, less.not_gt, less.ne']

theorem append_le_append_iff (pre k o : ARTKey) : pre ++ k ≤ pre ++ o ↔ k ≤ o := by
  induction pre with
  | nil => rfl
  | cons b pre ih =>
    rw [cons_append, cons_append, cons_le_cons_iff, ih]
    simp

theorem isPrefix_of_between {low k high : ARTKey} (fst : com <+: low)
    (last : com <+: high) (le : low ≤ k) (lo : k ≤ high) : com <+: k := by
  induction com generalizing low k high with
  | nil => exact nil_prefix
  | cons b com ih =>
    obtain ⟨low, rfl⟩ := fst
    obtain ⟨high, rfl⟩ := last
    cases k with
    | nil => exact absurd le (not_le.mpr (nil_lt_cons _ _))
    | cons o k =>
      rw [cons_append, cons_le_cons_iff] at le lo
      have eq : b = o := by
        rcases le with less | ⟨eq, _⟩
        · rcases lo with less' | ⟨eq, _⟩
          · exact absurd (less.trans less') (lt_irrefl _)
          · exact eq.symm
        · exact eq
      subst eq
      rw [prefix_cons_inj]
      have hi' := le.resolve_left (lt_irrefl _)
      have lo' := lo.resolve_left (lt_irrefl _)
      exact ih (prefix_append _ low) (prefix_append _ high) hi'.2 lo'.2

theorem KeySection.of_beneath (inp : KeySection (beneath front es)) : KeySection es where
  nonempty := by
    rintro rfl
    exact inp.nonempty rfl
  sorted := by
    have asc := pairwise_map.mp inp.sorted
    exact asc.imp fun lo => (append_le_append_iff front _ _).mp lo
  free := by
    intro a mem b mem' pre
    have full := inp.free _ (List.mem_map_of_mem mem) _ (List.mem_map_of_mem mem')
      ((prefix_append_right_inj front).mpr pre)
    exact append_cancel_left full

theorem agreement_cases (k o : ARTKey) (free : k <+: o ∨ o <+: k → k = o) :
    (k = o ∧ agreement k o = k.length) ∨
      ∃ com a b rest rest', k = com ++ a :: rest ∧ o = com ++ b :: rest' ∧ a ≠ b ∧
        agreement k o = com.length := by
  induction k generalizing o with
  | nil => exact .inl ⟨free (.inl nil_prefix), rfl⟩
  | cons c k ih =>
    cases o with
    | nil => exact absurd (free (.inr nil_prefix)) (cons_ne_nil _ _)
    | cons c' o =>
      rw [agreement, headD_cons, tail_cons]
      by_cases eq : c = c'
      · subst eq
        rw [if_pos rfl]
        have hl : k <+: o ∨ o <+: k → k = o := by
          intro related
          have full := free (by simpa only [prefix_cons_inj] using related)
          exact (List.cons.inj full).2
        rcases ih o hl with
          ⟨rfl, length⟩ | ⟨com, a, b, rest, rest', rfl, rfl, ne, length⟩
        · exact .inl ⟨rfl, by rw [length, length_cons]⟩
        · exact .inr ⟨c :: com, a, b, rest, rest', rfl, rfl, ne,
            by rw [length, length_cons]⟩
      · rw [if_neg eq]
        exact .inr ⟨[], c, c', k, o, rfl, rfl, eq, rfl⟩

/-! ## Groups -/

/-- The groups of a section, each under its byte. -/
def ungroup (groups : List (UInt8 × List (ARTKey × RowId))) : List (List (ARTKey × RowId)) :=
  groups.map fun group => beneath [group.1] group.2

variable {b byte : UInt8}

theorem exists_beneath (eq : ∀ entry ∈ es, ∃ rest, entry.1 = byte :: rest) :
    beneath [byte] (es.map fun entry => (entry.1.tail, entry.2)) = es := by
  rw [beneath, List.map_map]
  conv_rhs => rw [← List.map_id es]
  apply map_congr_left
  intro entry mem
  obtain ⟨_, hsp⟩ := eq entry mem
  simp only [comp_apply, hsp, tail_cons, singleton_append, id_eq]
  rw [← hsp]

/-- The first byte of a section. -/
def firstByte (entries : List (ARTKey × RowId)) : UInt8 :=
  ((entries.head?.map Prod.fst).getD []).headD 0

/-- Keys with the same first byte. -/
def SameByte (entries : List (ARTKey × RowId)) : Prop :=
  entries ≠ [] ∧ ∀ entry ∈ entries, ∃ rest, entry.1 = firstByte entries :: rest

theorem sameByte_of_mem (proper : ∀ entry ∈ es, entry.1 ≠ [])
    (mem : part ∈ childSections es) : SameByte part := by
  have ne : part ≠ [] := ne_nil_of_mem_splitBy mem
  have fit : ∀ entry ∈ part, entry ∈ es := by
    intro entry here
    rw [← flatten_splitBy (fun a b => a.1.headD 0 == b.1.headD 0) es]
    exact mem_flatten.mpr ⟨part, mem, here⟩
  have chain := isChain_of_mem_splitBy mem
  refine ⟨ne, fun entry here => ?_⟩
  have eq : entry.1.headD 0 = firstByte part := by
    obtain ⟨lo, rest, rfl⟩ := exists_cons_of_ne_nil ne
    have all : (lo :: rest).Pairwise fun a b => a.1.headD 0 = b.1.headD 0 := by
      apply isChain_iff_pairwise.mp
      simpa using chain
    rcases mem_cons.mp here with rfl | hl
    · rfl
    · exact ((pairwise_cons.mp all).1 entry hl).symm
  cases hsp : entry.1 with
  | nil => exact absurd hsp (proper entry (fit entry here))
  | cons byte rest =>
    rw [hsp, headD_cons] at eq
    exact ⟨rest, by rw [eq]⟩

theorem firstByte_increasing {sections : List (List (ARTKey × RowId))}
    (eq : ∀ part ∈ sections, SameByte part)
    (asc : sections.flatten.Pairwise fun a b => a.1 ≤ b.1)
    (ne : sections.IsChain fun a b => ∃ ha hb,
      ((a.getLast ha).1.headD 0 == (b.head hb).1.headD 0) = false) :
    sections.Pairwise fun a b => firstByte a < firstByte b := by
  induction sections with
  | nil => exact List.Pairwise.nil
  | cons part rest ih =>
    rw [flatten_cons, pairwise_append] at asc
    have hl := ih (fun part mem => eq part (mem_cons_of_mem _ mem)) asc.2.1 ne.tail
    cases rest with
    | nil => exact pairwise_singleton _ _
    | cons next rest =>
      have step : firstByte part < firstByte next := by
        obtain ⟨ha, hb, hne⟩ := (isChain_cons_cons.mp ne).1
        obtain ⟨_, fst⟩ := (eq part (by simp)).2 _ (getLast_mem ha)
        obtain ⟨_, snd⟩ := (eq next (by simp)).2 _ (head_mem hb)
        have lo := asc.2.2 _ (getLast_mem ha) (next.head hb)
          (mem_flatten.mpr ⟨next, by simp, head_mem hb⟩)
        rw [fst, snd, cons_le_cons_iff] at lo
        rw [fst, snd, headD_cons, headD_cons, beq_eq_false_iff_ne] at hne
        exact lo.resolve_right fun heq => hne heq.1
      refine List.Pairwise.cons (fun o mem => ?_) hl
      rcases mem_cons.mp mem with rfl | mem
      · exact step
      · exact step.trans ((pairwise_cons.mp hl).1 o mem)

theorem childSections_eq
    (asc : es.Pairwise fun a b => a.1 ≤ b.1) (ne : ∀ entry ∈ es, entry.1 ≠ []) :
    ∃ gs, childSections es = ungroup gs ∧ (∀ grp ∈ gs, grp.2 ≠ []) ∧
      gs.Pairwise fun a b => a.1 < b.1 := by
  have eq (part : List (ARTKey × RowId)) (mem : part ∈ childSections es) : SameByte part :=
    sameByte_of_mem ne mem
  refine ⟨(childSections es).map fun part =>
    (firstByte part, part.map fun entry => (entry.1.tail, entry.2)), ?_, ?_, ?_⟩
  · rw [ungroup, List.map_map]
    conv_lhs => rw [← List.map_id (childSections es)]
    apply map_congr_left
    intro part mem
    exact (exists_beneath (eq part mem).2).symm
  · intro grp mem
    obtain ⟨part, here, rfl⟩ := List.mem_map.mp mem
    simpa using (eq part here).1
  · rw [pairwise_map]
    apply firstByte_increasing eq
    · rwa [childSections, flatten_splitBy]
    · exact isChain_getLast_head_splitBy (fun a b => a.1.headD 0 == b.1.headD 0) es

/-! ## Inner nodes -/

/-- What a construction makes of its input. -/
def Constructed (unique : Bool) (entries : List (ARTKey × RowId)) (result : Node × Bool) : Prop :=
  (result.2 = true ∧ WellFormed result.1 ∧ (∀ key, rows result.1 key = held entries key) ∧
      (unique = true → (entries.map Prod.fst).Nodup)) ∨
    (result.2 = false ∧ unique = true ∧ ¬ (entries.map Prod.fst).Nodup)

theorem newLayout_maps (n : Nat) : (newLayout n).Maps (fun _ => empty) (fun _ => none) := by
  have asc (cap : Nat) : Layout.SortedKeys (fun _ => empty) cap [] :=
    ⟨List.Pairwise.nil, Nat.zero_le _, fun i fit => absurd fit (Nat.not_lt_zero i)⟩
  unfold newLayout
  split
  · exact ⟨asc _, fun _ => rfl⟩
  · split
    · exact ⟨asc _, fun _ => rfl⟩
    · split
      · exact ⟨⟨fun _ used => absurd rfl used, fun _ used => absurd rfl used,
          fun _ _ used => absurd rfl used, fun _ _ ht => Bool.noConfusion ht,
          (countP_eq_zero.mpr fun _ _ => by simp).symm⟩, fun _ => rfl⟩
      · exact ⟨(countP_eq_zero.mpr fun _ _ => Bool.false_ne_true).symm, fun _ => rfl⟩

theorem minimum_newLayout (two : 2 ≤ n) : (newLayout n).minimum ≤ n := by
  unfold newLayout
  split
  · exact two
  · split
    · simp only [Layout.minimum, node4Capacity] at *
      omega
    · split
      · simp only [Layout.minimum, node16Capacity, node48ShrinkThreshold] at *
        omega
      · simp only [Layout.minimum, node48Capacity, node256ShrinkThreshold] at *
        omega

theorem capacity_newLayout (few : n ≤ 256) : n ≤ (newLayout n).capacity := by
  unfold newLayout
  split
  · assumption
  · split
    · assumption
    · split
      · assumption
      · exact few

theorem insertChild_of_space (space : l.count < l.capacity) (cs : Nat → Node)
    (b : UInt8) (c : Node) : (l.insertChild cs b c).1.minimum = l.minimum ∧
      (l.insertChild cs b c).1.capacity = l.capacity := by
  cases l with
  | node4 k =>
    have room : k.length < node4Capacity := space
    rw [Layout.insertChild, Layout.insertNode4, if_pos room]
    exact ⟨rfl, rfl⟩
  | node16 k =>
    have room : k.length < node16Capacity := space
    rw [Layout.insertChild, Layout.insertNode16, if_pos room]
    exact ⟨rfl, rfl⟩
  | node48 n childIndex =>
    have room : n < node48Capacity := space
    rw [Layout.insertChild, Layout.insertNode48, if_pos room]
    exact ⟨rfl, rfl⟩
  | node256 n => exact ⟨rfl, rfl⟩

/-- An inner node under construction. -/
structure Filling (layout : Layout) (children : Nat → Node) (m : UInt8 → Option Node)
    (least space : Nat) : Prop where
  maps : layout.Maps children m
  wf : ∀ byte child, m byte = some child → WellFormed child
  least_eq : layout.minimum = least
  fits : Layout.size m + space ≤ layout.capacity

variable {m : UInt8 → Option Node}

theorem Filling.insert {space : Nat} (filling : Filling l cs m least (space + 1))
    (free : m byte = none) {c : Node} (wf : WellFormed c) :
    Filling (l.insertChild cs byte c).1 (l.insertChild cs byte c).2
      (Function.update m byte (some c)) least space := by
  have room : l.count < l.capacity := by
    have fits := filling.fits
    rw [filling.maps.count_eq]
    omega
  obtain ⟨minimum, cap⟩ := insertChild_of_space room cs byte c
  refine ⟨filling.maps.insertChild free wf.hasMetadata, fun o got here => ?_,
    minimum.trans filling.least_eq, ?_⟩
  · by_cases eq : o = byte
    · rw [eq, update_self] at here
      cases here
      exact wf
    · rw [update_of_ne eq] at here
      exact filling.wf o got here
  · have fits := filling.fits
    rw [cap, Layout.size_insert free]
    omega

theorem rowsOf_update (free : m byte = none) (c : Node)
    (k : ARTKey) : rowsOf (Function.update m byte (some c)) k =
      rowsOf m k ++ under [byte] (rows c) k := by
  cases k with
  | nil => simp [rowsOf, under]
  | cons o rest =>
    rw [rowsOf, rowsOf, under_singleton]
    by_cases here : o = byte
    · rw [here, update_self, free, if_pos rfl, elim_some, elim_none, nil_append]
    · rw [update_of_ne here, if_neg here, append_nil]

theorem insertSections_cons {construct : List (ARTKey × RowId) → Node × Bool} (ne : es ≠ [])
    (sections : List (List (ARTKey × RowId))) (l : Layout) (cs : Nat → Node) :
    insertSections construct (beneath [byte] es :: sections) l cs =
      let n := l.insertChild cs byte (construct es).1
      if (construct es).2 then insertSections construct sections n.1 n.2
      else (n, false) := by
  have rest : (beneath [byte] es).map (fun entry => (entry.1.tail, entry.2)) = es := by
    simp [beneath, comp_def]
  have last : (((beneath [byte] es).getLast?.map fun entry => entry.1.headD 0)).getD 0 =
      byte := by
    rw [beneath, getLast?_map, getLast?_eq_some_getLast ne]
    rfl
  rw [insertSections, rest, last]

variable {gs : List (UInt8 × List (ARTKey × RowId))}

/-- The loop over the sections: either all children are constructed or one of
them violates the constraint. -/
theorem insertSections_spec {construct : List (ARTKey × RowId) → Node × Bool}
    (each : ∀ grp ∈ gs, grp.2 ≠ [] ∧ Constructed uniq grp.2 (construct grp.2))
    (inc : gs.Pairwise fun a b => a.1 < b.1)
    (filling : Filling l cs m least gs.length)
    (free : ∀ grp ∈ gs, m grp.1 = none) :
    let res := insertSections construct (ungroup gs) l cs
    (res.2 = true ∧ (∃ m', Filling res.1.1 res.1.2 m' least 0 ∧
        Layout.size m' = Layout.size m + gs.length ∧
        ∀ k, rowsOf m' k = rowsOf m k ++ held (ungroup gs).flatten k) ∧
        (uniq = true → ∀ grp ∈ gs, (grp.2.map Prod.fst).Nodup)) ∨
      (res.2 = false ∧ uniq = true ∧ ∃ grp ∈ gs, ¬ (grp.2.map Prod.fst).Nodup) := by
  induction gs generalizing l cs m with
  | nil =>
    refine .inl ⟨rfl, ⟨m, filling, rfl, fun k => ?_⟩, by simp⟩
    rw [ungroup, map_nil, flatten_nil, held, filter_nil, map_nil, append_nil]
  | cons grp gs ih =>
    obtain ⟨ne, built⟩ := each grp (by simp)
    obtain ⟨pre, inc⟩ := pairwise_cons.mp inc
    have vacant : m grp.1 = none := free grp (by simp)
    intro res
    have unfolded : res = _ := insertSections_cons ne (ungroup gs) l cs
    rcases built with ⟨success, wf, rows_eq, nd⟩ | ⟨hfa, huq, twice⟩
    · rw [success, if_pos rfl] at unfolded
      have ho : ∀ o ∈ gs, Function.update m grp.1 (some (construct grp.2).1) o.1 = none := by
        intro o mem
        rw [update_of_ne (pre o mem).ne']
        exact free o (by simp [mem])
      rcases ih (fun o mem => each o (by simp [mem])) inc (filling.insert vacant wf) ho with
        ⟨done, ⟨m', filling', size, rows_eq'⟩, nd'⟩ | ⟨hfa, huq, o, mem, twice⟩
      · rw [unfolded]
        refine .inl ⟨done, ⟨m', filling', ?_, fun k => ?_⟩, fun huq o mem => ?_⟩
        · rw [size, Layout.size_insert vacant, length_cons]
          omega
        · rw [rows_eq', rowsOf_update vacant, funext rows_eq, ← held_beneath, append_assoc,
            ← held_append]
          rfl
        · rcases mem_cons.mp mem with rfl | mem
          · exact nd huq
          · exact nd' huq o mem
      · rw [unfolded]
        exact .inr ⟨hfa, huq, o, by simp [mem], twice⟩
    · rw [hfa] at unfolded
      rw [unfolded]
      exact .inr ⟨rfl, huq, grp, by simp, twice⟩

/-! ## Leaves and sections -/

theorem leafNew_spec {ids : List RowId} (ne : ids ≠ []) :
    WellFormed (Leaf.new ids) ∧ (Leaf.new ids).isLeaf = true ∧
      Leaf.rowIds (Leaf.new ids) = ids := by
  cases ids with
  | nil => exact absurd rfl ne
  | cons fst rest =>
    cases rest with
    | nil => exact ⟨trivial, rfl, rfl⟩
    | cons snd rest =>
      have flat := flatten_chunks leafSize_pos (fst :: snd :: rest)
      refine ⟨⟨chunks_packed leafSize_pos _, ?_⟩, rfl, flat⟩
      rw [flat, length_cons, length_cons]
      omega

theorem constructed_leaf {lo : ARTKey} (ne : es ≠ [])
    (eq : ∀ entry ∈ es, entry.1 = lo) (single : uniq = true → es.length = 1) :
    Constructed uniq es (Prefix.new lo (Leaf.new (es.map Prod.snd)), true) := by
  have hne : es.map Prod.snd ≠ [] := map_eq_nil_iff.not.mpr ne
  obtain ⟨wf, lf, ids⟩ := leafNew_spec hne
  have hp := isPrefixNode_of_isLeaf lf
  refine .inl ⟨rfl, ?_, fun k => ?_, fun huq => ?_⟩
  · rw [new_eq_prepend hp]
    exact wellFormed_prepend wf lo
  · rw [new_eq_prepend hp, rows_prepend, funext (rows_of_isLeaf lf), ids]
    by_cases here : k = lo
    · have all : es.filter (fun entry => entry.1 = k) = es :=
        filter_eq_self.mpr fun entry mem => by simpa [here] using eq entry mem
      have emp : under lo (fun k => if k = [] then es.map Prod.snd else []) lo =
          es.map Prod.snd := by
        have full := under_append_key lo [] (fun k => if k = [] then es.map Prod.snd else [])
        rwa [append_nil] at full
      rw [held, all, here, emp]
    · have none : held es k = [] :=
        (held_eq_nil_iff es k).mpr fun entry mem heq => here (heq ▸ eq entry mem)
      rw [none]
      by_contra got
      obtain ⟨rest, rfl, fit⟩ := exists_of_under_ne_nil got
      cases rest with
      | nil => exact here (append_nil lo)
      | cons byte rest => exact fit rfl
  · obtain ⟨_, rfl⟩ := length_eq_one_iff.mp (single huq)
    exact nodup_singleton _

theorem KeySection.sublist (inp : KeySection es) (sub : part.Sublist es)
    (ne : part ≠ []) : KeySection part where
  nonempty := ne
  sorted := inp.sorted.sublist sub
  free := fun a mem b mem' => inp.free a (sub.mem mem) b (sub.mem mem')

theorem mem_ungroup {rowId : RowId} (mem : (b :: rest, rowId) ∈ (ungroup gs).flatten) :
    ∃ grp ∈ gs, grp.1 = b := by
  obtain ⟨_, here, fit⟩ := mem_flatten.mp mem
  obtain ⟨grp, grouped, rfl⟩ := List.mem_map.mp here
  obtain ⟨_, _, eq⟩ := List.mem_map.mp fit
  exact ⟨grp, grouped, (List.cons.inj (Prod.mk.inj eq).1).1⟩

theorem nodup_ungroup (inc : gs.Pairwise fun a b => a.1 < b.1) :
    ((ungroup gs).flatten.map Prod.fst).Nodup ↔ ∀ grp ∈ gs, (grp.2.map Prod.fst).Nodup := by
  induction gs with
  | nil => simp [ungroup]
  | cons grp gs ih =>
    obtain ⟨pre, inc⟩ := pairwise_cons.mp inc
    have ne : List.Disjoint ((beneath [grp.1] grp.2).map Prod.fst)
        ((ungroup gs).flatten.map Prod.fst) := by
      intro k mem mem'
      obtain ⟨entry, here, rfl⟩ := List.mem_map.mp mem
      obtain ⟨entry, _, rfl⟩ := List.mem_map.mp here
      obtain ⟨⟨k, _⟩, there, eq⟩ := List.mem_map.mp mem'
      have hsp : k = grp.1 :: entry.1 := eq
      subst hsp
      obtain ⟨o, grouped, heq⟩ := mem_ungroup there
      exact absurd heq (pre o grouped).ne'
    have split : (ungroup (grp :: gs)).flatten =
        beneath [grp.1] grp.2 ++ (ungroup gs).flatten := rfl
    rw [split, map_append, nodup_append', nodup_beneath, ih inc,
      and_iff_left ne, forall_mem_cons]

/-! ## The construction -/

theorem KeySection.head_le (inp : KeySection es) (mem : entry ∈ es) :
    (es.head inp.nonempty).1 ≤ entry.1 := by
  obtain ⟨_, _, rfl⟩ := exists_cons_of_ne_nil inp.nonempty
  rcases mem_cons.mp mem with rfl | hl
  · exact le_refl _
  · exact (pairwise_cons.mp inp.sorted).1 entry hl

theorem KeySection.le_getLast (inp : KeySection es) (mem : entry ∈ es) :
    entry.1 ≤ (es.getLast inp.nonempty).1 := by
  have asc := inp.sorted
  have hsp := dropLast_append_getLast inp.nonempty
  rw [← hsp, pairwise_append] at asc
  rw [← hsp] at mem
  rcases mem_append.mp mem with pre | here
  · exact asc.2.2 entry pre _ (by simp)
  · rw [mem_singleton.mp here]

/-- The keys of a section whose first and last key part after `com`. -/
theorem KeySection.exists_groups (inp : KeySection es) {rest' : ARTKey} {a b : UInt8}
    (apart : a ≠ b) (fst : (es.head inp.nonempty).1 = com ++ a :: rest)
    (last : (es.getLast inp.nonempty).1 = com ++ b :: rest') :
    ∃ gs, childSections (es.map fun e => (e.1.drop com.length, e.2)) =
        ungroup gs ∧ es = beneath com (ungroup gs).flatten ∧
      (∀ grp ∈ gs, grp.2 ≠ []) ∧ gs.Pairwise (fun a b => a.1 < b.1) ∧
      2 ≤ gs.length := by
  -- every key lies between the first and the last one
  have common : ∀ e ∈ es, ∃ more, e.1 = com ++ more ∧ more ≠ [] := by
    intro e mem
    obtain ⟨more, eq⟩ : com <+: e.1 :=
      isPrefix_of_between (fst ▸ prefix_append _ _) (last ▸ prefix_append _ _)
        (inp.head_le mem) (inp.le_getLast mem)
    refine ⟨more, eq.symm, ?_⟩
    rintro rfl
    rw [append_nil] at eq
    have full := inp.free e mem _ (head_mem inp.nonempty)
      (by rw [fst, ← eq]; exact prefix_append _ _)
    rw [fst, ← eq] at full
    simp at full
  generalize ps : es.map (fun e => (e.1.drop com.length, e.2)) = dr
  have restored : es = beneath com dr := by
    rw [← ps, beneath, List.map_map]
    conv_lhs => rw [← List.map_id es]
    apply map_congr_left
    intro e mem
    obtain ⟨more, eq, _⟩ := common e mem
    simp only [comp_apply, eq, drop_left, id_eq]
    rw [← eq]
  have hpr : ∀ e ∈ dr, e.1 ≠ [] := by
    intro e mem
    rw [← ps] at mem
    obtain ⟨e, here, rfl⟩ := List.mem_map.mp mem
    obtain ⟨more, eq, ne⟩ := common e here
    rwa [eq, drop_left]
  have asc := (restored ▸ inp).of_beneath.sorted
  obtain ⟨gs, sections, ne, inc⟩ := childSections_eq asc hpr
  have full : (ungroup gs).flatten = dr := by
    rw [← sections, childSections, flatten_splitBy]
  have grouped {e : ARTKey × RowId} {c : UInt8} {more : ARTKey} (mem : e ∈ es)
      (eq : e.1 = com ++ c :: more) : ∃ grp ∈ gs, grp.1 = c := by
    have fit : (c :: more, e.2) ∈ dr := by
      rw [← ps]
      refine List.mem_map.mpr ⟨e, mem, ?_⟩
      rw [eq, drop_left]
    exact mem_ungroup (full ▸ fit)
  refine ⟨gs, sections, full ▸ restored, ne, inc, ?_⟩
  obtain ⟨_, mem, rfl⟩ := grouped (head_mem inp.nonempty) fst
  obtain ⟨_, mem', rfl⟩ := grouped (getLast_mem inp.nonempty) last
  by_contra few
  have one : gs.length ≤ 1 := by omega
  match gs, one with
  | [], _ => exact absurd mem (not_mem_nil)
  | [only], _ =>
    rw [mem_singleton] at mem mem'
    exact apart (by rw [mem, mem'])

theorem constructed_branch {construct : List (ARTKey × RowId) → Node × Bool} (com : Bytes)
    (each : ∀ grp ∈ gs, grp.2 ≠ [] ∧ Constructed uniq grp.2 (construct grp.2))
    (increasing : gs.Pairwise fun a b => a.1 < b.1) (two : 2 ≤ gs.length) :
    let n := insertSections construct (ungroup gs) (newLayout gs.length) fun _ => empty
    Constructed uniq (beneath com (ungroup gs).flatten)
      (Prefix.new com (branch n.1.1 n.1.2), n.2) := by
  have few : gs.length ≤ 256 := by
    have nd : (gs.map Prod.fst).Nodup := pairwise_map.mpr (increasing.imp fun less => less.ne)
    have bound := (nd.subperm fun byte _ => mem_allBytes byte).length_le
    rwa [length_map, length_allBytes] at bound
  have lo : Filling (newLayout gs.length) (fun _ => empty) (fun _ => none)
      (newLayout gs.length).minimum gs.length := by
    refine ⟨newLayout_maps _, fun _ _ found => absurd found (by simp), rfl, ?_⟩
    rw [Layout.size_none, Nat.zero_add]
    exact capacity_newLayout few
  intro n
  rw [Constructed, nodup_beneath, nodup_ungroup increasing]
  rcases insertSections_spec each increasing lo (fun _ _ => rfl) with
    ⟨success, ⟨_, filling, size, rows_eq⟩, nd⟩ | ⟨failed, constrained, grp, mem, twice⟩
  · refine .inl ⟨success, ?_, fun k => ?_, nd⟩
    · rw [new_eq_prepend rfl]
      refine wellFormed_prepend (WellFormed.of_maps filling.maps ?_ filling.wf) com
      rw [filling.least_eq, filling.maps.count_eq, size, Layout.size_none, Nat.zero_add]
      exact minimum_newLayout two
    · have nothing (k : ARTKey) : rowsOf (fun _ => none) k = [] := by
        cases k <;> rfl
      rw [new_eq_prepend rfl, rows_prepend, held_beneath]
      congr 1
      funext k
      rw [rows_of_maps filling.maps, rows_eq, nothing, nil_append]
  · exact .inr ⟨failed, constrained, fun all => twice (all grp mem)⟩

/-- Enough fuel builds the tree of a section, unless a unique index has a key
twice. -/
theorem construct_spec (uniq : Bool) {fuel : Nat}
    (inp : KeySection es) (enough : ∀ entry ∈ es, entry.1.length < fuel) :
    Constructed uniq es (construct uniq fuel es) := by
  induction fuel generalizing es with
  | zero =>
    exact absurd (enough _ (head_mem inp.nonempty)) (Nat.not_lt_zero _)
  | succ fuel ih =>
    have mem := head_mem inp.nonempty
    have mem' := getLast_mem inp.nonempty
    have lo : (es.head?.map Prod.fst).getD [] = (es.head inp.nonempty).1 := by
      rw [head?_eq_some_head inp.nonempty, map_some, getD_some]
    have last : (es.getLast?.map Prod.fst).getD [] = (es.getLast inp.nonempty).1 := by
      rw [getLast?_eq_some_getLast inp.nonempty, map_some, getD_some]
    rw [construct, lo, last]
    rcases agreement_cases _ _ (fun related => related.elim (inp.free _ mem _ mem')
      fun pre => (inp.free _ mem' _ mem pre).symm) with
      ⟨eq, depth⟩ | ⟨com, _, _, _, _, fst, final, hne, depth⟩
    · have all : ∀ entry ∈ es, entry.1 = (es.head inp.nonempty).1 := by
        intro entry fit
        exact le_antisymm (eq ▸ inp.le_getLast fit) (inp.head_le fit)
      rw [if_pos depth]
      split
      · next twice =>
          rw [Bool.and_eq_true, bne_iff_ne] at twice
          refine .inr ⟨rfl, twice.1, fun nd => twice.2 ?_⟩
          have copies := eq_replicate_of_mem (l := es.map Prod.fst) fun k here => by
            obtain ⟨entry, fit, rfl⟩ := List.mem_map.mp here
            exact all entry fit
          rw [copies, nodup_replicate, length_map] at nd
          have positive := length_pos_iff.mpr inp.nonempty
          omega
      · next single =>
          refine constructed_leaf inp.nonempty all fun huq => ?_
          simpa [huq] using single
    · have hpr : ¬ com.length = (es.head inp.nonempty).1.length := by
        rw [fst]
        simp
      obtain ⟨gs, sections, full, ne, increasing, two⟩ := inp.exists_groups hne fst final
      have size : (ungroup gs).length = gs.length := length_map _
      rw [depth, if_neg hpr, sections, fst, take_left]
      dsimp only
      rw [size]
      have each : ∀ grp ∈ gs, grp.2 ≠ [] ∧ Constructed uniq grp.2 (construct uniq fuel grp.2) := by
        intro grp grouped
        have part : (beneath com (beneath [grp.1] grp.2)).Sublist es := by
          rw [full]
          have member : beneath [grp.1] grp.2 ∈ ungroup gs := List.mem_map.mpr ⟨grp, grouped, rfl⟩
          exact beneath_sublist com (sublist_flatten_of_mem member)
        have filled : beneath com (beneath [grp.1] grp.2) ≠ [] := by
          simpa [beneath] using ne grp grouped
        refine ⟨ne grp grouped,
          ih (inp.sublist part filled).of_beneath.of_beneath fun entry fit => ?_⟩
        have short := enough (com ++ ([grp.1] ++ entry.1), entry.2)
          (part.subset (mem_beneath (mem_beneath fit)))
        simp only [length_append, length_singleton] at short
        omega
      have built := constructed_branch com each increasing two
      rwa [← full] at built

end ART

end AccessPath
