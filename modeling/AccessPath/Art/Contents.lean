import AccessPath.Art.LayoutMaps
import AccessPath.Art.Operations

/-!
# What a tree holds

`rows` reads a tree as a map from keys to row IDs, and `WellFormed` is the
invariant that every operation keeps. Prefix nodes are handled through
`prepend`, the packed way to put bytes in front of a node.
-/

namespace AccessPath

open Library Node List Option Function

variable {key : ARTKey} {i : Nat} {m : UInt8 → Option Node}

/-! ## Reading a tree -/

/-- Read the keys that start with `front` through their rest. -/
def under {α : Type*} (front : Bytes) (read : ARTKey → List α) (key : ARTKey) : List α :=
  if front <+: key then read (key.drop front.length) else []

section

variable {α : Type*} {front : Bytes} {read : ARTKey → List α} {k : ARTKey}

@[simp] theorem under_append_key (pre xs : Bytes) (read : ARTKey → List α) :
    under pre read (pre ++ xs) = read xs := by
  rw [under, if_pos (prefix_append _ _), drop_left]

theorem under_of_not_isPrefix (apart : ¬ front <+: k) : under front read k = [] := if_neg apart

@[simp] theorem under_nil (read : ARTKey → List α) : under [] read = read := by
  funext k
  simp [under]

theorem under_under (fr next : Bytes) (read : ARTKey → List α) :
    under fr (under next read) = under (fr ++ next) read := by
  funext k
  by_cases pre : fr <+: k
  · obtain ⟨xs, rfl⟩ := pre
    rw [under_append_key]
    by_cases aft : next <+: xs
    · obtain ⟨_, rfl⟩ := aft
      rw [under_append_key, ← append_assoc, under_append_key]
    · rw [under_of_not_isPrefix aft, under_of_not_isPrefix]
      rwa [prefix_append_right_inj]
  · rw [under_of_not_isPrefix pre, under_of_not_isPrefix]
    exact fun full => pre ((prefix_append _ _).trans full)

theorem under_singleton (b o : UInt8) (xs : ARTKey) (read : ARTKey → List α) :
    under [b] read (o :: xs) = if o = b then read xs else [] := by
  by_cases here : o = b
  · rw [if_pos here, here]
    exact under_append_key [b] xs read
  · rw [if_neg here, under_of_not_isPrefix]
    rw [cons_prefix_cons]
    exact fun pre => here pre.1.symm

/-- What is read under a prefix is read at keys that start with it. -/
theorem exists_of_under_ne_nil (ne : under front read k ≠ []) :
    ∃ xs, k = front ++ xs ∧ read xs ≠ [] := by
  by_cases pre : front <+: k
  · obtain ⟨xs, rfl⟩ := pre
    rw [under_append_key] at ne
    exact ⟨xs, rfl, ne⟩
  · exact absurd (under_of_not_isPrefix pre) ne

end

variable {n : Node} {children : Nat → Node} {layout : Layout} {b byte : UInt8}

namespace Node

/-- The row IDs under a key. -/
def rows : Node → ARTKey → List RowId
  | empty, _ => []
  | prefixNode data next, key => under data (rows next) key
  | leafInlined rowId, key => if key = [] then [rowId] else []
  | leaf segments, key => if key = [] then segments.flatten else []
  | branch _ _, [] => []
  | branch layout children, byte :: key =>
    match layout.slot children byte with
    | none => []
    | some i => rows (children i) key

/-- The invariant of a tree that is not empty. -/
def WellFormed : Node → Prop
  | empty => False
  | prefixNode data next =>
    (0 < data.length ∧ data.length ≤ prefixSize) ∧
      (next.isPrefixNode = true → data.length = prefixSize) ∧ WellFormed next
  | leafInlined _ => True
  | leaf segments => Packed leafSize segments ∧ 2 ≤ segments.flatten.length
  | branch layout children =>
    layout.Valid children ∧ layout.minimum ≤ layout.count ∧
      ∀ byte i, layout.slot children byte = some i → WellFormed (children i)

theorem WellFormed.hasMetadata (wf : WellFormed n) : n.hasMetadata = true := by
  cases n with
  | empty => exact wf.elim
  | _ => rfl

theorem WellFormed.ne_empty (wf : WellFormed n) : n ≠ empty := (hasMetadata_iff n).mp wf.hasMetadata

/-- The row IDs of an inner node with the given children. -/
def rowsOf (m : UInt8 → Option Node) : ARTKey → List RowId
  | [] => []
  | byte :: key => (m byte).elim [] fun child => rows child key

theorem rows_branch (l : Layout) (cs : Nat → Node) (k : ARTKey) :
    rows (branch l cs) k = rowsOf (l.getChild cs) k := by
  cases k with
  | nil => rfl
  | cons byte k =>
    simp only [rows, rowsOf, Layout.getChild]
    cases l.slot cs byte <;> rfl

theorem rowsOf_congr {m' : UInt8 → Option Node} (eq : ∀ byte, m byte = m' byte) :
    rowsOf m = rowsOf m' := by
  rw [funext eq]

/-- An inner node is well formed when it maps bytes to well-formed children. -/
theorem wellFormed_branch_iff (l : Layout) (cs : Nat → Node) : WellFormed (branch l cs) ↔
      l.Maps cs (l.getChild cs) ∧ l.minimum ≤ l.count ∧
        ∀ byte c, l.getChild cs byte = some c → WellFormed c := by
  constructor
  · intro wf
    obtain ⟨hv, hn, each⟩ := wf
    refine ⟨⟨hv, fun _ => rfl⟩, hn, fun byte c got => ?_⟩
    obtain ⟨i, hi, rfl⟩ := map_eq_some_iff.mp got
    exact each byte i hi
  · intro ps
    obtain ⟨maps, hn, each⟩ := ps
    refine ⟨maps.valid, hn, fun byte i hi => each byte (cs i) ?_⟩
    rw [Layout.getChild, hi, map_some]

theorem WellFormed.of_maps (maps : layout.Maps children m) (le : layout.minimum ≤ layout.count)
    (each : ∀ byte c, m byte = some c → WellFormed c) : WellFormed (branch layout children) := by
  have view : layout.getChild children = m := funext maps.child
  subst view
  exact (wellFormed_branch_iff layout children).mpr ⟨maps, le, each⟩

theorem rows_of_maps (maps : layout.Maps children m) (k : ARTKey) :
    rows (branch layout children) k = rowsOf m k := by
  rw [rows_branch, rowsOf_congr maps.child]

theorem getChild_of_slot (got : layout.slot children byte = some i) :
    layout.getChild children byte = some (children i) := by
  rw [Layout.getChild, got, map_some]

theorem getChild_of_no_slot
    (free : layout.slot children byte = none) : layout.getChild children byte = none := by
  rw [Layout.getChild, free, map_none]

section

variable {l l' : Layout} {cs cs' : Nat → Node} {c : Node}
  (maps : l'.Maps cs' (update (l.getChild cs) byte (some c)))
include maps

/-- Another child at a byte, in place of the old one or where there was none. -/
theorem WellFormed.of_update (le : l'.minimum ≤ l'.count) (wf : WellFormed (branch l cs))
    (wf' : WellFormed c) : WellFormed (branch l' cs') := by
  apply WellFormed.of_maps maps le
  intro o got here
  by_cases eq : o = byte
  · rw [eq, update_self] at here
    cases here
    exact wf'
  · rw [update_of_ne eq] at here
    exact ((wellFormed_branch_iff l cs).mp wf).2.2 o got here

theorem rows_of_update (o : UInt8) (xs : ARTKey) : rows (branch l' cs') (o :: xs) =
      if o = byte then rows c xs else rows (branch l cs) (o :: xs) := by
  rw [rows_of_maps maps, rows_branch, rowsOf, rowsOf]
  by_cases eq : o = byte
  · rw [if_pos eq, eq, update_self, elim_some]
  · rw [if_neg eq, update_of_ne eq]

end

section

variable {l : Layout} {cs : Nat → Node} {b : UInt8} {c : Node}

section

variable (wf : WellFormed (branch l cs))
include wf

theorem maps_replaced (got : l.slot cs b = some i) (wf' : WellFormed c) :
    l.Maps (update cs i c) (update (l.getChild cs) b (some c)) := by
  have ht : (l.getChild cs b).isSome := by
    rw [getChild_of_slot got, isSome_some]
  have hrp := ((wellFormed_branch_iff l cs).mp wf).1.replaceChild ht wf'.hasMetadata
  rwa [Layout.replaceChild, got] at hrp

theorem WellFormed.replaced (got : l.slot cs b = some i) (wf' : WellFormed c) :
    WellFormed (branch l (update cs i c)) :=
  WellFormed.of_update (maps_replaced wf got wf') wf.2.1 wf wf'

theorem maps_inserted (free : l.slot cs b = none) (wf' : WellFormed c) :
    (l.insertChild cs b c).1.Maps (l.insertChild cs b c).2 (update (l.getChild cs) b (some c)) :=
  ((wellFormed_branch_iff l cs).mp wf).1.insertChild (getChild_of_no_slot free) wf'.hasMetadata

theorem WellFormed.inserted (free : l.slot cs b = none) (wf' : WellFormed c) :
    WellFormed (branch (l.insertChild cs b c).1 (l.insertChild cs b c).2) :=
  WellFormed.of_update (maps_inserted wf free wf') (Layout.minimum_le_insertChild wf.2.1 _ _) wf wf'

end

end

theorem rows_of_isLeaf (leaf : n.isLeaf = true) (k : ARTKey) :
    rows n k = if k = [] then Leaf.rowIds n else [] := by
  cases n <;> first | rfl | simp [isLeaf] at leaf

theorem rowIds_ne_nil (wf : WellFormed n) (leaf : n.isLeaf = true) : Leaf.rowIds n ≠ [] := by
  cases n with
  | leafInlined rowId => simp [Leaf.rowIds]
  | leaf segs =>
    have two : 2 ≤ segs.flatten.length := wf.2
    rw [Leaf.rowIds, ← length_pos_iff]
    omega
  | _ => simp [isLeaf] at leaf

theorem rows_leaf_ne_nil (wf : WellFormed n) (lf : n.isLeaf = true) : rows n [] ≠ [] := by
  rw [rows_of_isLeaf lf, if_pos rfl]
  exact rowIds_ne_nil wf lf

theorem isPrefixNode_of_isLeaf (leaf : n.isLeaf = true) : n.isPrefixNode = false := by
  cases n <;> first | rfl | simp [isLeaf] at leaf

end Node

/-! ## Prefixes -/

variable {data : Bytes}

namespace Prefix

theorem prefixSize_pos : 0 < prefixSize := by decide

theorem isPrefixNode_base (n : Node) : (base n).isPrefixNode = false := by
  induction n with
  | prefixNode data next ih => exact ih
  | _ => rfl

theorem segments_eq_nil_iff (n : Node) : segments n = [] ↔ n.isPrefixNode = false := by
  cases n <;> simp [segments, isPrefixNode]

theorem base_of_not_prefixNode (plain : n.isPrefixNode = false) : base n = n := by
  cases n <;> first | rfl | simp [isPrefixNode] at plain

theorem segments_chain (hp : n.isPrefixNode = false) (hi : List Bytes) :
    segments (chain hi n) = hi := by
  induction hi with
  | nil => exact (segments_eq_nil_iff n).mpr hp
  | cons data hi ih => rw [chain_cons, segments, ih]

theorem base_chain (hp : n.isPrefixNode = false) (hi : List Bytes) :
    base (chain hi n) = n := by
  induction hi with
  | nil => exact base_of_not_prefixNode hp
  | cons data hi ih => rw [chain_cons, base, ih]

/-- A tree is well formed when its prefix nodes are packed and the node behind
them is well formed. -/
theorem wellFormed_iff (n : Node) :
    WellFormed n ↔ Packed prefixSize (segments n) ∧ WellFormed (base n) := by
  induction n with
  | prefixNode data next ih =>
    rw [segments, base, packed_cons_iff prefixSize_pos, ← and_assoc]
    simp only [WellFormed, ih, ne_eq, segments_eq_nil_iff, Bool.not_eq_false]
    tauto
  | _ => simp [segments, base, Packed]

/-- The bytes of the prefix nodes. -/
def bytes (node : Node) : Bytes := (segments node).flatten

/-- Bytes in front of a node, in packed prefix nodes. -/
def prepend (front : Bytes) (node : Node) : Node :=
  chain (chunks prefixSize (front ++ bytes node)) (base node)

theorem wellFormed_prepend (wf : WellFormed n) (pre : Bytes) : WellFormed (prepend pre n) := by
  have hp := isPrefixNode_base n
  rw [wellFormed_iff, prepend, segments_chain hp, base_chain hp]
  exact ⟨chunks_packed prefixSize_pos _, ((wellFormed_iff n).mp wf).2⟩

theorem bytes_prepend (pre : Bytes) (n : Node) : bytes (prepend pre n) = pre ++ bytes n := by
  rw [bytes, prepend, segments_chain (isPrefixNode_base n), flatten_chunks prefixSize_pos]

theorem base_prepend (pre : Bytes) (n : Node) : base (prepend pre n) = base n := by
  rw [prepend, base_chain (isPrefixNode_base n)]

theorem prepend_prepend (pre next : Bytes) (n : Node) :
    prepend pre (prepend next n) = prepend (pre ++ next) n := by
  rw [prepend, bytes_prepend, base_prepend, prepend, append_assoc]

theorem prepend_nil (wf : WellFormed n) : prepend [] n = n := by
  have hp := ((wellFormed_iff n).mp wf).1
  rw [prepend, nil_append, bytes, ← hp.eq_chunks prefixSize_pos, chain_segments_base]

variable {above : List Bytes}

theorem chain_eq_prepend (wf : WellFormed (chain above n)) :
    chain above n = prepend above.flatten n := by
  have flat : bytes (chain above n) = above.flatten ++ bytes n := by
    clear wf
    induction above with
    | nil => rfl
    | cons data above ih =>
      rw [chain_cons, bytes, segments, flatten_cons, ← bytes, ih, flatten_cons, append_assoc]
  have last : base (chain above n) = base n := by
    clear wf flat
    induction above with
    | nil => rfl
    | cons data above ih => rw [chain_cons, base, ih]
  rw [← prepend_nil wf, prepend, flat, last, nil_append, prepend]

theorem rows_chain (hi : List Bytes) (n : Node) :
    rows (chain hi n) = under hi.flatten (rows n) := by
  induction hi with
  | nil => simp
  | cons data hi ih =>
    funext key
    rw [chain_cons, rows, ih, under_under, flatten_cons]

theorem rows_prepend (pre : Bytes) (n : Node) : rows (prepend pre n) = under pre (rows n) := by
  conv_rhs => rw [← chain_segments_base n]
  rw [prepend, rows_chain, flatten_chunks prefixSize_pos, rows_chain, under_under, bytes]

theorem prepend_ne_empty (wf : WellFormed n) (pre : Bytes) : prepend pre n ≠ empty :=
  (wellFormed_prepend wf pre).ne_empty

/-! ### The operations as `prepend` -/

theorem append_eq_pushAll (chain o : List Bytes) :
    append chain o = pushAll prefixSize chain o.flatten := by
  induction o generalizing chain with
  | nil => rfl
  | cons data o ih =>
    rw [append, foldl_cons, ← append, ih, flatten_cons, pushAll, pushAll, pushAll, foldl_append]

theorem chain_append_segments (pack : Packed prefixSize above) (n : Node) :
    chain (append above (segments n)) (base n) = prepend above.flatten n := by
  have result : Packed prefixSize (append above (segments n)) := by
    rw [append_eq_pushAll]
    exact pack.pushAll prefixSize_pos _
  rw [result.eq_chunks prefixSize_pos, append_eq_pushAll, flatten_pushAll, prepend, bytes]

theorem new_eq_prepend (plain : n.isPrefixNode = false) (k : Bytes) : new k n = prepend k n := by
  rw [new, prepend, bytes, (segments_eq_nil_iff n).mpr plain, base_of_not_prefixNode plain,
    flatten_nil, append_nil]

theorem concatenate_eq_prepend (pack : Packed prefixSize above) (b : UInt8) (c : Node) :
    concatenate above b c = prepend (above.flatten ++ [b]) c := by
  cases above with
  | nil =>
    have single : Packed prefixSize [[b]] := ⟨Nat.one_pos, prefixSize_pos⟩
    exact chain_append_segments single c
  | cons data above =>
    rw [concatenate, chain_append_segments (pack.push prefixSize_pos b), flatten_push]
    simp

theorem reduce_eq_prepend {next : Node} (wf : WellFormed (prefixNode data next))
    {n : Nat} (lt : n < data.length) :
    reduce data next n = prepend (data.drop (n + 1)) next := by
  unfold reduce
  split
  · next last =>
      rw [drop_eq_nil_of_le (by omega), prepend_nil wf.2.2]
  · have hp : Packed prefixSize [data.drop (n + 1)] := by
      have fits := wf.1.2
      refine ⟨?_, ?_⟩ <;> rw [length_drop] <;> omega
    rw [chain_append_segments hp]
    simp

theorem splitChild_eq_prepend {next : Node} (wf : WellFormed (prefixNode data next))
    {pos : Nat} (lt : pos < data.length) :
    splitChild data next pos = prepend (data.drop (pos + 1)) next := by
  have fits := wf.1.2
  unfold splitChild
  split
  · rw [drop_eq_nil_of_le (by omega), prepend_nil wf.2.2]
  · split
    · next more =>
        have started : pushAll prefixSize [[]] (data.drop (pos + 1)) =
            pushAll prefixSize [] (data.drop (pos + 1)) := by
          cases xs : data.drop (pos + 1) with
          | nil =>
            have hsh := congrArg List.length xs
            rw [length_drop, length_nil] at hsh
            omega
          | cons byte xs => rfl
        have hp : Packed prefixSize (pushAll prefixSize [] (data.drop (pos + 1))) :=
          Packed.pushAll prefixSize_pos (show Packed prefixSize [] from trivial) _
        rw [started, chain_append_segments hp, flatten_pushAll, flatten_nil, nil_append]
    · rw [drop_eq_nil_of_le (by omega), prepend_nil wf.2.2]

theorem prefixNode_eq_prepend (wf : WellFormed (prefixNode data n)) :
    prefixNode data n = prepend data n := by
  have eq : chain [data] n = prepend [data].flatten n := chain_eq_prepend wf
  simpa using eq

theorem splitNode_eq_prepend (fits : data.length ≤ prefixSize) {pos : Nat}
    (lt : pos < data.length) (wf : WellFormed n) (plain : n.isPrefixNode = false) :
    splitNode data pos n = prepend (data.take pos) n := by
  have proper (positive : 0 < pos) : prefixNode (data.take pos) n = prepend (data.take pos) n := by
    apply prefixNode_eq_prepend
    refine ⟨?_, fun hch => ?_, wf⟩
    · rw [length_take]
      omega
    · rw [plain] at hch
      exact absurd hch Bool.false_ne_true
  unfold splitNode
  split
  · next last =>
      have length : data.length - 1 = pos := by
        omega
      rw [length]
      exact proper (by simp only [prefixSize] at last; omega)
  · split
    · next fst => rw [fst, take_zero, prepend_nil wf]
    · next hl => exact proper (Nat.pos_of_ne_zero hl)

/-! ### Comparing with a key -/

/-- A prefix node that the key does not end inside of matches it or differs at
a byte. -/
theorem mismatchPosition_cases (data : Bytes) (k : ARTKey)
    (fit : k <+: data → data.length ≤ k.length) : (mismatchPosition data k = none ∧ data <+: k) ∨
      ∃ shared a b restD restK, data = shared ++ a :: restD ∧ k = shared ++ b :: restK ∧ a ≠ b ∧
        mismatchPosition data k = some shared.length := by
  induction data generalizing k with
  | nil => exact .inl ⟨rfl, nil_prefix⟩
  | cons byte data ih =>
    cases k with
    | nil =>
      have hsh := fit nil_prefix
      simp at hsh
    | cons byte' k =>
      rw [mismatchPosition, headD_cons, tail_cons]
      by_cases eq : byte = byte'
      · subst eq
        have hl : k <+: data → data.length ≤ k.length := by
          intro pre
          have hb := fit ((prefix_cons_inj byte).mpr pre)
          simpa using hb
        rcases ih k hl with
          ⟨matched, pre⟩ | ⟨shared, a, b, restD, restK, rfl, rfl, apart, hi⟩
        · left
          simp [matched, pre]
        · right
          refine ⟨byte :: shared, a, b, restD, restK, rfl, rfl, apart, ?_⟩
          simp [hi]
      · right
        refine ⟨[], byte, byte', data, k, rfl, rfl, eq, ?_⟩
        simp [eq]

end Prefix

/-! ## Keys beside the stored ones -/

namespace Node

/-- The key is not a proper prefix of a stored key, nor the other way round. -/
def Compatible (node : Node) (key : ARTKey) : Prop :=
  ∀ stored, rows node stored ≠ [] → stored <+: key ∨ key <+: stored → stored = key

theorem WellFormed.exists_row (wf : WellFormed n) : ∃ sto, rows n sto ≠ [] := by
  induction n with
  | empty => exact wf.elim
  | prefixNode data next ih =>
    obtain ⟨sto, got⟩ := ih wf.2.2
    refine ⟨data ++ sto, ?_⟩
    rwa [rows, under_append_key]
  | leafInlined rowId => exact ⟨[], by simp [rows]⟩
  | leaf segs =>
    exact ⟨[], rows_leaf_ne_nil wf rfl⟩
  | branch layout children ih =>
    obtain ⟨maps, _, _⟩ := (wellFormed_branch_iff layout children).mp wf
    have pos : 0 < Layout.size (layout.getChild children) := by
      rw [← maps.count_eq]
      have least : 0 < layout.minimum := by
        cases layout <;> simp only [Layout.minimum] <;> decide
      omega
    obtain ⟨byte, _, ht⟩ := countP_pos_iff.mp pos
    obtain ⟨i, hi, _⟩ := map_eq_some_iff.mp (some_get ht).symm
    obtain ⟨sto, got⟩ := ih i (wf.2.2 byte i hi)
    refine ⟨byte :: sto, ?_⟩
    simpa only [rows, hi] using got

theorem Compatible.next {next : Node} {xs : ARTKey}
    (comp : Compatible (prefixNode data next) (data ++ xs)) : Compatible next xs := by
  intro sto got related
  have full := comp (data ++ sto) (by rwa [rows, under_append_key]) (by
    simpa only [prefix_append_right_inj] using related)
  exact append_cancel_left full

theorem Compatible.child {xs : ARTKey} (comp : Compatible (branch layout children) (b :: xs))
    (spot : layout.slot children b = some i) : Compatible (children i) xs := by
  intro sto got related
  have full := comp (b :: sto) (by simpa only [rows, spot] using got) (by
    simpa only [prefix_cons_inj] using related)
  exact (List.cons.inj full).2

theorem Compatible.eq_nil (comp : Compatible n key) (wf : WellFormed n)
    (leaf : n.isLeaf = true) : key = [] := by
  exact (comp [] (rows_leaf_ne_nil wf leaf) (.inl nil_prefix)).symm

theorem Compatible.exists_cons (comp : Compatible (branch layout children) key)
    (wf : WellFormed (branch layout children)) : ∃ byte xs, key = byte :: xs := by
  cases key with
  | cons byte xs => exact ⟨byte, xs, rfl⟩
  | nil =>
    obtain ⟨sto, got⟩ := wf.exists_row
    have ended := comp sto got (.inr nil_prefix)
    subst ended
    exact absurd rfl got

theorem Compatible.inside {next : Node} (comp : Compatible (prefixNode data next) key)
    (wf : WellFormed (prefixNode data next)) : key <+: data → data.length ≤ key.length := by
  intro pre
  obtain ⟨sto, _⟩ := wf.2.2.exists_row
  have full := comp (data ++ sto) (by rwa [rows, under_append_key])
    (.inr (pre.trans (prefix_append _ _)))
  rw [← full, length_append]
  omega

end Node

end AccessPath
