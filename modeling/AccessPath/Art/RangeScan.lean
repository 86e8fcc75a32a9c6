import AccessPath.Art.Iterator
import AccessPath.Art.Reachable

/-!
# Range scans

The entries of a tree in key order, and the entries that an iterator has still
to visit. `FindMinimum`, `Next` and `LowerBound` each set the iterator to a
suffix of the entries, and `Scan` collects their row IDs up to the bound.
-/

namespace AccessPath

open Library Node Prefix Nat
open List hiding after

/-- A key with its row IDs. -/
abbrev Posting := ARTKey × List RowId

variable {bd key : ARTKey} {it : Iterator} {l : List Posting} {fuel : Nat} {a b : UInt8}

/-- Bytes in front of the key. -/
def shift (front : Bytes) (posting : Posting) : Posting := (front ++ posting.1, posting.2)

theorem shift_shift (pre next : Bytes) (p : Posting) :
    shift pre (shift next p) = shift (pre ++ next) p := by
  rw [shift, shift, shift, append_assoc]

theorem map_shift_shift (pre next : Bytes) (ps : List Posting) :
    (ps.map (shift next)).map (shift pre) = ps.map (shift (pre ++ next)) := by
  rw [List.map_map]
  exact map_congr_left fun p _ => shift_shift pre next p

variable {n : Node} {byte : UInt8} {posting : Posting}

namespace Node

/-- The keys of a tree in order, with their row IDs. -/
def postings : Node → List Posting
  | empty => []
  | prefixNode data next => (postings next).map (shift data)
  | branch layout children =>
    allBytes.flatMap fun byte =>
      match layout.slot children byte with
      | none => []
      | some i => (postings (children i)).map (shift [byte])
  | leafInlined rowId => [([], [rowId])]
  | leaf segments => [([], segments.flatten)]

/-- The postings below one byte. -/
def postingsAt (layout : Layout) (children : Nat → Node) (byte : UInt8) : List Posting :=
  match layout.slot children byte with
  | none => []
  | some i => (postings (children i)).map (shift [byte])

/-- The postings from a byte on. -/
def postingsFrom (layout : Layout) (children : Nat → Node) (least : Nat) : List Posting :=
  allBytes.flatMap fun byte => if least ≤ byte.toNat then postingsAt layout children byte else []

section

variable {l : Layout} {cs : Nat → Node}

theorem postings_branch : postings (branch l cs) = postingsFrom l cs 0 := by
  simp only [postings, postingsFrom, zero_le, if_true]
  rfl

theorem postings_of_isLeaf (leaf : n.isLeaf = true) : postings n = [([], Leaf.rowIds n)] := by
  cases n <;> first | rfl | simp [isLeaf] at leaf

theorem postingsAt_some {i : Nat} (got : l.slot cs byte = some i) :
    postingsAt l cs byte = (postings (cs i)).map (shift [byte]) := by
  rw [postingsAt, got]

theorem postingsAt_none (free : l.slot cs byte = none) : postingsAt l cs byte = [] := by
  rw [postingsAt, free]

theorem postingsFrom_eq_nil {least : Nat}
    (free : ∀ byte : UInt8, least ≤ byte.toNat → l.slot cs byte = none) :
    postingsFrom l cs least = [] := by
  refine flatMap_eq_nil_iff.mpr fun byte _ => ?_
  split
  · next high => exact postingsAt_none (free byte high)
  · rfl

theorem allBytes_split (b : UInt8) :
    ∃ pre aft, allBytes = pre ++ b :: aft ∧ (∀ o ∈ pre, o < b) ∧ ∀ o ∈ aft, b < o := by
  obtain ⟨pre, aft, split⟩ := append_of_mem (mem_allBytes b)
  have asc := allBytes_sorted
  rw [split, pairwise_append, pairwise_cons] at asc
  exact ⟨pre, aft, split, fun o mem => asc.2.2 o mem b (by simp), asc.2.1.1⟩

theorem postingsFrom_next {least : Nat} (low : least ≤ byte.toNat)
    (free : ∀ o : UInt8, least ≤ o.toNat → o < byte →
      l.slot cs o = none) : postingsFrom l cs least =
      postingsAt l cs byte ++ postingsFrom l cs (byte.toNat + 1) := by
  obtain ⟨pre, aft, split, less, more⟩ := allBytes_split byte
  have first : (pre.flatMap fun o => if least ≤ o.toNat then postingsAt l cs o else []) = [] := by
    refine flatMap_eq_nil_iff.mpr fun o mem => ?_
    split
    · next high => exact postingsAt_none (free o high (less o mem))
    · rfl
  have first' : (pre.flatMap fun o =>
      if byte.toNat + 1 ≤ o.toNat then postingsAt l cs o else []) = [] := by
    refine flatMap_eq_nil_iff.mpr fun o mem => if_neg ?_
    have lo := UInt8.lt_iff_toNat_lt.mp (less o mem)
    omega
  have xs : (aft.flatMap fun o => if least ≤ o.toNat then postingsAt l cs o else []) =
      aft.flatMap fun o => if byte.toNat + 1 ≤ o.toNat then postingsAt l cs o else [] := by
    refine flatMap_congr fun o mem => ?_
    have hi := UInt8.lt_iff_toNat_lt.mp (more o mem)
    rw [if_pos (by omega), if_pos (by omega)]
  rw [postingsFrom, postingsFrom, split, flatMap_append, flatMap_cons, first, xs,
    flatMap_append, flatMap_cons, first', if_pos low, if_neg (by omega)]
  simp

theorem postingsFrom_getNextChild (valid : l.Valid cs) {b next : UInt8} {i : Nat}
    (got : l.getNextChild cs b = some (next, i)) :
    postingsFrom l cs b.toNat = (postings (cs i)).map (shift [next]) ++
        postingsFrom l cs (next.toNat + 1) := by
  obtain ⟨high, hi, least⟩ := valid.getNextChild_some got
  rw [postingsFrom_next (UInt8.le_iff_toNat_le.mp high), postingsAt_some hi]
  intro o abv less
  by_contra ht
  have aft := least o (UInt8.le_iff_toNat_le.mpr abv) (Option.isSome_iff_ne_none.mpr ht)
  exact absurd less (not_lt.mpr aft)

theorem postingsFrom_getNextChild_none (gone : l.getNextChild cs byte = none) :
    postingsFrom l cs byte.toNat = [] :=
  postingsFrom_eq_nil fun o high =>
    Layout.getNextChild_none gone o (UInt8.le_iff_toNat_le.mpr high)

theorem mem_postings_branch :
    posting ∈ postings (branch l cs) ↔ ∃ byte i xs, l.slot cs byte = some i ∧
      xs ∈ postings (cs i) ∧ posting = shift [byte] xs := by
  rw [postings_branch, postingsFrom, mem_flatMap]
  constructor
  · rintro ⟨byte, _, mem⟩
    cases hi : l.slot cs byte with
    | none =>
      rw [postingsAt_none hi] at mem
      exact absurd mem not_mem_nil
    | some i =>
      rw [postingsAt_some hi] at mem
      obtain ⟨xs, fit, rfl⟩ := List.mem_map.mp mem
      exact ⟨byte, i, xs, hi, fit, rfl⟩
  · rintro ⟨byte, _, _, hi, fit, rfl⟩
    refine ⟨byte, mem_allBytes byte, ?_⟩
    rw [postingsAt_some hi]
    exact List.mem_map_of_mem fit

theorem mem_postings_leaf {lf : Node} (wf : WellFormed lf) (form : lf.isLeaf = true)
    (k : ARTKey) (ids : List RowId) :
    (k, ids) ∈ postings lf ↔ rows lf k ≠ [] ∧ ids = rows lf k := by
  rw [postings_of_isLeaf form, rows_of_isLeaf form, mem_singleton, Prod.mk.injEq]
  have hp := rowIds_ne_nil wf form
  by_cases ended : k = []
  · simp [ended, hp]
  · simp [ended]

theorem mem_postings_iff (wf : WellFormed n) (k : ARTKey) (ids : List RowId) :
    (k, ids) ∈ postings n ↔ rows n k ≠ [] ∧ ids = rows n k := by
  induction n generalizing k ids with
  | empty => exact wf.elim
  | leafInlined _ | leaf _ => exact mem_postings_leaf wf rfl k ids
  | prefixNode data next ih =>
    rw [postings, List.mem_map, rows]
    constructor
    · rintro ⟨⟨xs, ids⟩, mem, same⟩
      cases same
      rw [under_append_key]
      exact (ih wf.2.2 xs ids).mp mem
    · rintro ⟨got, rfl⟩
      obtain ⟨xs, rfl, held⟩ := exists_of_under_ne_nil got
      rw [under_append_key]
      exact ⟨(xs, rows next xs), (ih wf.2.2 xs _).mpr ⟨held, rfl⟩, rfl⟩
  | branch l cs ih =>
    rw [mem_postings_branch]
    constructor
    · rintro ⟨b, i, ⟨xs, ids⟩, hi, mem, same⟩
      cases same
      have held := (ih i (wf.2.2 b i hi) xs ids).mp mem
      have unfolded : rows (branch l cs) (b :: xs) = rows (cs i) xs := by
        simp only [rows, hi]
      rwa [singleton_append, unfolded]
    · rintro ⟨got, rfl⟩
      cases k with
      | nil => exact absurd rfl got
      | cons b xs =>
        cases hi : l.slot cs b with
        | none =>
          rw [rows, hi] at got
          exact absurd rfl got
        | some i =>
          have unfolded : rows (branch l cs) (b :: xs) = rows (cs i) xs := by
            simp only [rows, hi]
          rw [unfolded] at got ⊢
          exact ⟨b, i, (xs, rows (cs i) xs), hi, (ih i (wf.2.2 b i hi) xs _).mpr ⟨got, rfl⟩, rfl⟩

theorem postings_sorted (wf : WellFormed n) : (postings n).Pairwise fun a b => a.1 < b.1 := by
  induction n with
  | empty => exact wf.elim
  | leafInlined _ | leaf _ => exact pairwise_singleton _ _
  | prefixNode data next ih =>
    rw [postings, pairwise_map]
    refine (ih wf.2.2).imp fun less => ?_
    exact append_left_lt less
  | branch l cs ih =>
    rw [postings_branch, postingsFrom, pairwise_flatMap]
    simp only [zero_le, if_true]
    constructor
    · intro c _
      cases hi : l.slot cs c with
      | none =>
        rw [postingsAt_none hi]
        exact List.Pairwise.nil
      | some i =>
        rw [postingsAt_some hi, pairwise_map]
        exact (ih i (wf.2.2 c i hi)).imp fun less => append_left_lt less
    · refine allBytes_sorted.imp fun less => ?_
      have head {c : UInt8} {p : Posting} (mem : p ∈ postingsAt l cs c) : ∃ xs, p.1 = c :: xs := by
        unfold postingsAt at mem
        split at mem
        · exact absurd mem not_mem_nil
        · obtain ⟨inner, _, rfl⟩ := List.mem_map.mp mem
          exact ⟨inner.1, rfl⟩
      intro x mem y mem'
      obtain ⟨_, fst⟩ := head mem
      obtain ⟨_, snd⟩ := head mem'
      rw [fst, snd]
      exact List.Lex.rel less

end

end Node

/-! ## What an iterator has still to visit -/

variable {ub : ARTKey}

namespace Iterator

theorem pop_append (pre back : ARTKey) : pop back.length (pre ++ back) = pre := by
  rw [pop, length_append, Nat.add_sub_cancel, take_left]

theorem pop_singleton (pre : ARTKey) (b : UInt8) : pop 1 (pre ++ [b]) = pre := pop_append pre [b]

/-- The postings to the right of the stack. -/
def after : List (Node × UInt8) → ARTKey → List Posting
  | [], _ => []
  | (prefixNode data _, _) :: nodes, key => after nodes (pop data.length key)
  | (branch layout children, byte) :: nodes, key =>
    (postingsFrom layout children (byte.toNat + 1)).map (shift (pop 1 key)) ++
      after nodes (pop 1 key)
  | _ :: nodes, key => after nodes (pop 1 key)

/-- The postings from the current leaf on. -/
def pending (it : Iterator) : List Posting :=
  (it.currentKey, Leaf.rowIds it.lastLeaf) :: after it.nodes it.currentKey

/-- All nodes on the stack are well formed. -/
def Sound (nodes : List (Node × UInt8)) : Prop := ∀ entry ∈ nodes, WellFormed entry.1

theorem sound_cons {ns : List (Node × UInt8)}
    (wf : WellFormed n) (ok : Sound ns) : Sound ((n, byte) :: ns) := by
  intro e mem
  rcases mem_cons.mp mem with rfl | mem
  · exact wf
  · exact ok e mem

theorem after_prefixNode (data : Bytes) (next : Node) (b : UInt8) (ns : List (Node × UInt8))
    (k : ARTKey) : after ((prefixNode data next, b) :: ns) (k ++ data) = after ns k := by
  rw [after, pop_append]

theorem after_branch (l : Layout) (cs : Nat → Node) (b : UInt8)
    (ns : List (Node × UInt8)) (k : ARTKey) (o : UInt8) :
    after ((branch l cs, b) :: ns) (k ++ [o]) =
      (postingsFrom l cs (b.toNat + 1)).map (shift k) ++ after ns k := by
  rw [after, pop_singleton]

/-- An iterator at the first of some postings, if there are any. -/
inductive Stands : Option Iterator → List Posting → Prop
  | done : Stands none []
  | here {it : Iterator} {postings : List Posting} (sound : Sound it.nodes)
      (starts : pending it = postings) : Stands (some it) postings

theorem Stands.eq_nil (pos : Stands none l) : l = [] := by
  cases pos
  rfl

theorem Stands.pending_eq (pos : Stands (some it) l) : pending it = l := by
  cases pos with
  | here hsd starts => exact starts

theorem stands_leaf {lf : Node} (form : lf.isLeaf = true) (ok : Sound it.nodes) :
    Stands (some { it with lastLeaf := lf })
      ((postings lf).map (shift it.currentKey) ++ after it.nodes it.currentKey) := by
  refine .here ok ?_
  rw [postings_of_isLeaf form, pending, map_singleton, shift, append_nil, singleton_append]

theorem findMinimum_spec (wf : WellFormed n) {it : Iterator} (ok : Sound it.nodes) :
    Stands (some (findMinimum n it))
      ((postings n).map (shift it.currentKey) ++ after it.nodes it.currentKey) := by
  induction n generalizing it with
  | empty => exact wf.elim
  | leafInlined _ | leaf _ => exact stands_leaf rfl ok
  | prefixNode data next ih =>
    have below := @ih wf.2.2
      ⟨it.currentKey ++ data, (prefixNode data next, 0) :: it.nodes, it.lastLeaf⟩
      (sound_cons wf ok)
    rw [after_prefixNode] at below
    rwa [findMinimum, postings, map_shift_shift]
  | branch l cs ih =>
    rw [findMinimum]
    cases got : l.getNextChild cs 0 with
    | none =>
      obtain ⟨byte, _, stored⟩ := wf.exists_row_branch
      have free := Layout.getNextChild_none got byte (UInt8.le_iff_toNat_le.mpr (zero_le _))
      rw [rows, free] at stored
      exact absurd rfl stored
    | some e =>
      obtain ⟨byte, i⟩ := e
      obtain ⟨_, hi, _⟩ := wf.1.getNextChild_some got
      have below := @ih i (wf.2.2 byte i hi)
        ⟨it.currentKey ++ [byte], (branch l cs, byte) :: it.nodes, it.lastLeaf⟩
        (sound_cons wf ok)
      have eq : postings (branch l cs) = postingsFrom l cs (0 : UInt8).toNat := postings_branch
      rw [after_branch] at below
      rwa [eq, postingsFrom_getNextChild wf.1 got, map_append, map_shift_shift, append_assoc]

theorem nextFrom_spec (lastLeaf : Node) {ns : List (Node × UInt8)} (ok : Sound ns)
    (k : ARTKey) : Stands (nextFrom lastLeaf ns k) (after ns k) := by
  induction ns generalizing k with
  | nil => exact .done
  | cons top ns ih =>
    obtain ⟨n, byte⟩ := top
    have wf : WellFormed n := ok (n, byte) (by simp)
    have lo : Sound ns := fun e mem => ok e (by simp [mem])
    cases n with
    | branch l cs =>
      rw [nextFrom, after]
      -- a node without a further child is left
      have leave (last : postingsFrom l cs (byte.toNat + 1) = []) :
          Stands (nextFrom lastLeaf ns (pop 1 k))
            ((postingsFrom l cs (byte.toNat + 1)).map (shift (pop 1 k)) ++ after ns (pop 1 k)) := by
        rw [last, map_nil, nil_append]
        exact ih lo _
      split
      · next greatest =>
          apply leave
          refine postingsFrom_eq_nil fun o high => ?_
          have bd := o.toNat_lt
          rw [greatest] at high
          exact absurd high (not_le.mpr bd)
      · next fit =>
          rw [← toNat_succ fit] at leave ⊢
          cases got : l.getNextChild cs (byte + 1) with
          | none => exact leave (postingsFrom_getNextChild_none got)
          | some e =>
            obtain ⟨next, i⟩ := e
            obtain ⟨_, hi, _⟩ := wf.1.getNextChild_some got
            have step := @findMinimum_spec (cs i) (wf.2.2 next i hi)
              ⟨pop 1 k ++ [next], (branch l cs, next) :: ns, lastLeaf⟩
              (sound_cons wf lo)
            rw [after_branch] at step
            rwa [postingsFrom_getNextChild wf.1 got, map_append, map_shift_shift, append_assoc]
    | _ => exact ih lo _

/-! ## The lower bound -/

/-- A posting that is not below the bound, and beyond it unless `equal`. -/
def reaches (equal : Bool) (bound : ARTKey) (posting : Posting) : Bool :=
  if equal then bound ≤ posting.1 else bound < posting.1

section

variable (eq : Bool)
include eq

theorem reaches_shift (pre bd : ARTKey) (p : Posting) :
    reaches eq (pre ++ bd) (shift pre p) = reaches eq bd p := by
  have le := ART.append_le_append_iff pre bd p.1
  have lt : pre ++ bd < pre ++ p.1 ↔ bd < p.1 := by
    rw [← not_le, ← not_le, ART.append_le_append_iff]
  unfold reaches shift
  simp only [le, lt]

theorem reaches_of_lt (less : bd < posting.1) : reaches eq bd posting = true := by
  unfold reaches
  split
  · exact decide_eq_true less.le
  · exact decide_eq_true less

theorem not_reaches_of_lt (less : posting.1 < bd) : reaches eq bd posting = false := by
  unfold reaches
  split
  · exact decide_eq_false (not_le.mpr less)
  · exact decide_eq_false less.asymm

theorem reaches_heads (xs : ARTKey) (p : Posting) :
    (a < b → reaches eq (b :: xs) (shift [a] p) = false) ∧
      (b < a → reaches eq (b :: xs) (shift [a] p) = true) :=
  ⟨fun less => not_reaches_of_lt eq (List.Lex.rel less),
    fun less => reaches_of_lt eq (List.Lex.rel less)⟩

theorem filter_map_shift (pre bd : ARTKey) (l : List Posting) :
    (l.map (shift pre)).filter (reaches eq (pre ++ bd)) =
      (l.filter (reaches eq bd)).map (shift pre) := by
  rw [List.filter_map]
  congr 1
  exact filter_congr fun posting _ => reaches_shift eq pre bd posting

/-- Postings beside a bound that parts from their common bytes. -/
theorem filter_shift_apart (com d r : Bytes) (l : List Posting) :
    (a < b → (l.map (shift (com ++ a :: d))).filter (reaches eq (com ++ b :: r)) = []) ∧
      (b < a → (l.map (shift (com ++ a :: d))).filter (reaches eq (com ++ b :: r)) =
        l.map (shift (com ++ a :: d))) := by
  have decided (p : Posting) : reaches eq (com ++ b :: r) (shift (com ++ a :: d) p) =
        reaches eq (b :: r) (shift [a] (shift d p)) := by
    rw [shift_shift, singleton_append, ← shift_shift com, reaches_shift]
  constructor
  · intro less
    refine filter_eq_nil_iff.mpr fun p mem => ?_
    obtain ⟨p, _, rfl⟩ := List.mem_map.mp mem
    rw [decided, (reaches_heads eq r _).1 less]
    exact Bool.false_ne_true
  · intro less
    refine filter_eq_self.mpr fun p mem => ?_
    obtain ⟨_, _, rfl⟩ := List.mem_map.mp mem
    rw [decided, (reaches_heads eq r _).2 less]

theorem filter_postingsAt (l : Layout) (cs : Nat → Node) (xs : ARTKey) :
    (a < b → (postingsAt l cs a).filter (reaches eq (b :: xs)) = []) ∧
      (b < a → (postingsAt l cs a).filter (reaches eq (b :: xs)) = postingsAt l cs a) := by
  cases hi : l.slot cs a with
  | none =>
    rw [postingsAt_none hi]
    exact ⟨fun _ => rfl, fun _ => rfl⟩
  | some i =>
    rw [postingsAt_some hi]
    exact filter_shift_apart eq [] [] xs _

theorem filter_postings_branch (l : Layout) (cs : Nat → Node) (b : UInt8) (xs : ARTKey) :
    (postings (branch l cs)).filter (reaches eq (b :: xs)) =
      (postingsAt l cs b).filter (reaches eq (b :: xs)) ++ postingsFrom l cs (b.toNat + 1) := by
  obtain ⟨pre, aft, split, less, more⟩ := allBytes_split b
  have first : pre.flatMap (fun o => (postingsAt l cs o).filter (reaches eq (b :: xs))) = [] :=
    flatMap_eq_nil_iff.mpr fun o mem => (filter_postingsAt eq l cs xs).1 (less o mem)
  have first' : (pre.flatMap fun o =>
      if b.toNat + 1 ≤ o.toNat then postingsAt l cs o else []) = [] := by
    refine flatMap_eq_nil_iff.mpr fun o mem => if_neg ?_
    have lo := UInt8.lt_iff_toNat_lt.mp (less o mem)
    omega
  have last : aft.flatMap (fun o => (postingsAt l cs o).filter (reaches eq (b :: xs))) =
      aft.flatMap fun o => if b.toNat + 1 ≤ o.toNat then postingsAt l cs o else [] := by
    refine flatMap_congr fun o mem => ?_
    have hi := UInt8.lt_iff_toNat_lt.mp (more o mem)
    rw [if_pos (by omega), (filter_postingsAt eq l cs xs).2 (more o mem)]
  rw [postings_branch, postingsFrom, postingsFrom, filter_flatMap]
  simp only [zero_le, if_true]
  rw [split, flatMap_append, flatMap_cons, first, last, flatMap_append,
    flatMap_cons, first', if_neg (by omega)]
  simp

end

theorem getD_append_length (pre xs : ARTKey) (n : Nat) :
    (pre ++ xs).getD (pre.length + n) 0 = xs.getD n 0 := by
  rw [getD_append_right _ _ _ _ (le_add_right _ _), Nat.add_sub_cancel_left]

theorem atKey_self (k : ARTKey) : atKey k k = true := by
  rw [atKey, Option.isNone_iff_eq_none]
  induction k with
  | nil => rfl
  | cons byte k ih => simp [mismatchPosition, ih]

theorem lowerBound_leaf {leaf : Node} (wf : WellFormed leaf) (form : leaf.isLeaf = true)
    (eq : Bool) {xs : ARTKey} (comp : Compatible leaf xs) (ok : Sound it.nodes) :
    Stands (if !eq && atKey it.currentKey (it.currentKey ++ xs) then it.next
        else some { it with lastLeaf := leaf })
      (((postings leaf).filter (reaches eq xs)).map (shift it.currentKey) ++
        after it.nodes it.currentKey) := by
  rw [comp.eq_nil wf form, append_nil, atKey_self]
  cases eq with
  | true =>
    have kept : (postings leaf).filter (reaches true []) = postings leaf := by
      rw [postings_of_isLeaf form]
      rfl
    rw [kept]
    exact stands_leaf form ok
  | false =>
    have hdr : (postings leaf).filter (reaches false []) = [] := by
      rw [postings_of_isLeaf form]
      rfl
    rw [hdr]
    exact nextFrom_spec it.lastLeaf ok it.currentKey

theorem lowerBound_spec (wf : WellFormed n) (eq : Bool) {xs : ARTKey}
    (comp : Compatible n xs) {it : Iterator} (ok : Sound it.nodes) :
    Stands (lowerBound n (it.currentKey ++ xs) eq it.currentKey.length it)
      (((postings n).filter (reaches eq xs)).map (shift it.currentKey) ++
        after it.nodes it.currentKey) := by
  induction n generalizing xs it with
  | empty => exact wf.elim
  | leafInlined _ | leaf _ => exact lowerBound_leaf wf rfl eq comp ok
  | prefixNode data next ih =>
    rw [lowerBound, drop_left, postings]
    have above : Sound ((prefixNode data next, 0) :: it.nodes) := sound_cons wf ok
    rcases mismatchPosition_cases data xs (comp.inside wf) with
      ⟨matched, xs, rfl⟩ | ⟨com, a, b, d, r, rfl, rfl, apart, position⟩
    · have below := @ih wf.2.2 xs comp.next
        ⟨it.currentKey ++ data, (prefixNode data next, 0) :: it.nodes, it.lastLeaf⟩ above
      rw [after_prefixNode, append_assoc, length_append] at below
      rw [matched, filter_map_shift, map_shift_shift]
      exact below
    · have c : (com ++ a :: d).getD com.length 0 = a := by simp
      have c' : (it.currentKey ++ (com ++ b :: r)).getD
          (it.currentKey.length + com.length) 0 = b := by
        rw [getD_append_length]
        simp
      rw [position]
      dsimp only
      rw [c, c']
      rcases lt_or_gt_of_ne apart with less | gt
      · rw [if_pos less, (filter_shift_apart eq com d r _).1 less, map_nil, nil_append]
        have step := nextFrom_spec it.lastLeaf above (it.currentKey ++ (com ++ a :: d))
        rwa [after_prefixNode] at step
      · rw [if_neg gt.asymm, (filter_shift_apart eq com d r _).2 gt, map_shift_shift]
        have step := @findMinimum_spec next wf.2.2 ⟨it.currentKey ++ (com ++ a :: d),
            (prefixNode (com ++ a :: d) next, 0) :: it.nodes, it.lastLeaf⟩ above
        rwa [after_prefixNode] at step
  | branch l cs ih =>
    obtain ⟨c, xs, rfl⟩ := comp.exists_cons wf
    have head : (it.currentKey ++ c :: xs).getD it.currentKey.length 0 = c :=
      getD_append_length it.currentKey (c :: xs) 0
    have full : postingsFrom l cs c.toNat = postingsAt l cs c ++ postingsFrom l cs (c.toNat + 1) :=
      postingsFrom_next (le_refl _) fun other high less =>
        absurd (UInt8.lt_iff_toNat_lt.mp less) (not_lt.mpr high)
    rw [lowerBound, head, filter_postings_branch]
    cases got : l.getNextChild cs c with
    | none =>
      rw [postingsFrom_getNextChild_none got] at full
      obtain ⟨here, hl⟩ := append_eq_nil_iff.mp full.symm
      rw [here, hl]
      exact nextFrom_spec it.lastLeaf ok it.currentKey
    | some e =>
      obtain ⟨next, i⟩ := e
      obtain ⟨high, hi, least⟩ := wf.1.getNextChild_some got
      dsimp only
      by_cases gt : c < next
      · have free : l.slot cs c = none := by
          by_contra taken
          exact absurd gt (not_lt.mpr (least c (le_refl _) (Option.isSome_iff_ne_none.mpr taken)))
        rw [postingsAt_none free, nil_append] at full
        rw [if_pos gt, postingsAt_none free, filter_nil, nil_append, ← full,
          postingsFrom_getNextChild wf.1 got, map_append, map_shift_shift,
          append_assoc]
        have step := @findMinimum_spec (cs i) (wf.2.2 next i hi)
          ⟨it.currentKey ++ [next], (branch l cs, next) :: it.nodes, it.lastLeaf⟩
          (sound_cons wf ok)
        rwa [after_branch] at step
      · have same : next = c := le_antisymm (not_lt.mp gt) high
        subst same
        have below := @ih i (wf.2.2 next i hi) xs (comp.child hi)
          ⟨it.currentKey ++ [next], (branch l cs, next) :: it.nodes, it.lastLeaf⟩
          (sound_cons wf ok)
        rw [after_branch, append_assoc, length_append] at below
        have fit := filter_map_shift eq [next] xs (postings (cs i))
        rw [if_neg gt, postingsAt_some hi]
        rw [singleton_append] at fit below
        rw [fit, map_append, map_shift_shift, append_assoc]
        exact below

/-! ## Scanning -/

/-- The row IDs before the upper bound. -/
def collected (upperBound : ARTKey) (equal : Bool) (list : List Posting) : List RowId :=
  (list.takeWhile fun posting => !exceeds upperBound equal posting.1).flatMap Prod.snd

/-- Scanning collects the row IDs before the bound, or stops at the first key
with which there are too many. -/
theorem scan_spec {eq : Bool} {max n : Nat} {it : Iterator}
    {l : List Posting} (pos : Stands (some it) l) (le : l.length ≤ n)
    {resultIds : List RowId} (few : resultIds.length ≤ max) : (scan ub max eq n it resultIds =
        some (true, resultIds ++ collected ub eq l) ∧
      resultIds.length + (collected ub eq l).length ≤ max) ∨
    ((∃ ids, scan ub max eq n it resultIds = some (false, ids)) ∧
      max < resultIds.length + (collected ub eq l).length) := by
  induction n generalizing it l resultIds with
  | zero =>
    cases pos with
    | here hsd pending_eq =>
      rw [← pending_eq] at le
      exact absurd le (not_succ_le_zero _)
  | succ n ih =>
    obtain ⟨hsd, pending_eq⟩ : Sound it.nodes ∧ pending it = l := by
      cases pos with
      | here hsd pending_eq => exact ⟨hsd, pending_eq⟩
    subst pending_eq
    rw [scan]
    by_cases past : exceeds ub eq it.currentKey = true
    · have nothing : collected ub eq (pending it) = [] := by
        rw [collected, pending, takeWhile_cons_of_neg (by simpa using past), flatMap_nil]
      rw [if_pos past, nothing]
      exact .inl ⟨by rw [append_nil], few⟩
    · have first : collected ub eq (pending it) = Leaf.rowIds it.lastLeaf ++
          collected ub eq (after it.nodes it.currentKey) := by
        rw [collected, pending, takeWhile_cons_of_pos (by simpa using past),
          flatMap_cons, ← collected]
      rw [if_neg past, first, Leaf.getRowIds, length_append]
      by_cases many : resultIds.length + (Leaf.rowIds it.lastLeaf).length > max
      · rw [if_pos many]
        exact .inr ⟨⟨_, rfl⟩, by omega⟩
      · rw [if_neg many]
        have step : Stands it.next (after it.nodes it.currentKey) :=
          nextFrom_spec it.lastLeaf hsd it.currentKey
        have shorter : (after it.nodes it.currentKey).length ≤ n := by
          simpa [pending] using le
        cases advanced : it.next with
        | none =>
          rw [advanced] at step
          rw [step.eq_nil]
          refine .inl ⟨?_, ?_⟩
          · simp [collected]
          · simp only [collected, takeWhile_nil, flatMap_nil, length_nil]
            omega
        | some it' =>
          rw [advanced] at step
          have fewer : (resultIds ++ Leaf.rowIds it.lastLeaf).length ≤ max := by
            rw [length_append]
            omega
          have xs := ih step shorter fewer
          rwa [length_append, append_assoc, add_assoc] at xs

end Iterator

namespace ART

open Iterator

/-- The bound of a search from below. -/
def AtLeast (equal : Bool) (bound key : ARTKey) : Prop := if equal then bound ≤ key else bound < key

/-- The bound of a search from above. -/
def AtMost (equal : Bool) (bound key : ARTKey) : Prop := if equal then key ≤ bound else key < bound

/-- The outcome of a search for the keys in a range: their row IDs in the order
of the keys, or a refusal because there are more than `maxCount`. -/
def Exact (tree : Node) (inside : ARTKey → Prop) (maxCount : Nat)
    (outcome : Option (Bool × List RowId)) : Prop :=
  ∃ found : List Posting, found.Pairwise (fun a b => a.1 < b.1) ∧
    (∀ key ids, (key, ids) ∈ found ↔ inside key ∧ rows tree key ≠ [] ∧ ids = rows tree key) ∧
    ((outcome = some (true, found.flatMap Prod.snd) ∧ (found.flatMap Prod.snd).length ≤ maxCount) ∨
      ((∃ ids, outcome = some (false, ids)) ∧ maxCount < (found.flatMap Prod.snd).length))

theorem exceeds_iff (ne : ub ≠ []) (eq : Bool) (k : ARTKey) :
    exceeds ub eq k = true ↔ ¬ AtMost eq ub k := by
  have bd : ub.isEmpty = false := by simpa using ne
  rw [exceeds, bd, AtMost]
  cases eq with
  | true => simpa using ARTKey.greater_iff k ub
  | false => simpa using ARTKey.greaterEqual_iff k ub

theorem atMost_of_lt {eq : Bool} {key' : ARTKey} (less : key < key')
    (fit : AtMost eq bd key') : AtMost eq bd key := by
  unfold AtMost at *
  split
  · next h =>
      rw [if_pos h] at fit
      exact (less.trans_le fit).le
  · next h =>
      rw [if_neg h] at fit
      exact less.trans fit

/-- In sorted postings the ones before the bound are those inside of it. -/
theorem takeWhile_exceeds (ne : ub ≠ []) (eq : Bool) (asc : l.Pairwise fun a b => a.1 < b.1) :
    l.takeWhile (fun posting => !exceeds ub eq posting.1) =
      l.filter fun posting => !exceeds ub eq posting.1 := by
  induction l with
  | nil => rfl
  | cons posting l ih =>
    obtain ⟨pre, asc⟩ := pairwise_cons.mp asc
    by_cases past : exceeds ub eq posting.1 = true
    · have xs : l.filter (fun posting => !exceeds ub eq posting.1) = [] := by
        refine filter_eq_nil_iff.mpr fun hl mem => ?_
        rw [exceeds_iff ne] at past
        have hb : exceeds ub eq hl.1 = true :=
          (exceeds_iff ne eq _).mpr fun fit => past (atMost_of_lt (pre hl mem) fit)
        simp [hb]
      rw [takeWhile_cons_of_neg (by simpa using past), filter_cons_of_neg (by simpa using past), xs]
    · rw [takeWhile_cons_of_pos (by simpa using past),
        filter_cons_of_pos (by simpa using past), ih asc]

section

variable {t : Node} {max : Nat}

theorem exact_of_filter (wf : WellFormed t) {fit : ARTKey → Prop} {test : Posting → Bool}
    (test_iff : ∀ posting, test posting = true ↔ fit posting.1)
    {outcome : Option (Bool × List RowId)}
    (result : (outcome = some (true, ((postings t).filter test).flatMap Prod.snd) ∧
        (((postings t).filter test).flatMap Prod.snd).length ≤ max) ∨
      ((∃ ids, outcome = some (false, ids)) ∧
        max < (((postings t).filter test).flatMap Prod.snd).length)) : Exact t fit max outcome := by
  refine ⟨(postings t).filter test, (postings_sorted wf).filter _, fun key ids => ?_, result⟩
  rw [mem_filter, mem_postings_iff wf, test_iff, and_comm]

theorem exact_empty (fit : ARTKey → Prop) : Exact empty fit max (some (true, [])) :=
  ⟨[], List.Pairwise.nil, fun key ids => by simp [rows], .inl ⟨rfl, zero_le _⟩⟩

theorem exact_nothing (wf : WellFormed t) {fit : ARTKey → Prop} {test : Posting → Bool}
    (test_iff : ∀ posting, test posting = true ↔ fit posting.1)
    (none : (postings t).filter test = []) : Exact t fit max (some (true, [])) := by
  refine exact_of_filter wf test_iff (.inl ?_)
  rw [none]
  exact ⟨rfl, zero_le _⟩

theorem lowerBound_start (wf : WellFormed t) (eq : Bool) (comp : Compatible t key) :
    Stands (lowerBound t key eq 0 .start) ((postings t).filter (reaches eq key)) := by
  have spec := @lowerBound_spec t wf eq key comp .start fun e mem => absurd mem not_mem_nil
  have full : ((postings t).filter (reaches eq key)).map (shift Iterator.start.currentKey) ++
      after Iterator.start.nodes Iterator.start.currentKey =
        (postings t).filter (reaches eq key) := by
    rw [show Iterator.start.nodes = [] from rfl, after, append_nil]
    exact List.map_id _
  rwa [full] at spec

theorem findMinimum_start (wf : WellFormed t) :
    Stands (some (findMinimum t .start)) (postings t) := by
  have spec := @findMinimum_spec t wf .start fun e mem => absurd mem not_mem_nil
  have eq : (postings t).map (shift Iterator.start.currentKey) ++
      after Iterator.start.nodes Iterator.start.currentKey = postings t := by
    rw [show Iterator.start.nodes = [] from rfl, after, append_nil]
    exact List.map_id _
  rwa [eq] at spec

theorem collected_unbounded (eq : Bool) (l : List Posting) :
    collected [] eq l = l.flatMap Prod.snd := by
  have all : l.takeWhile (fun posting => !exceeds [] eq posting.1) = l :=
    takeWhile_eq_self_iff.mpr fun _ _ => rfl
  rw [collected, all]

theorem reaches_iff (eq : Bool) (bd : ARTKey) (p : Posting) :
    reaches eq bd p = true ↔ AtLeast eq bd p.1 := by
  cases eq <;> simp [reaches, AtLeast]

theorem searchGreater_exact (wf : WellFormed t) (comp : Compatible t key) (eq : Bool)
    (le : (postings t).length ≤ fuel) :
    Exact t (AtLeast eq key) max (searchGreater fuel t key eq max) := by
  have pos := lowerBound_start wf eq comp
  have hne : (!t.hasMetadata) = false := by rw [wf.hasMetadata]; rfl
  rw [searchGreater, hne, if_neg Bool.false_ne_true]
  cases got : lowerBound t key eq 0 .start with
  | none =>
    rw [got] at pos
    exact exact_nothing wf (reaches_iff eq key) pos.eq_nil
  | some it =>
    rw [got] at pos
    have scanned := @scan_spec [] false max fuel it _ pos
      ((length_filter_le _ _).trans le) [] (zero_le _)
    rw [collected_unbounded, nil_append, length_nil, zero_add] at scanned
    exact exact_of_filter wf (reaches_iff eq key) scanned

theorem not_exceeds_iff (ne : ub ≠ []) (eq : Bool)
    (k : ARTKey) : (!exceeds ub eq k) = true ↔ AtMost eq ub k := by
  rw [Bool.not_eq_true', ← Bool.not_eq_true, exceeds_iff ne, not_not]

theorem searchLess_exact (wf : WellFormed t) (ne : ub ≠ []) (eq : Bool)
    (le : (postings t).length ≤ fuel) : Exact t (AtMost eq ub) max
      (searchLess fuel t ub eq max) := by
  have pos := findMinimum_start wf
  have hp : (!t.hasMetadata) = false := by rw [wf.hasMetadata]; rfl
  have test_iff (p : Posting) : (!exceeds ub eq p.1) = true ↔
      AtMost eq ub p.1 := not_exceeds_iff ne eq p.1
  have asc := postings_sorted wf
  rw [searchLess, hp, if_neg Bool.false_ne_true]
  dsimp only
  split
  · next hi =>
      refine exact_nothing wf test_iff (filter_eq_nil_iff.mpr fun p mem => ?_)
      rw [test_iff]
      intro fit
      rw [ARTKey.greater_iff] at hi
      -- the first key is already above the bound
      have first : (findMinimum t .start).currentKey ≤ p.1 := by
        rw [← pos.pending_eq, pending] at mem asc
        rcases mem_cons.mp mem with rfl | hl
        · exact le_refl _
        · exact ((pairwise_cons.mp asc).1 p hl).le
      have lo : p.1 ≤ ub := by
        unfold AtMost at fit
        split at fit
        · exact fit
        · exact fit.le
      exact absurd (first.trans lo) (not_le.mpr hi)
  · have scanned := @scan_spec ub eq max fuel _ _ pos le [] (zero_le _)
    rw [collected, takeWhile_exceeds ne eq asc, nil_append, length_nil, zero_add] at scanned
    exact exact_of_filter wf test_iff scanned

theorem searchCloseRange_exact (wf : WellFormed t) {lower upper : ARTKey}
    (comp : Compatible t lower) (ne : upper ≠ []) (leftEqual rightEqual : Bool)
    (le : (postings t).length ≤ fuel) :
    Exact t (fun key => AtLeast leftEqual lower key ∧ AtMost rightEqual upper key) max
      (searchCloseRange fuel t lower upper leftEqual rightEqual max) := by
  have pos := lowerBound_start wf leftEqual comp
  have test_iff (p : Posting) :
      (!exceeds upper rightEqual p.1 && reaches leftEqual lower p) = true ↔
        AtLeast leftEqual lower p.1 ∧ AtMost rightEqual upper p.1 := by
    rw [Bool.and_eq_true, reaches_iff, not_exceeds_iff ne, and_comm]
  have asc := (postings_sorted wf).filter (reaches leftEqual lower)
  rw [searchCloseRange]
  cases got : lowerBound t lower leftEqual 0 .start with
  | none =>
    rw [got] at pos
    refine exact_nothing wf test_iff ?_
    rw [← List.filter_filter, pos.eq_nil, filter_nil]
  | some it =>
    rw [got] at pos
    have scanned := @scan_spec upper rightEqual max fuel it _ pos
      ((length_filter_le _ _).trans le) [] (zero_le _)
    rw [collected, takeWhile_exceeds ne rightEqual asc, List.filter_filter,
      nil_append, length_nil, zero_add] at scanned
    exact exact_of_filter wf test_iff scanned

end

/-- Every search over a prefix-free set of keys is exact, for a lower bound of
that set and an upper bound that is not empty. -/
theorem search_exact {unique : Bool} {keys : Set ARTKey} (free : PrefixFree keys) {tree : Node}
    (reached : Reachable false unique keys tree) (lower : ARTKey) (mem : lower ∈ keys)
    (upper : ARTKey) (proper : upper ≠ []) (leftEqual rightEqual : Bool) (maxCount : Nat) :
    ∃ enough, ∀ fuel, enough ≤ fuel → Exact tree (AtLeast leftEqual lower) maxCount
        (searchGreater fuel tree lower leftEqual maxCount) ∧
      Exact tree (AtMost rightEqual upper) maxCount
        (searchLess fuel tree upper rightEqual maxCount) ∧
      Exact tree (fun key => AtLeast leftEqual lower key ∧ AtMost rightEqual upper key) maxCount
        (searchCloseRange fuel tree lower upper leftEqual rightEqual maxCount) := by
  refine ⟨(postings tree).length, fun fuel enough => ?_⟩
  obtain ⟨sound, within⟩ := reached.sound free
  rcases sound with rfl | wf
  · exact ⟨exact_empty _, exact_empty _, exact_empty _⟩
  · have compat := within.compatible free mem
    exact ⟨searchGreater_exact wf compat leftEqual enough,
      searchLess_exact wf proper rightEqual enough,
      searchCloseRange_exact wf compat proper leftEqual rightEqual enough⟩

/-- The keys between two stored ones. -/
theorem search_exact_between :
    let keys : Set ARTKey := {[97, 0], [98, 0]}
    let first : RowId := ⟨5, by decide⟩
    let tree := (insert false (insert false empty [98, 0] first).1 [97, 0] first).1
    PrefixFree keys ∧ Reachable false false keys tree ∧
      ∃ fuel, Exact tree (fun key => AtLeast false [97, 0] key ∧ AtMost true [98, 0] key) 10
        (searchCloseRange fuel tree [97, 0] [98, 0] false true 10) := by
  intro keys first tree
  have free : PrefixFree keys := prefixFree_pair
  have reached : Reachable false false keys tree :=
    .insert first (.inl rfl) (.insert first (.inr rfl) .empty)
  obtain ⟨fuel, enough⟩ := search_exact free reached [97, 0] (.inl rfl) [98, 0]
    (cons_ne_nil _ _) false true 10
  exact ⟨free, reached, fuel, (enough fuel le_rfl).2.2⟩

/-- The empty upper bound is no bound: the key [97, 0] is returned although it is
not below the empty key. -/
theorem search_unbounded :
    let keys : Set ARTKey := {[97, 0], [98, 0]}
    let first : RowId := ⟨5, by decide⟩
    let tree := (insert false empty [97, 0] first).1
    PrefixFree keys ∧ Reachable false false keys tree ∧ ∀ enough, ∃ fuel, enough ≤ fuel ∧
        ¬ Exact tree (fun key => AtLeast true [97, 0] key ∧ AtMost true [] key) 10
          (searchCloseRange fuel tree [97, 0] [] true true 10) := by
  intro keys first tree
  have reached : Reachable false false keys tree := .insert first (.inl rfl) .empty
  refine ⟨prefixFree_pair, reached, fun enough => ⟨enough + 1, Nat.le_succ _, fun exact => ?_⟩⟩
  have outcome : searchCloseRange (enough + 1) tree [97, 0] [] true true 10 =
      some (true, [first]) := rfl
  obtain ⟨found, _, mem_iff, result⟩ := exact
  have nothing : found = [] := by
    refine eq_nil_iff_forall_not_mem.mpr fun posting mem => ?_
    obtain ⟨⟨low, high⟩, _⟩ := (mem_iff posting.1 posting.2).mp mem
    have between : ([97, 0] : ARTKey) ≤ [] := le_trans low high
    exact absurd between (by decide)
  rw [outcome, nothing] at result
  simp at result

end ART

end AccessPath
