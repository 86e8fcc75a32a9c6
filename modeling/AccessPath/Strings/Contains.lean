import AccessPath.Library.ByteNumber
import AccessPath.Library.Search

/-!
# Finding a string in another one

`ContainsFun::Find` looks for the first byte of the needle, and then for the needle with an
algorithm that depends on its length. All of them find the first occurrence.
-/

namespace AccessPath.Strings

open Library List Option Nat

variable {bs : List UInt8} {sh w : Nat} {b : UInt8}
  {hay pat window : List UInt8} {size : Nat}

/-! ## Loads -/

/-- `Load` of an unsigned integer from its bytes. -/
def load (bytes : List UInt8) : Nat := bytes.foldr (fun b entry => b.toNat + 256 * entry) 0

/-- The loop of `ContainsAligned` from an offset on. -/
def alignedLoop (size needleEntry offset : Nat) : List UInt8 → Option Nat
  | [] => none
  | b :: rest =>
    if (b :: rest).length < size then none
    else if needleEntry = load ((b :: rest).take size) then some offset
    else alignedLoop size needleEntry (offset + 1) rest

def containsAligned (size : Nat) (haystack needle : List UInt8) (baseOffset : Nat) : Option Nat :=
  if size > haystack.length then none
  else alignedLoop size (load (needle.take size)) baseOffset haystack

/-! ## Windows -/

/-- The first bytes of a string, the first one in the highest byte of an integer. -/
def windowEntry (width size : Nat) (bytes : List UInt8) : Nat := (bytes.take size).zipIdx.foldl
    (fun entry b => entry ||| b.1.toNat <<< (width - 8 - b.2 * 8)) 0

/-- The loop of `ContainsUnaligned` over what follows the window. -/
def unalignedLoop (width shift needleEntry : Nat) (entry offset : Nat) : List UInt8 → Option Nat
  | [] => if entry = needleEntry then some offset else none
  | b :: rest =>
    if entry = needleEntry then some offset
    else unalignedLoop width shift needleEntry
      ((entry <<< 8) % 2 ^ width ||| b.toNat <<< shift) (offset + 1) rest

def containsUnaligned (width size : Nat) (haystack needle : List UInt8) (baseOffset : Nat) :
    Option Nat :=
  if size > haystack.length then none
  else unalignedLoop width ((width / 8 - size) * 8) (windowEntry width size needle)
    (windowEntry width size haystack) baseOffset (haystack.drop size)

/-! ## Sums -/

/-- The sum of the bytes of a string. -/
def byteSum (bytes : List UInt8) : BitVec 32 :=
  bytes.foldl (fun sum b => sum + BitVec.ofNat 32 b.toNat) 0

/-- The loop of `ContainsGeneric` from an offset on. -/
def genericLoop (needle : List UInt8) (sumsDiff : BitVec 32) (offset : Nat) :
    List UInt8 → Option Nat
  | [] => none
  | b :: rest =>
    if sumsDiff = 0 ∧ needle.head? = some b ∧ (b :: rest).take needle.length = needle then
      some offset
    else if (b :: rest).length ≤ needle.length then none
    else
      genericLoop needle (sumsDiff - BitVec.ofNat 32 b.toNat +
        BitVec.ofNat 32 ((b :: rest).getD needle.length 0).toNat) (offset + 1) rest

def containsGeneric (haystack needle : List UInt8) (baseOffset : Nat) : Option Nat :=
  if needle.length > haystack.length then none
  else genericLoop needle (byteSum (haystack.take needle.length) - byteSum needle) baseOffset
    haystack

/-! ## Search -/

/-- `ContainsFun::Find`; `none` is the invalid index. -/
def find (haystack needle : List UInt8) : Option Nat :=
  match needle with
  | [] => some 0
  | first :: _ =>
    let baseOffset := haystack.findIdx (· == first)
    if baseOffset = haystack.length then none
    else
      let haystack := haystack.drop baseOffset
      match needle.length with
      | 1 => some baseOffset
      | 2 => containsAligned 2 haystack needle baseOffset
      | 3 => containsUnaligned 32 3 haystack needle baseOffset
      | 4 => containsAligned 4 haystack needle baseOffset
      | 5 => containsUnaligned 64 5 haystack needle baseOffset
      | 6 => containsUnaligned 64 6 haystack needle baseOffset
      | 7 => containsUnaligned 64 7 haystack needle baseOffset
      | 8 => containsAligned 8 haystack needle baseOffset
      | _ => containsGeneric haystack needle baseOffset

/-! ## All of them find the first occurrence -/

theorem firstOccurrence_short (lt : hay.length < pat.length) :
    firstOccurrence pat hay = none := by
  refine firstOccurrence_eq_of (fun k mem => absurd mem (not_mem_none k)) fun _ k got => ?_
  have len := got.length_le
  rw [length_drop] at len
  omega

theorem map_firstOccurrence_cons (pat : List UInt8) (off : Nat) (b : UInt8) (xs : List UInt8) :
    (firstOccurrence pat (b :: xs)).map (off + ·) = if pat <+: b :: xs then some off
      else (firstOccurrence pat xs).map (off + 1 + ·) := by
  rw [firstOccurrence]
  split_ifs with here
  · rfl
  · rw [Option.map_map]
    congr 1
    funext k
    exact (add_left_comm off k 1).trans (add_comm k (off + 1))

theorem load_eq (bs : List UInt8) : load bs = byteNumber bs.reverse := by
  rw [load, byteNumber, foldl_reverse]
  congr 1
  funext b n
  omega

theorem load_inj {xs ys : List UInt8} (eq : xs.length = ys.length) (equal : load xs = load ys) :
    xs = ys := by
  rw [load_eq, load_eq] at equal
  refine reverse_injective (byteNumber_inj ?_ equal)
  rw [length_reverse, length_reverse, eq]

section

variable {pat : List UInt8}

theorem alignedLoop_eq (some' : pat ≠ []) (off : Nat) (hay : List UInt8) :
    alignedLoop pat.length (load pat) off hay = (firstOccurrence pat hay).map (off + ·) := by
  induction hay generalizing off with
  | nil => rw [alignedLoop, firstOccurrence, if_neg some', map_none]
  | cons b xs ih =>
    rw [alignedLoop]
    split_ifs with hsh heq
    · rw [firstOccurrence_short hsh, map_none]
    · have eq : pat = (b :: xs).take pat.length := load_inj (by rw [length_take]; omega) heq
      rw [map_firstOccurrence_cons, if_pos (prefix_iff_eq_take.mpr eq)]
    · rw [map_firstOccurrence_cons, if_neg, ih]
      intro here
      exact heq (congrArg load (prefix_iff_eq_take.mp here))

theorem containsAligned_eq (some' : pat ≠ []) (hay : List UInt8) (baseOffset : Nat) :
    containsAligned pat.length hay pat baseOffset =
      (firstOccurrence pat hay).map (baseOffset + ·) := by
  rw [containsAligned, take_length]
  split_ifs with hsh
  · rw [firstOccurrence_short hsh, map_none]
  · exact alignedLoop_eq some' baseOffset hay

end

theorem shiftLeft_or {high low bits k : Nat} (lt : low < 2 ^ bits) :
    (high * 2 ^ bits * 2 ^ k) ||| low <<< k = (high * 2 ^ bits + low) * 2 ^ k := by
  rw [← shiftLeft_eq (high * 2 ^ bits) k, ← shiftLeft_or_distrib, mul_comm high,
    ← two_pow_add_eq_or_of_lt lt, shiftLeft_eq]

theorem foldl_window (fits : 8 * bs.length ≤ w) :
    bs.zipIdx.foldl (fun e b => e ||| b.1.toNat <<< (w - 8 - b.2 * 8)) 0 =
      byteNumber bs * 2 ^ (w - 8 * bs.length) := by
  induction bs using List.reverseRecOn with
  | nil => exact (zero_mul _).symm
  | append_singleton bs b ih =>
    rw [length_append, length_singleton] at fits ⊢
    have sh : w - 8 * bs.length = 8 + (w - 8 * (bs.length + 1)) := by omega
    have shift' : w - 8 - (0 + bs.length) * 8 = w - 8 * (bs.length + 1) := by omega
    rw [zipIdx_append, foldl_append, ih (by omega), byteNumber_append_singleton]
    simp only [zipIdx_singleton, foldl_cons, foldl_nil]
    rw [shift', sh, pow_add, ← mul_assoc]
    exact shiftLeft_or b.toNat_lt

theorem windowEntry_eq (le : size ≤ bs.length) (fits : 8 * size ≤ w) :
    windowEntry w size bs = byteNumber (bs.take size) * 2 ^ (w - 8 * size) := by
  have len : (bs.take size).length = size := by
    rw [length_take]
    omega
  rw [windowEntry, foldl_window (by rwa [len]), len]

theorem shift_window {a : UInt8} (len : window.length + 1 = size) :
    ((byteNumber (a :: window) * 2 ^ sh) <<< 8) % 2 ^ (8 * size + sh) ||| b.toNat <<< sh =
      byteNumber (window ++ [b]) * 2 ^ sh := by
  subst len
  have few := byteNumber_lt window
  have power : 2 ^ (8 * (window.length + 1) + sh) = 256 ^ window.length * 2 ^ 8 * 2 ^ sh := by
    rw [pow_add, pow_mul, pow_succ]
    norm_num
  have kept : ((byteNumber (a :: window) * 2 ^ sh) <<< 8) %
      2 ^ (8 * (window.length + 1) + sh) = byteNumber window * 2 ^ 8 * 2 ^ sh := by
    have split : (a.toNat * 256 ^ window.length + byteNumber window) * 2 ^ sh * 2 ^ 8 =
        byteNumber window * 2 ^ 8 * 2 ^ sh +
          256 ^ window.length * 2 ^ 8 * 2 ^ sh * a.toNat := by ring
    rw [shiftLeft_eq, power, byteNumber_cons, split, add_mul_mod_self_left]
    refine mod_eq_of_lt (mul_lt_mul_of_pos_right ?_ (Nat.two_pow_pos sh))
    omega
  rw [kept, byteNumber_append_singleton]
  exact shiftLeft_or b.toNat_lt

theorem prefix_window_iff (eq : window.length = pat.length) (xs : List UInt8) :
    pat <+: window ++ xs ↔ window = pat := by
  rw [prefix_iff_eq_take, ← eq, take_left]
  exact eq_comm

theorem unalignedLoop_eq (some' : pat ≠ []) (eq : window.length = pat.length) (off : Nat)
    (xs : List UInt8) : unalignedLoop (8 * pat.length + sh) sh (byteNumber pat * 2 ^ sh)
        (byteNumber window * 2 ^ sh) off xs =
      (firstOccurrence pat (window ++ xs)).map (off + ·) := by
  have entries : ∀ {window : List UInt8}, window.length = pat.length →
      (byteNumber window * 2 ^ sh = byteNumber pat * 2 ^ sh ↔ window = pat) := by
    intro window eq
    refine ⟨fun heq => ?_, fun heq => by rw [heq]⟩
    exact byteNumber_inj eq (eq_of_mul_eq_mul_right (Nat.two_pow_pos sh) heq)
  induction xs generalizing window off with
  | nil =>
    obtain ⟨a, window, rfl⟩ := exists_cons_of_ne_nil
      (ne_nil_of_length_pos (eq ▸ length_pos_of_ne_nil some'))
    have hsh : window.length < pat.length := by
      rw [← eq, length_cons]
      omega
    have here := prefix_window_iff eq []
    rw [append_nil] at here ⊢
    rw [unalignedLoop, map_firstOccurrence_cons, firstOccurrence_short hsh, map_none]
    exact if_congr ((entries eq).trans here.symm) rfl rfl
  | cons b xs ih =>
    obtain ⟨_, window, rfl⟩ := exists_cons_of_ne_nil
      (ne_nil_of_length_pos (eq ▸ length_pos_of_ne_nil some'))
    have moved : (window ++ [b]).length = pat.length := by
      rw [← eq, length_append]
      rfl
    have here := prefix_window_iff eq (b :: xs)
    rw [unalignedLoop, shift_window eq, ih moved, append_assoc, singleton_append,
      cons_append, map_firstOccurrence_cons]
    exact if_congr ((entries eq).trans here.symm) rfl rfl

theorem containsUnaligned_eq {bs : Nat} (some' : pat ≠ []) (fits : pat.length ≤ bs)
    (hay : List UInt8) (baseOffset : Nat) :
    containsUnaligned (8 * bs) pat.length hay pat baseOffset =
      (firstOccurrence pat hay).map (baseOffset + ·) := by
  rw [containsUnaligned]
  split_ifs with hsh
  · rw [firstOccurrence_short hsh, map_none]
  · have hn : pat.length ≤ hay.length := Nat.le_of_not_lt hsh
    have sh : (8 * bs / 8 - pat.length) * 8 = 8 * bs - 8 * pat.length := by omega
    have w : 8 * bs = 8 * pat.length + (8 * bs - 8 * pat.length) := by omega
    rw [windowEntry_eq le_rfl (by omega), windowEntry_eq hn (by omega), sh, take_length]
    generalize 8 * bs - 8 * pat.length = xs at w
    rw [w, unalignedLoop_eq some' (length_take_of_le hn), take_append_drop]

/-! ### Sums of bytes -/

theorem byteSum_append_singleton (bs : List UInt8) (b : UInt8) :
    byteSum (bs ++ [b]) = byteSum bs + BitVec.ofNat 32 b.toNat := by
  rw [byteSum, foldl_append]
  rfl

theorem byteSum_cons (b : UInt8) (bs : List UInt8) :
    byteSum (b :: bs) = BitVec.ofNat 32 b.toNat + byteSum bs := by
  induction bs using List.reverseRecOn with
  | nil => exact (BitVec.add_comm _ _)
  | append_singleton bs c ih =>
    rw [← cons_append, byteSum_append_singleton, ih, byteSum_append_singleton, BitVec.add_assoc]

theorem byteSum_next {xs : List UInt8} (pos : 0 < size) (longer : size ≤ xs.length)
    (o : BitVec 32) : byteSum ((b :: xs).take size) - o - BitVec.ofNat 32 b.toNat +
        BitVec.ofNat 32 ((b :: xs).getD size 0).toNat = byteSum (xs.take size) - o := by
  obtain ⟨size, rfl⟩ := exists_eq_add_one.mpr pos
  have lt : size < xs.length := longer
  have last : xs.take (size + 1) = xs.take size ++ [xs[size]] := (take_append_getElem lt).symm
  have next : (b :: xs).getD (size + 1) 0 = xs[size] := by
    rw [getD_cons_succ, getD_eq_getElem?_getD, getElem?_eq_getElem lt, getD_some]
  rw [last, next, take_succ_cons, byteSum_cons, byteSum_append_singleton]
  generalize byteSum (xs.take size) = sum
  generalize BitVec.ofNat 32 b.toNat = fst
  generalize BitVec.ofNat 32 xs[size].toNat = snd
  bv_omega

theorem genericLoop_eq (some' : pat ≠ []) (off : Nat) (le : pat.length ≤ hay.length) :
    genericLoop pat (byteSum (hay.take pat.length) - byteSum pat) off hay =
      (firstOccurrence pat hay).map (off + ·) := by
  have pos : 0 < pat.length := length_pos_of_ne_nil some'
  induction hay generalizing off with
  | nil => exact absurd le (Nat.not_le.mpr pos)
  | cons b xs ih =>
    have here : (byteSum ((b :: xs).take pat.length) - byteSum pat = 0 ∧
        pat.head? = some b ∧ (b :: xs).take pat.length = pat) ↔ pat <+: b :: xs := by
      rw [prefix_iff_eq_take]
      refine ⟨fun got => got.2.2.symm, fun eq => ?_⟩
      rw [← eq, BitVec.sub_self]
      refine ⟨rfl, ?_, rfl⟩
      rw [eq, head?_take, if_neg pos.ne', head?_cons]
    rw [genericLoop, map_firstOccurrence_cons]
    simp only [here]
    split_ifs with got last
    · rfl
    · rw [firstOccurrence_short last, map_none]
    · rw [length_cons] at last
      have longer : pat.length ≤ xs.length := by omega
      rw [byteSum_next pos longer, ih (off + 1) longer]

theorem containsGeneric_eq (some' : pat ≠ []) (hay : List UInt8) (baseOffset : Nat) :
    containsGeneric hay pat baseOffset = (firstOccurrence pat hay).map (baseOffset + ·) := by
  rw [containsGeneric]
  split_ifs with hsh
  · rw [firstOccurrence_short hsh, map_none]
  · exact genericLoop_eq some' baseOffset (Nat.le_of_not_lt hsh)

theorem firstOccurrence_memchr (fst : UInt8) (pat hay : List UInt8) :
    firstOccurrence (fst :: pat) hay =
      (firstOccurrence (fst :: pat) (hay.drop (hay.findIdx (· == fst)))).map
        (hay.findIdx (· == fst) + ·) := by
  have zero : ∀ r : Option Nat, r.map (0 + ·) = r := by
    intro r
    simp
  induction hay with
  | nil => exact (zero _).symm
  | cons b xs ih =>
    rw [findIdx_cons]
    cases eq : b == fst with
    | true => exact (zero _).symm
    | false =>
      have hne : ¬fst :: pat <+: b :: xs := by
        rw [cons_prefix_cons]
        intro here
        exact beq_eq_false_iff_ne.mp eq here.1.symm
      rw [firstOccurrence, if_neg hne, ih, Option.map_map]
      congr 1
      funext k
      exact add_right_comm _ _ _

theorem firstOccurrence_byte {fst : UInt8} (lt : hay.findIdx (· == fst) < hay.length) :
    firstOccurrence [fst] (hay.drop (hay.findIdx (· == fst))) = some 0 := by
  have head : hay[hay.findIdx (· == fst)] = fst :=
    beq_iff_eq.mp (findIdx_getElem (p := (· == fst)))
  rw [drop_eq_getElem_cons lt, head, firstOccurrence, if_pos]
  exact cons_prefix_cons.mpr ⟨rfl, nil_prefix⟩

theorem find_eq (hay pat : List UInt8) : find hay pat = firstOccurrence pat hay := by
  cases pat with
  | nil =>
    cases hay with
    | nil => rfl
    | cons b xs => exact (if_pos nil_prefix).symm
  | cons fst pat =>
    have some' : fst :: pat ≠ [] := cons_ne_nil _ _
    rw [firstOccurrence_memchr, find]
    split_ifs with hm
    · rw [hm, drop_length, firstOccurrence, if_neg some', map_none]
    · have aligned := containsAligned_eq some'
      have unaligned := fun bs fits => @containsUnaligned_eq _ bs some' fits
      split
      case h_1 one =>
        obtain rfl : pat = [] := eq_nil_of_length_eq_zero (Nat.succ.inj one)
        rw [firstOccurrence_byte (lt_of_le_of_ne findIdx_le_length hm)]
        rfl
      case h_2 len => exact len ▸ aligned _ _
      case h_3 len => exact len ▸ unaligned 4 (by omega) _ _
      case h_4 len => exact len ▸ aligned _ _
      case h_5 len => exact len ▸ unaligned 8 (by omega) _ _
      case h_6 len => exact len ▸ unaligned 8 (by omega) _ _
      case h_7 len => exact len ▸ unaligned 8 (by omega) _ _
      case h_8 len => exact len ▸ aligned _ _
      case h_9 => exact containsGeneric_eq some' _ _

/-- `ContainsFun::Find` returns the first occurrence of the needle, if there is one. -/
theorem find_first (haystack needle : List UInt8) :
    (∀ k, find haystack needle = some k ↔
      needle <+: haystack.drop k ∧ ∀ j < k, ¬needle <+: haystack.drop j) ∧
    (find haystack needle = none ↔ ∀ k, ¬needle <+: haystack.drop k) := by
  rw [find_eq]
  refine ⟨fun k => ⟨firstOccurrence_eq_some, fun first => ?_⟩, firstOccurrence_eq_none,
    fun never => ?_⟩
  · refine firstOccurrence_eq_of (fun j mem => ?_) fun absent => by cases absent
    cases mem
    exact first
  · exact firstOccurrence_eq_of (fun k mem => absurd mem (not_mem_none k)) fun _ => never

end AccessPath.Strings
