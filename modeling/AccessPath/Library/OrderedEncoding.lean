import AccessPath.Library.ByteStream

/-!
# Encodings that keep an order

Two words are *decided* when they differ at a position that both have.
Appending anything to either leaves the decision as it is: this is what makes
encodings of components concatenate to an encoding of the tuple.
-/

namespace AccessPath.Library

open List Nat

/-! ## Decided words -/

section

variable {α : Type*} [LinearOrder α]

/-- `u` and `v` agree up to a position where `u` has the smaller letter. -/
def Below (u v : List α) : Prop :=
  ∃ shared a b restU restV, u = shared ++ a :: restU ∧ v = shared ++ b :: restV ∧ a < b

namespace Below

variable {u v : List α}

theorem of_heads {a b : α} (less : a < b) (restU restV : List α) :
    Below (a :: restU) (b :: restV) :=
  ⟨[], a, b, restU, restV, rfl, rfl, less⟩

section

variable (decided : Below u v)
include decided

theorem append (x y : List α) : Below (u ++ x) (v ++ y) := by
  obtain ⟨com, a, b, restU, restV, rfl, rfl, less⟩ := decided
  exact ⟨com, a, b, restU ++ x, restV ++ y, by simp, by simp, less⟩

theorem prepend (pre : List α) : Below (pre ++ u) (pre ++ v) := by
  obtain ⟨com, a, b, restU, restV, rfl, rfl, less⟩ := decided
  exact ⟨pre ++ com, a, b, restU, restV, by simp, by simp, less⟩

theorem cons (a : α) : Below (a :: u) (a :: v) :=
  decided.prepend [a]

theorem lt : u < v := by
  obtain ⟨com, _, _, _, _, rfl, rfl, less⟩ := decided
  induction com with
  | nil => exact List.Lex.rel less
  | cons letter com ih => exact List.Lex.cons ih

theorem not_isPrefix : ¬ u <+: v := by
  obtain ⟨_, _, _, _, _, rfl, rfl, less⟩ := decided
  intro fit
  rw [prefix_append_right_inj, cons_prefix_cons] at fit
  exact less.ne fit.1

theorem not_isPrefix_swap : ¬ v <+: u := by
  obtain ⟨_, _, _, _, _, rfl, rfl, less⟩ := decided
  intro fit
  rw [prefix_append_right_inj, cons_prefix_cons] at fit
  exact less.ne' fit.1

end

end Below

/-! ## Ordered encodings -/

/-- `encode` decides every two different values the way `less` orders them. -/
structure OrderedEncoding {ι : Type*} (encode : ι → List α) (less : ι → ι → Prop) : Prop where
  below : ∀ {x y}, less x y → Below (encode x) (encode y)
  connected : ∀ x y, less x y ∨ x = y ∨ less y x

namespace OrderedEncoding

variable {ι κ : Type*} {encode : ι → List α} {less : ι → ι → Prop}

theorem lt_iff (ord : OrderedEncoding encode less) (x y : ι) :
    encode x < encode y ↔ less x y := by
  refine ⟨fun hsm => ?_, fun hsm => (ord.below hsm).lt⟩
  rcases ord.connected x y with h | h | h
  · exact h
  · subst h
    exact absurd hsm (lt_irrefl _)
  · exact absurd (ord.below h).lt (lt_asymm hsm)

theorem eq_iff (ord : OrderedEncoding encode less) (x y : ι) : encode x = encode y ↔ x = y := by
  refine ⟨fun eq => ?_, congrArg encode⟩
  rcases ord.connected x y with h | h | h
  · exact absurd eq (ord.below h).lt.ne
  · exact h
  · exact absurd eq (ord.below h).lt.ne'

theorem eq_of_isPrefix (ord : OrderedEncoding encode less) {x y : ι}
    (fit : encode x <+: encode y) : x = y := by
  rcases ord.connected x y with h | h | h
  · exact absurd fit (ord.below h).not_isPrefix
  · exact h
  · exact absurd fit (ord.below h).not_isPrefix_swap

/-- Pairs, the first component deciding first. -/
def PairLess (less : ι → ι → Prop) (less' : κ → κ → Prop) (x y : ι × κ) : Prop :=
  less x.1 y.1 ∨ x.1 = y.1 ∧ less' x.2 y.2

/-- The code of a pair is the code of one component after the other. -/
theorem pair (ord : OrderedEncoding encode less) {encode' : κ → List α}
    {less' : κ → κ → Prop} (ord' : OrderedEncoding encode' less') :
    OrderedEncoding (fun x : ι × κ => encode x.1 ++ encode' x.2) (PairLess less less') where
  below := by
    intro x y hsm
    rcases hsm with fst | ⟨eq, snd⟩
    · exact (ord.below fst).append _ _
    · simp only [eq]
      exact (ord'.below snd).prepend _
  connected := by
    intro x y
    rcases ord.connected x.1 y.1 with fst | eq | fst
    · exact .inl (.inl fst)
    · rcases ord'.connected x.2 y.2 with snd | eq' | snd
      · exact .inl (.inr ⟨eq, snd⟩)
      · exact .inr (.inl (Prod.ext eq eq'))
      · exact .inr (.inr (.inr ⟨eq.symm, snd⟩))
    · exact .inr (.inr (.inl fst))

/-! ## Terminated words -/

section

variable {β : Type*} [LinearOrder β] {unit : β → List α} {stop : List α}

/-- The codes of the letters, then a stop sign that lies below all of them. -/
def terminated (unit : β → List α) (stop : List α) (word : List β) : List α :=
  word.flatMap unit ++ stop

theorem terminated_ordered (letters : OrderedEncoding unit (· < ·))
    (stops : ∀ letter rest, Below stop (unit letter ++ rest)) :
    OrderedEncoding (terminated unit stop) (· < ·) where
  connected := lt_trichotomy
  below := by
    intro u v hsm
    induction hsm with
    | nil =>
      simp only [terminated, flatMap_cons, append_assoc]
      exact stops _ _
    | rel less =>
      simp only [terminated, flatMap_cons, append_assoc]
      exact (letters.below less).append _ _
    | cons _ ih =>
      simp only [terminated, flatMap_cons, append_assoc] at ih ⊢
      exact ih.prepend _

end

end OrderedEncoding

section

variable {bottom : α} {u v : List α} {x y : α}

/-- The word up to a width, then a letter for its length. -/
def padded (bottom : α) (width : Nat) (word : List α) (length : α) : List α :=
  word ++ replicate (width - word.length) bottom ++ [length]

omit [LinearOrder α] in
theorem padded_cons (width : Nat) (a : α) (word : List α) (len : α) :
    padded bottom (width + 1) (a :: word) len = a :: padded bottom width word len := by
  rw [padded, length_cons, Nat.add_sub_add_right]
  rfl

omit [LinearOrder α] in
theorem length_padded {width : Nat} (fits : u.length ≤ width) :
    (padded bottom width u x).length = width + 1 := by
  rw [padded, length_append, length_append, length_replicate,
    Nat.add_sub_cancel' fits, length_singleton]

/-- The empty word is below every word, by its length if that one has only bottom letters. -/
theorem padded_nil_below (least : ∀ a, bottom ≤ a) {w : Nat} (fits : v.length ≤ w)
    (shorter : x < y) : Below (padded bottom w [] x) (padded bottom w v y) := by
  induction v generalizing w with
  | nil => exact (Below.of_heads shorter [] []).prepend _
  | cons a v ih =>
    obtain ⟨_, rfl⟩ := exists_eq_succ_of_ne_zero (Nat.ne_of_gt (zero_lt_of_lt fits))
    rw [padded_cons]
    rcases (least a).lt_or_eq with less | rfl
    · exact Below.of_heads less _ _
    · exact (ih (le_of_succ_le_succ fits)).cons _

theorem padded_below (least : ∀ a, bottom ≤ a) (less : u < v) {w : Nat}
    (fitsU : u.length ≤ w) (fitsV : v.length ≤ w) (lengths : u.length < v.length → x < y) :
    Below (padded bottom w u x) (padded bottom w v y) := by
  induction less generalizing w with
  | nil => exact padded_nil_below least fitsV (lengths (succ_pos _))
  | rel less => exact (Below.of_heads less _ _).append _ _ |>.append _ _
  | cons _ ih =>
    obtain ⟨_, rfl⟩ := exists_eq_succ_of_ne_zero (Nat.ne_of_gt (zero_lt_of_lt fitsU))
    rw [padded_cons, padded_cons]
    refine (ih (le_of_succ_le_succ fitsU) (le_of_succ_le_succ fitsV) ?_).cons _
    exact fun shorter => lengths (succ_lt_succ shorter)

end

end

/-! ## Big-endian words -/

instance byteLinearOrder : LinearOrder UInt8 where
  le_refl := UInt8.le_refl
  le_trans := fun _ _ _ => UInt8.le_trans
  le_antisymm := fun _ _ => UInt8.le_antisymm
  le_total := UInt8.le_total
  lt_iff_le_not_ge := by
    intro a b
    simp only [UInt8.lt_iff_toNat_lt, UInt8.le_iff_toNat_le]
    omega
  toDecidableLE := inferInstance
  toDecidableLT := inferInstance
  toDecidableEq := inferInstance

/-- The low `width` bytes of a number, most significant first. -/
def bigEndian (width n : Nat) : Bytes := (putWord width n).reverse

@[simp] theorem length_bigEndian (w n : Nat) : (bigEndian w n).length = w := by
  simp [bigEndian]

theorem bigEndian_succ (w n : Nat) :
    bigEndian (w + 1) n = bigEndian w (n / 256) ++ [UInt8.ofNat n] := by
  simp [bigEndian, putWord]

theorem bigEndian_add (high low n : Nat) :
    bigEndian (high + low) n = bigEndian high (n / 256 ^ low) ++ bigEndian low n := by
  induction low generalizing n with
  | zero => simp [bigEndian, putWord]
  | succ low ih =>
    rw [← add_assoc, bigEndian_succ, ih, bigEndian_succ, Nat.div_div_eq_div_mul,
      ← pow_succ', append_assoc]

theorem bigEndian_one (n : Nat) : bigEndian 1 n = [UInt8.ofNat n] := rfl

theorem bigEndian_head (w n : Nat) :
    bigEndian (w + 1) n = UInt8.ofNat (n / 256 ^ w) :: bigEndian w n := by
  rw [add_comm, bigEndian_add, bigEndian_one, singleton_append]

theorem bigEndian_mod (w n : Nat) : bigEndian w (n % 256 ^ w) = bigEndian w n := by
  induction w generalizing n with
  | zero => rfl
  | succ w ih =>
    have high : n % 256 ^ (w + 1) / 256 = n / 256 % 256 ^ w := by
      rw [pow_succ', mod_mul_right_div_self]
    have low : UInt8.ofNat (n % 256 ^ (w + 1)) = UInt8.ofNat n := by
      apply UInt8.toNat_inj.mp
      exact mod_mod_of_dvd n ⟨256 ^ w, by rw [pow_succ']⟩
    rw [bigEndian_succ, bigEndian_succ, high, low, ih]

theorem below_bigEndian {w m n : Nat} (less : m < n) (fits : n < 256 ^ w) :
    Below (bigEndian w m) (bigEndian w n) := by
  induction w generalizing m n with
  | zero => omega
  | succ w ih =>
    rw [bigEndian_succ, bigEndian_succ]
    rcases Nat.lt_or_ge (m / 256) (n / 256) with high | high
    · apply (ih high ?_).append
      rw [pow_succ] at fits
      omega
    · have eq : m / 256 = n / 256 := by omega
      rw [eq]
      apply Below.prepend
      apply Below.of_heads
      rw [UInt8.lt_iff_toNat_lt, UInt8.toNat_ofNat', UInt8.toNat_ofNat']
      omega

end AccessPath.Library
