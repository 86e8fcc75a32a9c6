import AccessPath.Constants
import AccessPath.Library.ByteNumber

/-!
# Strings as integers

`CompressedMaterialization` sorts short strings as integers (`compress_string.cpp`): the bytes of a
string are the high bytes of the integer and its length is the lowest one. The widest type is
`HUGEINT`, which has a sign, so that strings of eight and more bytes whose first byte is not ASCII
become negative.
-/

namespace AccessPath.Compression

open Library List Nat

variable {s : List UInt8} {n : Nat} {c : UInt8}

/-! ## `string_t` -/

/-- The memory of a `string_t`: a short string with zeros after it, or the first bytes of a string
and what the pointer leads to. -/
inductive StringMemory where
  | inlined (size : Nat) (bytes : List UInt8)
  | pointer (size : Nat) (start target : List UInt8)
  deriving DecidableEq

namespace StringMemory

/-- `string_t(data, len)` -/
def ofBytes (s : List UInt8) : StringMemory := if s.length ≤ inlineLength then
    .inlined s.length (s ++ replicate (inlineLength - s.length) 0)
  else .pointer s.length (s.take prefixLength) s

/-- `GetSize` -/
def size : StringMemory → Nat
  | inlined size _ => size
  | pointer size _ _ => size

/-- `GetPrefix`. The pointer itself, which follows its prefix in the memory, is not modelled. -/
def getPrefix : StringMemory → List UInt8
  | inlined _ bytes => bytes
  | pointer _ start _ => start

end StringMemory

/-! ## Types -/

/-- `StringTypes` -/
inductive CompressedType where
  | utinyint
  | usmallint
  | uinteger
  | ubigint
  | hugeint
  deriving DecidableEq

namespace CompressedType

/-- `GetTypeIdSize` -/
def size : CompressedType → Nat
  | utinyint => 1
  | usmallint => 2
  | uinteger => 4
  | ubigint => 8
  | hugeint => 16

/-- `CompressedMaterializationFunctions::StringTypes` -/
def stringTypes : List CompressedType := [utinyint, usmallint, uinteger, ubigint, hugeint]

/-- The value of a `hugeint_t`, whose upper half is an `int64_t`. -/
def signed (n : Nat) : Int := if 2 ^ 127 ≤ n then (n : Int) - 2 ^ 128 else n

/-- The integer in the memory, of which the first byte is the lowest one. -/
def value (type : CompressedType) (memory : List UInt8) : Int :=
  if type = hugeint then signed (byteNumber memory.reverse) else byteNumber memory.reverse

end CompressedType

/-! ## Functions -/

def reverseMemCpy (src : List UInt8) (length : Nat) : List UInt8 := (src.take length).reverse

/-- The copy of the string in `StringCompressInternal`, for each layout. -/
def copyReversed (size : Nat) (input : StringMemory) : List UInt8 :=
  if size ≤ inlineLength then reverseMemCpy input.getPrefix size
  else
    match input with
    | .inlined _ bytes =>
      replicate (size - inlineLength) 0 ++ reverseMemCpy bytes inlineLength
    | .pointer length _ target =>
      replicate (size - length) 0 ++ reverseMemCpy target length

def stringCompressInternal (size : Nat) (input : StringMemory) : List UInt8 :=
  (copyReversed size input).set 0 (UInt8.ofNat input.size)

def miniStringCompress (input : StringMemory) : UInt8 :=
  UInt8.ofNat (input.size + (input.getPrefix.headD 0).toNat)

/-- `StringCompress`: the memory of the integer. -/
def stringCompress : CompressedType → StringMemory → List UInt8
  | .utinyint, input => [miniStringCompress input]
  | type, input => stringCompressInternal type.size input

def miniStringDecompress (input : UInt8) : StringMemory :=
  if input = 0 then .inlined 0 (replicate inlineLength 0)
  else .inlined 1 ((input - 1) :: replicate (inlineLength - 1) 0)

/-- The general case of `StringDecompress`. -/
def stringDecompressInternal (size : Nat) (input : List UInt8) : StringMemory :=
  let length := (input.headD 0).toNat
  if size ≤ inlineLength then
    .inlined length ((reverseMemCpy input size).take (size - 1) ++
      replicate (inlineLength - size + 1) 0)
  else if length ≤ inlineLength then
    .inlined length (reverseMemCpy (input.drop (size - inlineLength)) inlineLength)
  else
    let target := reverseMemCpy input size
    .pointer length (target.take prefixLength) (target.take length)

def stringDecompress : CompressedType → List UInt8 → StringMemory
  | .utinyint, input => miniStringDecompress (input.headD 0)
  | type, input => stringDecompressInternal type.size input

/-! ## Statistics -/

/-- `StringStatsData`, of which the minimum and the maximum have eight bytes. -/
structure StringStats where
  min : List UInt8
  max : List UInt8
  hasMaxStringLength : Bool
  maxStringLength : Nat
  min_length : min.length = 8
  max_length : max.length = 8

variable {st : StringStats}

/-- `StringValueComparison` of the bytes with as many of the other ones. -/
def stringValueComparison : List UInt8 → List UInt8 → Ordering
  | d :: data, c :: comparison =>
    if d < c then .lt else if d > c then .gt else stringValueComparison data comparison
  | _, _ => .eq

/-- `StringStats::Verify`, the check for unicode apart. -/
def StringStats.Consistent (stats : StringStats) (s : List UInt8) : Prop :=
  (stats.hasMaxStringLength = true → s.length ≤ stats.maxStringLength) ∧
  stringValueComparison (s.take 8) stats.min ≠ .lt ∧
  stringValueComparison (s.take 8) stats.max ≠ .gt

def getStringMinMaxValue (data : List UInt8) : List UInt8 := data.takeWhile (· != 0)

/-- The type of the compressed column, and its minimum and maximum if they are set. -/
structure StringCompression where
  castType : CompressedType
  minMax : Option (Nat × Nat)

/-- The first byte of a bound for `GetStringCompress`. -/
def boundNumeric (maxStringLength : Nat) (bound : List UInt8) : UInt8 :=
  let string := getStringMinMaxValue bound
  if maxStringLength ≠ 0 ∧ string ≠ [] then string.headD 0 else 0

/-- `CompressedMaterialization::GetStringCompress` -/
def getStringCompress (stats : StringStats) : Option StringCompression :=
  if stats.hasMaxStringLength then
    match CompressedType.stringTypes.find? fun type => stats.maxStringLength < type.size with
    | none => none
    | some .usmallint =>
      let minNumeric := boundNumeric stats.maxStringLength stats.min
      let maxNumeric := boundNumeric stats.maxStringLength stats.max
      let minMax := some (minNumeric.toNat, maxNumeric.toNat + 1)
      if maxNumeric < 255 then some ⟨.utinyint, minMax⟩ else some ⟨.usmallint, minMax⟩
    | some type => some ⟨type, none⟩
  else none

/-! ## The memory of a compressed string -/

section

variable {w : Nat} {s : List UInt8}

/-- The big-endian bytes of a compressed string. -/
def paddedString (width : Nat) (s : List UInt8) : List UInt8 :=
  padded 0 width s (UInt8.ofNat s.length)

theorem reverse_set_padded (fits : s.length ≤ w) (x : UInt8) :
    ((s ++ replicate (w + 1 - s.length) 0).reverse).set 0 x = (padded 0 w s x).reverse := by
  rw [padded, succ_sub fits, replicate_succ', ← append_assoc, reverse_concat, reverse_concat]
  rfl

theorem ofBytes_inlined (le : s.length ≤ inlineLength) : StringMemory.ofBytes s =
      .inlined s.length (s ++ replicate (inlineLength - s.length) 0) :=
  if_pos le

theorem ofBytes_pointer (long : ¬s.length ≤ inlineLength) :
    StringMemory.ofBytes s = .pointer s.length (s.take prefixLength) s :=
  if_neg long

theorem size_ofBytes (s : List UInt8) : (StringMemory.ofBytes s).size = s.length := by
  rw [StringMemory.ofBytes]
  split_ifs
  · rfl
  · rfl

theorem take_append_zeros {m : Nat} (fits : s.length ≤ m) (le : m ≤ n) :
    (s ++ replicate (n - s.length) 0).take m = s ++ replicate (m - s.length) 0 := by
  rw [take_append, take_of_length_le fits, take_replicate]
  congr 2
  omega

/-- In each layout the bytes are reversed, and zeros are below them. -/
theorem copyReversed_eq {size : Nat} (fits : s.length ≤ size) :
    copyReversed size (.ofBytes s) = (s ++ replicate (size - s.length) 0).reverse := by
  rcases lt_or_ge inlineLength s.length with long | hsh
  · rw [ofBytes_pointer (Nat.not_le_of_lt long)]
    unfold copyReversed
    rw [if_neg (by omega), reverse_append, reverse_replicate]
    change _ ++ (s.take s.length).reverse = _
    rw [take_length]
  · rw [ofBytes_inlined hsh]
    unfold copyReversed
    split_ifs with narrow
    · exact congrArg List.reverse (take_append_zeros fits narrow)
    · change _ ++ (List.take _ _).reverse = _
      rw [take_append_zeros hsh le_rfl, ← reverse_replicate, ← reverse_append,
        append_assoc, replicate_append_replicate]
      congr 3
      omega

theorem stringCompressInternal_eq (fits : s.length ≤ w) :
    stringCompressInternal (w + 1) (.ofBytes s) = (paddedString w s).reverse := by
  rw [stringCompressInternal, size_ofBytes, copyReversed_eq (by omega), reverse_set_padded fits,
    paddedString]

theorem paddedString_length (fits : s.length ≤ w) : (paddedString w s).length = w + 1 :=
  length_padded fits

theorem take_paddedString {m : Nat} (fits : s.length ≤ m) (le : m ≤ w) :
    (paddedString w s).take m = s ++ replicate (m - s.length) 0 := by
  have len : m ≤ (s ++ replicate (w - s.length) (0 : UInt8)).length := by
    rw [length_append, length_replicate]
    omega
  rw [paddedString, padded, take_append_of_le_length len, take_append_zeros fits le]

theorem take_length_paddedString (fits : s.length ≤ w) : (paddedString w s).take s.length = s := by
  rw [take_paddedString le_rfl fits, Nat.sub_self]
  exact append_nil s

/-- A copy of the whole integer has the bytes in the order of the string. -/
theorem reverseMemCpy_paddedString (fits : s.length ≤ w) :
    reverseMemCpy (paddedString w s).reverse (w + 1) = paddedString w s := by
  rw [reverseMemCpy, ← paddedString_length fits, ← length_reverse, take_length, reverse_reverse]

/-- Decompressing reads the string back, in the layout that its length asks for. -/
theorem stringDecompressInternal_eq (fits : s.length ≤ w) (lt : s.length < 256) :
    stringDecompressInternal (w + 1) (paddedString w s).reverse = .ofBytes s := by
  have len : ((paddedString w s).reverse.headD 0).toNat = s.length := by
    rw [paddedString, padded, reverse_concat]
    exact UInt8.toNat_ofNat_of_lt' lt
  unfold stringDecompressInternal
  rw [len, reverseMemCpy_paddedString fits]
  dsimp only
  split_ifs with narrow hsh
  · rw [Nat.add_sub_cancel, take_paddedString fits le_rfl, ofBytes_inlined (by omega),
      append_assoc, replicate_append_replicate]
    congr 3
    omega
  · have copied : reverseMemCpy ((paddedString w s).reverse.drop (w + 1 - inlineLength))
        inlineLength = (paddedString w s).take inlineLength := by
      have kept : (paddedString w s).length - (w + 1 - inlineLength) = inlineLength := by
        rw [paddedString_length fits]
        omega
      rw [reverseMemCpy, drop_reverse, kept, take_of_length_le, reverse_reverse]
      rw [length_reverse, length_take]
      exact min_le_left _ _
    rw [copied, take_paddedString hsh (by omega), ofBytes_inlined hsh]
  · have long : prefixLength ≤ s.length := by
      simp only [prefixLength, inlineLength] at hsh ⊢
      omega
    have start : (paddedString w s).take prefixLength = s.take prefixLength := by
      conv_rhs => rw [← take_length_paddedString fits, take_take, min_eq_left long]
    rw [take_length_paddedString fits, start, ofBytes_pointer hsh]

end

/-! ## Order -/

section

variable {w : Nat} {a b : List UInt8}

theorem paddedString_lt (less : a < b) (fitsA : a.length ≤ w) (fitsB : b.length ≤ w)
    (lt : w < 256) : paddedString w a < paddedString w b := by
  refine (padded_below (fun x => UInt8.zero_le) less fitsA fitsB fun shorter => ?_).lt
  rw [UInt8.lt_iff_toNat_lt, UInt8.toNat_ofNat_of_lt' (show a.length < 256 by omega),
    UInt8.toNat_ofNat_of_lt' (show b.length < 256 by omega)]
  exact shorter

theorem byteNumber_paddedString_lt_iff (fitsA : a.length ≤ w) (fitsB : b.length ≤ w)
    (lt : w < 256) : byteNumber (paddedString w a) < byteNumber (paddedString w b) ↔ a < b := by
  have same : (paddedString w a).length = (paddedString w b).length := by
    rw [paddedString_length fitsA, paddedString_length fitsB]
  rw [byteNumber_lt_iff same]
  refine ⟨fun less => ?_, fun less => paddedString_lt less fitsA fitsB lt⟩
  rcases lt_trichotomy a b with less' | rfl | gt
  · exact less'
  · exact absurd less (lt_irrefl _)
  · exact absurd less (paddedString_lt gt fitsB fitsA lt).not_gt

theorem highest_bit (fits : a.length ≤ 15) :
    2 ^ 127 ≤ byteNumber (paddedString 15 a) ↔ 128 ≤ a.headD 0 := by
  cases a with
  | nil => decide
  | cons fst a =>
    have rest := byteNumber_lt (padded 0 14 a (UInt8.ofNat (fst :: a).length))
    rw [length_padded (le_of_succ_le_succ fits)] at rest
    rw [paddedString, padded_cons, byteNumber_cons, length_padded (le_of_succ_le_succ fits),
      headD_cons, UInt8.le_iff_toNat_le]
    change _ ↔ 128 ≤ fst.toNat
    omega

end

/-- The integer that stands for a string. -/
def compressed (type : CompressedType) (s : List UInt8) : Int :=
  type.value (stringCompress type (.ofBytes s))

/-- Decompressing gives the string back. -/
def RoundTrips (type : CompressedType) (s : List UInt8) : Prop :=
  stringDecompress type (stringCompress type (.ofBytes s)) = .ofBytes s

/-- The integers compare as the strings do. -/
def OrderPreserved (type : CompressedType) (a b : List UInt8) : Prop :=
  (compressed type a < compressed type b ↔ a < b) ∧
  (compressed type b < compressed type a ↔ b < a)

instance (type : CompressedType) (s : List UInt8) : Decidable (RoundTrips type s) :=
  inferInstanceAs (Decidable (_ = _))

instance (type : CompressedType) (a b : List UInt8) : Decidable (OrderPreserved type a b) :=
  inferInstanceAs (Decidable (_ ∧ _))

section

variable {type : CompressedType} {w : Nat} {a b s : List UInt8}

theorem stringCompress_eq (wide : type ≠ .utinyint) (inp : StringMemory) :
    stringCompress type inp = stringCompressInternal type.size inp := by
  cases type with
  | utinyint => exact absurd rfl wide
  | usmallint | uinteger | ubigint | hugeint => rfl

theorem stringDecompress_eq (wide : type ≠ .utinyint) (inp : List UInt8) :
    stringDecompress type inp = stringDecompressInternal type.size inp := by
  cases type with
  | utinyint => exact absurd rfl wide
  | usmallint | uinteger | ubigint | hugeint => rfl

theorem size_le (type : CompressedType) : type.size ≤ 16 := by
  cases type <;> decide

theorem roundTrips (wide : type ≠ .utinyint) (fits : s.length < type.size) : RoundTrips type s := by
  have size := size_le type
  obtain ⟨_, width_eq⟩ := exists_eq_succ_of_ne_zero (ne_of_gt (zero_lt_of_lt fits))
  rw [RoundTrips, stringCompress_eq wide, stringDecompress_eq wide, width_eq,
    stringCompressInternal_eq (by omega), stringDecompressInternal_eq (by omega) (by omega)]

theorem compressed_eq (narrow : type ≠ .hugeint) (wide : type ≠ .utinyint)
    (width_eq : type.size = w + 1) (fits : s.length ≤ w) :
    compressed type s = byteNumber (paddedString w s) := by
  rw [compressed, CompressedType.value, stringCompress_eq wide, width_eq,
    stringCompressInternal_eq fits, reverse_reverse, if_neg narrow]

theorem orderPreserved (narrow : type ≠ .hugeint) (wide : type ≠ .utinyint)
    (fitsA : a.length < type.size) (fitsB : b.length < type.size) : OrderPreserved type a b := by
  have size := size_le type
  obtain ⟨_, width_eq⟩ := exists_eq_succ_of_ne_zero (ne_of_gt (zero_lt_of_lt fitsA))
  rw [OrderPreserved, compressed_eq narrow wide width_eq (by omega),
    compressed_eq narrow wide width_eq (by omega), Int.ofNat_lt, Int.ofNat_lt,
    byteNumber_paddedString_lt_iff (by omega) (by omega) (by omega),
    byteNumber_paddedString_lt_iff (by omega) (by omega) (by omega)]
  exact ⟨Iff.rfl, Iff.rfl⟩

end

/-- With a sign, numbers compare as before if their highest bits are the same. -/
theorem signed_order_iff {u v : Nat} (fitsU : u < 2 ^ 128) (fitsV : v < 2 ^ 128) :
    ((CompressedType.signed u < CompressedType.signed v ↔ u < v) ∧
      (CompressedType.signed v < CompressedType.signed u ↔ v < u)) ↔
        (2 ^ 127 ≤ u ↔ 2 ^ 127 ≤ v) := by
  rw [CompressedType.signed, CompressedType.signed]
  split_ifs
  all_goals omega

theorem compressed_hugeint (fits : s.length ≤ 15) :
    compressed .hugeint s = CompressedType.signed (byteNumber (paddedString 15 s)) := by
  have memory : stringCompress .hugeint (.ofBytes s) = (paddedString 15 s).reverse :=
    stringCompressInternal_eq fits
  rw [compressed, CompressedType.value, memory, reverse_reverse, if_pos rfl]

/-- A `HUGEINT` has the order of the strings if both or none of them have the highest bit. -/
theorem orderPreserved_hugeint_iff {a b : List UInt8} (fitsA : a.length ≤ 15)
    (fitsB : b.length ≤ 15) :
    OrderPreserved .hugeint a b ↔ (128 ≤ a.headD 0 ↔ 128 ≤ b.headD 0) := by
  have boundA := byteNumber_lt (paddedString 15 a)
  have boundB := byteNumber_lt (paddedString 15 b)
  rw [paddedString_length fitsA] at boundA
  rw [paddedString_length fitsB] at boundB
  rw [OrderPreserved, compressed_hugeint fitsA, compressed_hugeint fitsB,
    ← byteNumber_paddedString_lt_iff fitsA fitsB (by omega),
    ← byteNumber_paddedString_lt_iff fitsB fitsA (by omega), ← highest_bit fitsA,
    ← highest_bit fitsB]
  exact signed_order_iff boundA boundB

/-! ## One byte -/

/-- A string that `UTINYINT` can represent. -/
def Mini (s : List UInt8) : Prop := s = [] ∨ ∃ c, s = [c] ∧ c < 255

theorem miniStringCompress_cons : miniStringCompress (.ofBytes [c]) = c + 1 := by
  apply UInt8.toNat_inj.mp
  change (1 + c.toNat) % 256 = (c.toNat + 1) % 256
  rw [add_comm]

theorem toNat_add_one (less : c < 255) : (c + 1).toNat = c.toNat + 1 := by
  have hb : c.toNat < 255 := UInt8.lt_iff_toNat_lt.mp less
  rw [UInt8.toNat_add]
  exact mod_eq_of_lt (succ_lt_succ hb)

theorem roundTrips_mini (mini : Mini s) : RoundTrips .utinyint s := by
  rcases mini with rfl | ⟨c, rfl, less⟩
  · decide
  · have pos : c + 1 ≠ 0 := by
      intro zero
      have number := toNat_add_one less
      rw [zero] at number
      exact absurd number (succ_ne_zero _).symm
    change miniStringDecompress (miniStringCompress _) = _
    rw [miniStringCompress_cons, miniStringDecompress, if_neg pos, UInt8.add_sub_cancel]
    rfl

theorem compressed_mini (less : c < 255) : compressed .utinyint [c] = (c.toNat + 1 : Nat) := by
  rw [← toNat_add_one less, ← miniStringCompress_cons]
  exact congrArg Nat.cast (Nat.zero_add _)

theorem mini_lt_iff {a b : List UInt8} (miniA : Mini a) (miniB : Mini b) :
    compressed .utinyint a < compressed .utinyint b ↔ a < b := by
  have emp : compressed .utinyint [] = 0 := by decide
  rcases miniA with rfl | ⟨_, rfl, less⟩
  · rcases miniB with rfl | ⟨d, rfl, less'⟩
    · decide
    · rw [emp, compressed_mini less']
      exact iff_of_true (by omega) (nil_lt_cons _ _)
  · rw [compressed_mini less]
    rcases miniB with rfl | ⟨_, rfl, less'⟩
    · rw [emp]
      exact iff_of_false (by omega) (not_lt_nil _)
    · rw [compressed_mini less', Int.ofNat_lt, add_lt_add_iff_right, ← UInt8.lt_iff_toNat_lt,
        cons_lt_cons_iff]
      exact (or_iff_left fun heq => not_lt_nil _ heq.2).symm

/-! ## The chosen type -/

theorem find_stringTypes (n : Nat) : (CompressedType.stringTypes.find? fun type => n < type.size) =
      if n < 1 then some .utinyint else if n < 2 then some .usmallint
      else if n < 4 then some .uinteger else if n < 8 then some .ubigint
      else if n < 16 then some .hugeint else none := by
  simp only [CompressedType.stringTypes, find?_cons, CompressedType.size]
  split_ifs
  all_goals simp [*]

theorem boundNumeric_cons (some_length : n ≠ 0) (m : UInt8) (bs : List UInt8) :
    boundNumeric n (m :: bs) = m := by
  rw [boundNumeric, getStringMinMaxValue, takeWhile_cons]
  split_ifs with nonzero some_bytes emp
  · rfl
  · exact absurd ⟨some_length, cons_ne_nil _ _⟩ some_bytes
  · exact absurd rfl emp.2
  · rw [Bool.not_eq_true, bne_eq_false_iff_eq] at nonzero
    exact nonzero.symm

/-- The first byte of a string is at most that of the maximum. -/
theorem first_le_boundNumeric (ok : st.Consistent (c :: s)) (some_length : n ≠ 0) :
    c ≤ boundNumeric n st.max := by
  have upper := ok.2.2
  have len := st.max_length
  cases max : st.max with
  | nil =>
    rw [max] at len
    cases len
  | cons m hb =>
    rw [boundNumeric_cons some_length]
    rw [max, take_succ_cons, stringValueComparison] at upper
    refine le_of_not_gt fun gt => upper ?_
    rw [if_neg gt.not_gt, if_pos gt]

theorem mini_of_consistent (ok : st.Consistent s) (le : s.length ≤ 1)
    (bounded : boundNumeric 1 st.max < 255) : Mini s := by
  rcases s with _ | ⟨c, s⟩
  · exact .inl rfl
  · obtain rfl : s = [] := eq_nil_of_length_eq_zero (le_zero.mp (le_of_succ_le_succ le))
    exact .inr ⟨c, rfl, (first_le_boundNumeric ok one_ne_zero).trans_lt bounded⟩

/-- What a column may hold that becomes an integer of each type. -/
theorem getStringCompress_cases {compression : StringCompression}
    (chosen : getStringCompress st = some compression) : st.hasMaxStringLength = true ∧
    (compression.castType = .utinyint ∧ st.maxStringLength < 8 ∧
        (∀ s, st.Consistent s → Mini s) ∨
      compression.castType ≠ .utinyint ∧ compression.castType ≠ .hugeint ∧
        st.maxStringLength < 8 ∧ st.maxStringLength < compression.castType.size ∨
      compression.castType = .hugeint ∧ 8 ≤ st.maxStringLength ∧
        st.maxStringLength ≤ 15) := by
  rw [getStringCompress, find_stringTypes] at chosen
  split_ifs at chosen with hk emp one four eight sixteen
  all_goals dsimp only at chosen
  · cases chosen
    refine ⟨hk, .inl ⟨rfl, by omega, fun s ok => .inl ?_⟩⟩
    have hsh := ok.1 hk
    exact eq_nil_of_length_eq_zero (by omega)
  · have len : st.maxStringLength = 1 := by omega
    rw [len] at chosen
    split_ifs at chosen with bounded
    · cases chosen
      refine ⟨hk, .inl ⟨rfl, by omega, fun s ok => ?_⟩⟩
      exact mini_of_consistent ok (len ▸ ok.1 hk) bounded
    · cases chosen
      have wide : CompressedType.usmallint ≠ .utinyint := by decide
      have narrow : CompressedType.usmallint ≠ .hugeint := by decide
      exact ⟨hk, .inr (.inl ⟨wide, narrow, by omega, one⟩)⟩
  · cases chosen
    exact ⟨hk, .inr (.inl ⟨by decide, by decide, by omega, four⟩)⟩
  · cases chosen
    exact ⟨hk, .inr (.inl ⟨by decide, by decide, eight, eight⟩)⟩
  · cases chosen
    exact ⟨hk, .inr (.inr ⟨rfl, Nat.le_of_not_lt eight, le_of_lt_succ sixteen⟩)⟩

/-- Strings become integers and come back, in their order, unless the integers are `HUGEINT` and
only one of the strings starts with a byte that is not ASCII. -/
theorem stringCompress_iff {stats : StringStats} {compression : StringCompression}
    (chosen : getStringCompress stats = some compression) {a b : List UInt8}
    (consistentA : stats.Consistent a) (consistentB : stats.Consistent b) :
    RoundTrips compression.castType a ∧ RoundTrips compression.castType b ∧
        OrderPreserved compression.castType a b ↔
      stats.maxStringLength < 8 ∨ (128 ≤ a.headD 0 ↔ 128 ≤ b.headD 0) := by
  obtain ⟨known, type⟩ := getStringCompress_cases chosen
  have fitsA := consistentA.1 known
  have fitsB := consistentB.1 known
  rcases type with ⟨type, short, mini⟩ | ⟨wide, narrow, short, fits⟩ | ⟨type, long, _⟩
  · have miniA := mini a consistentA
    have miniB := mini b consistentB
    rw [type]
    exact iff_of_true ⟨roundTrips_mini miniA, roundTrips_mini miniB, mini_lt_iff miniA miniB,
      mini_lt_iff miniB miniA⟩ (.inl short)
  · exact iff_of_true ⟨roundTrips wide (by omega), roundTrips wide (by omega),
      orderPreserved narrow wide (by omega) (by omega)⟩ (.inl short)
  · have wide : CompressedType.hugeint ≠ .utinyint := by decide
    have size : CompressedType.hugeint.size = 16 := rfl
    rw [type, and_iff_right (roundTrips wide (by omega)),
      and_iff_right (roundTrips wide (by omega)), orderPreserved_hugeint_iff (by omega) (by omega),
      or_iff_right (Nat.not_lt_of_le long)]

/-- Statistics of strings from `a` on, of up to seven bytes. -/
def shortStats : StringStats where
  min := [97, 0, 0, 0, 0, 0, 0, 0]
  max := [255, 97, 98, 99, 100, 101, 102, 0]
  hasMaxStringLength := true
  maxStringLength := 7
  min_length := rfl
  max_length := rfl

/-- Two strings of one and of seven bytes as `UBIGINT`. -/
theorem stringCompress_short :
    let a : List UInt8 := [97]
    let b : List UInt8 := [255, 97, 98, 99, 100, 101, 102]
    getStringCompress shortStats = some ⟨.ubigint, none⟩ ∧
    shortStats.Consistent a ∧ shortStats.Consistent b ∧
    RoundTrips .ubigint a ∧ RoundTrips .ubigint b ∧ OrderPreserved .ubigint a b := by
  intro a b
  have chosen : getStringCompress shortStats = some ⟨.ubigint, none⟩ := rfl
  have consistentA : shortStats.Consistent a := ⟨by decide, by decide, by decide⟩
  have consistentB : shortStats.Consistent b := ⟨by decide, by decide, by decide⟩
  exact ⟨chosen, consistentA, consistentB,
    (stringCompress_iff chosen consistentA consistentB).mpr (.inl (by decide))⟩

/-- Statistics of `zebrafish` and `éclairs`. -/
def unicodeStats : StringStats where
  min := [122, 101, 98, 114, 97, 102, 105, 115]
  max := [195, 169, 99, 108, 97, 105, 114, 115]
  hasMaxStringLength := true
  maxStringLength := 9
  min_length := rfl
  max_length := rfl

/-- `zebrafish` sorts before `éclairs` as a string, and after it as a `HUGEINT`. -/
theorem stringCompress_unicode :
    let a : List UInt8 := [122, 101, 98, 114, 97, 102, 105, 115, 104]
    let b : List UInt8 := [195, 169, 99, 108, 97, 105, 114, 115]
    getStringCompress unicodeStats = some ⟨.hugeint, none⟩ ∧
    unicodeStats.Consistent a ∧ unicodeStats.Consistent b ∧ a < b ∧
    compressed .hugeint b < compressed .hugeint a ∧ ¬OrderPreserved .hugeint a b :=
  ⟨rfl, ⟨by decide, by decide, by decide⟩, ⟨by decide, by decide, by decide⟩, by decide,
    by decide, by decide⟩

end AccessPath.Compression
