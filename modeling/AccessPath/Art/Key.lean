import AccessPath.Types
import AccessPath.Library.OrderedEncoding

/-!
# Index keys

`ARTKey` and the generation of the keys of a chunk (`art_key.cpp`,
`Radix::EncodeData` and `ART::GenerateKeys`): every column value becomes a byte
string and the key of a row is their concatenation.
-/

namespace AccessPath

open Library List

/-! ## Values -/

/-- The column types of an index, floating point types apart. -/
inductive KeyType where
  | bool
  | integer (type : IntegerType)
  | varchar
  deriving DecidableEq, Repr

/-- `string_t`: a string, of a length that fits in 32 bits. -/
structure StringT where
  data : Bytes
  fits : data.length < 2 ^ 32

@[ext] theorem StringT.ext {s s' : StringT} (eq : s.data = s'.data) : s = s' := by
  cases s
  cases s'
  cases eq
  rfl

abbrev KeyType.Value : KeyType → Type
  | .bool => Bool
  | .integer t => t.Value
  | .varchar => StringT

/-! ## `Radix::EncodeData` -/

namespace Radix

def flipSign (keyByte : UInt8) : UInt8 := keyByte ^^^ 128

/-- `dataptr[0] = FlipSign(dataptr[0])`. -/
def flipFirst : Bytes → Bytes
  | [] => []
  | byte :: bytes => flipSign byte :: bytes

/-- Store a byte-swapped word of at most eight bytes. -/
def encodeWord (signed : Bool) (bytes value : Nat) : Bytes :=
  if signed then flipFirst (bigEndian bytes value) else bigEndian bytes value

def encodeBool (value : Bool) : Bytes := [if value then 1 else 0]

/-- The 128-bit types store their upper and their lower half. -/
def encodeData (t : IntegerType) (value : t.Value) : Bytes :=
  match t.width with
  | .sixteen =>
    encodeWord t.signed 8 (value.toNat / 2 ^ 64) ++ encodeWord false 8 (value.toNat % 2 ^ 64)
  | width => encodeWord t.signed width.bytes value.toNat

end Radix

/-! ## `ARTKey` -/

/-- The `len` bytes at `data`. -/
abbrev ARTKey := Bytes

namespace ARTKey

/-- A string is written with the bytes 0 and 1 escaped. -/
def escape (byte : UInt8) : Bytes := if byte ≤ 1 then [1, byte] else [byte]

/-- The bytes of a string key, before `len` is cast to 32 bits. -/
def stringData (value : StringT) : Bytes := OrderedEncoding.terminated escape [0] value.data

def createARTKey : (t : KeyType) → t.Value → ARTKey
  | .bool, value => Radix.encodeBool value
  | .integer t, value => Radix.encodeData t value
  | .varchar, value => (stringData value).take ((stringData value).length % 2 ^ 32)

/-- Both copies are made in full; the sum of the lengths wraps around. -/
def concatenateARTKey (key other : ARTKey) : ARTKey :=
  (key ++ other).take ((key.length + other.length) % 2 ^ 32)

/-- `operator>`. -/
def greater : ARTKey → ARTKey → Bool
  | a :: key, b :: other => if a > b then true else if a < b then false else greater key other
  | key, other => decide (key.length > other.length)

/-- `operator>=`. -/
def greaterEqual : ARTKey → ARTKey → Bool
  | a :: key, b :: other =>
    if a > b then true else if a < b then false else greaterEqual key other
  | key, other => decide (key.length ≥ other.length)

theorem greater_iff (k o : ARTKey) : greater k o = true ↔ o < k := by
  induction k generalizing o with
  | nil => cases o <;> simp [greater]
  | cons a k ih =>
    cases o with
    | nil => simp [greater]
    | cons b o =>
      rcases lt_trichotomy a b with less | eq | less
      · simp [greater, less, less.not_gt, cons_lt_cons_iff, less.ne']
      · simp [greater, eq, ih]
      · simp [greater, less, cons_lt_cons_iff]

theorem greaterEqual_eq (k o : ARTKey) : greaterEqual k o = !greater o k := by
  induction k generalizing o with
  | nil => cases o <;> simp [greaterEqual, greater]
  | cons a k ih =>
    cases o with
    | nil => simp [greaterEqual, greater]
    | cons b o =>
      rcases lt_trichotomy a b with less | eq | less
      · simp [greaterEqual, greater, less, less.not_gt]
      · simp [greaterEqual, greater, eq, ih]
      · simp [greaterEqual, greater, less, less.not_gt]

theorem greaterEqual_iff (k o : ARTKey) : greaterEqual k o = true ↔ o ≤ k := by
  rw [greaterEqual_eq, Bool.not_eq_true', Bool.eq_false_iff, ne_eq, greater_iff, not_lt]

end ARTKey

/-! ## `ART::GenerateKeys` -/

/-- One row of a chunk; a column may be NULL. -/
def Entries : List KeyType → Type
  | [] => Unit
  | t :: types => Option t.Value × Entries types

/-- The key of the first column. A NULL makes the empty key. -/
def templatedGenerateKeys {t : KeyType} : Option t.Value → ARTKey
  | none => []
  | some value => ARTKey.createARTKey t value

/-- Append a further column. The empty key stays, and a NULL makes it. -/
def concatenateKeys {t : KeyType} (key : ARTKey) : Option t.Value → ARTKey
  | none => []
  | some value =>
    if key.isEmpty then key
    else ARTKey.concatenateARTKey key (ARTKey.createARTKey t value)

/-- The columns after the first. -/
def concatenateColumns : (types : List KeyType) → ARTKey → Entries types → ARTKey
  | [], key, _ => key
  | _ :: types, key, (entry, entries) =>
    concatenateColumns types (concatenateKeys key entry) entries

/-- The key of a row; an index has at least one column. -/
def generateKeys (t : KeyType) (types : List KeyType) (entries : Entries (t :: types)) : ARTKey :=
  concatenateColumns types (templatedGenerateKeys entries.1) entries.2

/-! ## Rows and their order -/

/-- A row without NULLs. -/
def Row : List KeyType → Type
  | [] => Unit
  | t :: types => t.Value × Row types

def Row.entries : (types : List KeyType) → Row types → Entries types
  | [], _ => ()
  | _ :: types, (value, row) => (some value, entries types row)

/-- Values compare as booleans, as integers and bytewise. -/
def KeyType.Less : (t : KeyType) → t.Value → t.Value → Prop
  | .bool, x, y => x < y
  | .integer t, x, y => t.toInt x < t.toInt y
  | .varchar, x, y => x.data < y.data

/-- Rows compare column by column. -/
def Row.Less : (types : List KeyType) → Row types → Row types → Prop
  | [], _, _ => False
  | t :: types, (value, row), (value', row') =>
    t.Less value value' ∨ value = value' ∧ Row.Less types row row'

/-- The number of bytes that a value takes in a key. -/
def KeyType.encodedLength : (t : KeyType) → t.Value → Nat
  | .bool, _ => 1
  | .integer t, _ => t.bytes
  | .varchar, value => value.data.length + value.data.countP (· ≤ 1) + 1

def Row.encodedLength : (types : List KeyType) → Row types → Nat
  | [], _ => 0
  | t :: types, (value, row) => t.encodedLength value + encodedLength types row

/-! ## Integers -/

namespace Radix

theorem flipFirst_append {u : Bytes} (ne : u ≠ []) (v : Bytes) :
    flipFirst (u ++ v) = flipFirst u ++ v := by
  cases u with
  | nil => exact absurd rfl ne
  | cons b u => rfl

theorem flipSign_eq_add (b : UInt8) : flipSign b = b + 128 := by
  have flip : ∀ n < 256, n ^^^ 128 = (n + 128) % 256 := by decide +kernel
  apply UInt8.toNat_inj.mp
  rw [flipSign, UInt8.toNat_xor, UInt8.toNat_add]
  exact flip b.toNat b.toNat_lt

theorem flipFirst_bigEndian (w n : Nat) :
    flipFirst (bigEndian (w + 1) n) = bigEndian (w + 1) (n + 128 * 256 ^ w) := by
  have high : (n + 128 * 256 ^ w) / 256 ^ w = n / 256 ^ w + 128 :=
    Nat.add_mul_div_right _ _ (by positivity)
  have low : bigEndian w (n + 128 * 256 ^ w) = bigEndian w n := by
    rw [← bigEndian_mod, Nat.add_mul_mod_self_right, bigEndian_mod]
  rw [bigEndian_head, bigEndian_head, high, low, flipFirst, flipSign_eq_add]
  simp

theorem encodeData_eq (t : IntegerType) (v : t.Value) :
    encodeData t v = encodeWord t.signed t.bytes v.toNat := by
  obtain ⟨signed, w⟩ := t
  cases w with
  | sixteen =>
    have eq : bigEndian 16 v.toNat =
        bigEndian 8 (v.toNat / 2 ^ 64) ++ bigEndian 8 (v.toNat % 2 ^ 64) := by
      rw [show (2 : Nat) ^ 64 = 256 ^ 8 by norm_num, bigEndian_mod]
      exact bigEndian_add 8 8 _
    have ne : bigEndian 8 (v.toNat / 2 ^ 64) ≠ [] := by
      rw [← length_pos_iff, length_bigEndian]
      norm_num
    cases signed with
    | false => exact eq.symm
    | true =>
      have flipped := (congrArg flipFirst eq).trans (flipFirst_append ne _)
      exact flipped.symm
  | _ => rfl

end Radix

namespace IntegerType

variable (t : IntegerType)

theorem bytes_pos : 0 < t.bytes := by
  unfold bytes
  cases t.width <;> decide

/-- The number of values of the type below `x`. -/
def rank (x : t.Value) : Nat :=
  if t.signed then (x.toNat + 2 ^ (t.bits - 1)) % 2 ^ t.bits else x.toNat

theorem rank_lt (x : t.Value) : t.rank x < 256 ^ t.bytes := by
  have range : 256 ^ t.bytes = 2 ^ t.bits := by
    rw [bits, pow_mul]
    norm_num
  rw [range, rank]
  split
  · omega
  · exact x.isLt

theorem toInt_eq_rank (x : t.Value) : t.toInt x = t.rank x + t.minimum := by
  have pos : 0 < t.bits := Nat.mul_pos (by decide) t.bytes_pos
  have half : 2 ^ t.bits = 2 * 2 ^ (t.bits - 1) := by
    rw [← pow_succ', Nat.sub_add_cancel pos]
  unfold toInt rank minimum
  cases t.signed with
  | false => simp
  | true =>
    have cast : ((2 ^ (t.bits - 1) : Nat) : Int) = 2 ^ (t.bits - 1) := by push_cast; rfl
    simp only [if_true, BitVec.toInt_eq_toNat_cond]
    split
    · rw [Nat.mod_eq_of_lt (by omega)]
      omega
    · rw [Nat.mod_eq_sub_mod (by omega), Nat.mod_eq_of_lt (by omega)]
      omega

theorem rank_lt_iff (x y : t.Value) : t.rank x < t.rank y ↔ t.toInt x < t.toInt y := by
  rw [toInt_eq_rank, toInt_eq_rank]
  omega

theorem toInt_injective {x y : t.Value} (eq : t.toInt x = t.toInt y) : x = y := by
  unfold toInt at eq
  split at eq
  · exact BitVec.toInt_inj.mp eq
  · exact BitVec.eq_of_toNat_eq (by exact_mod_cast eq)

theorem encodeData_eq_rank (x : t.Value) : Radix.encodeData t x = bigEndian t.bytes (t.rank x) := by
  rw [Radix.encodeData_eq, Radix.encodeWord, rank]
  split
  · obtain ⟨w, wide⟩ := Nat.exists_eq_add_one_of_ne_zero t.bytes_pos.ne'
    have half : 2 ^ (t.bits - 1) = 128 * 256 ^ w := by
      rw [bits, wide, show 8 * (w + 1) - 1 = 7 + 8 * w by omega, pow_add, pow_mul]
      norm_num
    have range : 2 ^ t.bits = 256 ^ (w + 1) := by
      rw [bits, wide, pow_mul]
      norm_num
    rw [half, range, wide, bigEndian_mod, Radix.flipFirst_bigEndian]
  · rfl

theorem encodeData_ordered :
    OrderedEncoding (Radix.encodeData t) (fun x y => t.toInt x < t.toInt y) where
  below := by
    intro x y less
    rw [encodeData_eq_rank, encodeData_eq_rank]
    exact below_bigEndian ((t.rank_lt_iff x y).mpr less) (t.rank_lt y)
  connected := by
    intro x y
    rcases lt_trichotomy (t.toInt x) (t.toInt y) with less | eq | less
    · exact .inl less
    · exact .inr (.inl (t.toInt_injective eq))
    · exact .inr (.inr less)

end IntegerType

/-! ## Columns and rows -/

namespace ARTKey

theorem escape_ordered : OrderedEncoding escape (· < ·) where
  connected := lt_trichotomy
  below := by
    intro a b less
    unfold escape
    split <;> split
    · exact (Below.of_heads less [] []).cons 1
    · next high => exact Below.of_heads (not_le.mp high) _ _
    · next high low => exact absurd (less.le.trans low) high
    · exact Below.of_heads less _ _

theorem stop_below (b : UInt8) (rest : Bytes) : Below [0] (escape b ++ rest) := by
  unfold escape
  split
  · exact Below.of_heads (by decide) _ _
  · next high => exact Below.of_heads (lt_trans (by decide) (not_le.mp high)) _ _

theorem stringData_ordered :
    OrderedEncoding stringData (fun s s' => s.data < s'.data) where
  below := (OrderedEncoding.terminated_ordered escape_ordered stop_below).below
  connected := by
    intro s s'
    rcases lt_trichotomy s.data s'.data with less | eq | less
    · exact .inl less
    · exact .inr (.inl (StringT.ext eq))
    · exact .inr (.inr less)

theorem length_stringData (s : StringT) :
    (stringData s).length = s.data.length + s.data.countP (· ≤ 1) + 1 := by
  have letters (word : Bytes) :
      (word.flatMap escape).length = word.length + word.countP (· ≤ 1) := by
    induction word with
    | nil => rfl
    | cons b word ih =>
      rw [flatMap_cons, length_append, ih, countP_cons, length_cons]
      by_cases low : b ≤ 1
      · rw [escape, if_pos low, if_pos (decide_eq_true low), length_cons, length_singleton]
        omega
      · rw [escape, if_neg low, if_neg (by simpa using low), length_singleton]
        omega
  rw [stringData, OrderedEncoding.terminated, length_append, letters]
  rfl

/-- The bytes of a column before any length wraps around. -/
def encode : (t : KeyType) → t.Value → Bytes
  | .bool, value => Radix.encodeBool value
  | .integer t, value => Radix.encodeData t value
  | .varchar, value => stringData value

theorem length_encode (t : KeyType) (v : t.Value) :
    (encode t v).length = t.encodedLength v := by
  cases t with
  | bool => rfl
  | integer t => rw [encode, t.encodeData_eq_rank, length_bigEndian, KeyType.encodedLength]
  | varchar => exact length_stringData v

theorem encodedLength_pos (t : KeyType) (v : t.Value) : 0 < t.encodedLength v := by
  cases t with
  | bool => exact Nat.one_pos
  | integer t => exact t.bytes_pos
  | varchar => exact Nat.succ_pos _

theorem encode_ordered (t : KeyType) : OrderedEncoding (encode t) t.Less := by
  cases t with
  | bool =>
    refine ⟨fun {x y} less => ?_, lt_trichotomy (α := Bool)⟩
    obtain ⟨rfl, rfl⟩ := Bool.lt_iff.mp less
    exact Below.of_heads (by decide) _ _
  | integer t => exact t.encodeData_ordered
  | varchar => exact stringData_ordered

theorem createARTKey_eq {t : KeyType} {v : t.Value} (lt : t.encodedLength v < 2 ^ 32) :
    createARTKey t v = encode t v := by
  cases t with
  | bool => rfl
  | integer t => rfl
  | varchar =>
    have full : (stringData v).length < 2 ^ 32 := by rwa [← length_encode] at lt
    rw [createARTKey, Nat.mod_eq_of_lt full]
    exact take_length

theorem concatenateARTKey_eq {k o : ARTKey} (lt : k.length + o.length < 2 ^ 32) :
    concatenateARTKey k o = k ++ o := by
  rw [concatenateARTKey, Nat.mod_eq_of_lt lt, ← length_append, take_length]

end ARTKey

namespace Row

/-- The codes of the columns, one after the other. -/
def encode : (types : List KeyType) → Row types → Bytes
  | [], _ => []
  | t :: types, (value, row) => ARTKey.encode t value ++ encode types row

theorem encode_ordered (types : List KeyType) : OrderedEncoding (encode types) (Less types) := by
  induction types with
  | nil => exact ⟨False.elim, fun _ _ => .inr (.inl rfl)⟩
  | cons t types ih => exact (ARTKey.encode_ordered t).pair ih

end Row

theorem concatenateColumns_eq {types : List KeyType} {k : ARTKey} {r : Row types}
    (ne : k ≠ []) (lt : k.length + Row.encodedLength types r < 2 ^ 32) :
    concatenateColumns types k (Row.entries types r) = k ++ Row.encode types r := by
  induction types generalizing k with
  | nil => exact (append_nil k).symm
  | cons t types ih =>
    obtain ⟨v, r⟩ := r
    rw [Row.encodedLength] at lt
    have column : concatenateKeys k (some v) = k ++ ARTKey.encode t v := by
      rw [concatenateKeys, if_neg (by simpa using ne),
        ARTKey.createARTKey_eq (by omega), ARTKey.concatenateARTKey_eq]
      rw [ARTKey.length_encode]
      omega
    rw [Row.entries, concatenateColumns, column, ih, Row.encode, append_assoc]
    · simp [ne]
    · rw [length_append, ARTKey.length_encode]
      omega

/-- The key of a short row is the concatenation of the codes of its columns. -/
theorem generateKeys_eq {t : KeyType} {types : List KeyType} {r : Row (t :: types)}
    (lt : Row.encodedLength (t :: types) r < 2 ^ 32) :
    generateKeys t types (Row.entries (t :: types) r) = Row.encode (t :: types) r := by
  obtain ⟨v, r⟩ := r
  rw [Row.encodedLength] at lt
  have first : templatedGenerateKeys (some v) = ARTKey.encode t v :=
    ARTKey.createARTKey_eq (by omega)
  have hst : ARTKey.encode t v ≠ [] := by
    rw [← length_pos_iff, ARTKey.length_encode]
    exact ARTKey.encodedLength_pos t v
  change concatenateColumns types (templatedGenerateKeys (some v)) (Row.entries types r) = _
  rw [first, concatenateColumns_eq hst, Row.encode]
  rwa [ARTKey.length_encode]

/-- Keys compare as the rows they are made from, and none is a proper prefix
of another. -/
theorem generateKeys_ordered (t : KeyType) (types : List KeyType) (row row' : Row (t :: types))
    (short : Row.encodedLength (t :: types) row < 2 ^ 32)
    (short' : Row.encodedLength (t :: types) row' < 2 ^ 32) :
    let key := generateKeys t types (Row.entries (t :: types) row)
    let key' := generateKeys t types (Row.entries (t :: types) row')
    (key < key' ↔ Row.Less (t :: types) row row') ∧
      (key = key' ↔ row = row') ∧
      (key > key' ↔ Row.Less (t :: types) row' row) ∧
      (ARTKey.greater key key' = true ↔ key > key') ∧
      (key <+: key' → key = key') := by
  have ordered := Row.encode_ordered (t :: types)
  simp only [generateKeys_eq short, generateKeys_eq short']
  refine ⟨ordered.lt_iff row row', ordered.eq_iff row row', ordered.lt_iff row' row,
    ARTKey.greater_iff _ _, fun inside => ?_⟩
  rw [ordered.eq_of_isPrefix inside]

/-- A row of a boolean, a negative integer and a string with a zero byte. -/
theorem generateKeys_ordered_mixed :
    let types := [KeyType.integer ⟨true, .two⟩, .varchar]
    let row : Row (.bool :: types) := (true, (-2 : BitVec 16), ⟨[0, 97], by decide⟩, ())
    let row' : Row (.bool :: types) := (true, (-2 : BitVec 16), ⟨[1], by decide⟩, ())
    generateKeys .bool types (Row.entries _ row) = [1, 127, 254, 1, 0, 97, 0] ∧
      generateKeys .bool types (Row.entries _ row) < generateKeys .bool types
        (Row.entries _ row') :=
  ⟨by decide, (generateKeys_ordered .bool _ _ _ (by decide) (by decide)).1.mpr
    (.inr ⟨rfl, .inr ⟨rfl, .inl (show [(0 : UInt8), 97] < [1] by decide)⟩⟩)⟩

/-- The terminator of a string of maximal length wraps the length of its key
to zero: the key is a proper prefix of every other and lies below the key of
the empty string. -/
theorem generateKeys_wrapped : ∃ long empty : StringT,
    long.data = replicate (2 ^ 32 - 1) 97 ∧ empty.data = [] ∧
    let key := generateKeys .varchar [] (Row.entries [.varchar] (long, ()))
    let key' := generateKeys .varchar [] (Row.entries [.varchar] (empty, ()))
    Row.Less [.varchar] (empty, ()) (long, ()) ∧ key < key' ∧ key <+: key' ∧ key ≠ key' := by
  obtain ⟨long, spelled⟩ : ∃ long : StringT, long.data = replicate (2 ^ 32 - 1) 97 :=
    ⟨⟨replicate (2 ^ 32 - 1) 97, by rw [length_replicate]; omega⟩, rfl⟩
  refine ⟨long, ⟨[], by decide⟩, spelled, rfl, ?_⟩
  have size : long.data.length = 2 ^ 32 - 1 := by rw [spelled, length_replicate]
  have escapes : long.data.countP (· ≤ 1) = 0 := by
    rw [countP_eq_zero, spelled]
    intro byte mem
    rw [eq_of_mem_replicate mem]
    decide
  have wrapped : (ARTKey.stringData long).length % 2 ^ 32 = 0 := by
    rw [ARTKey.length_stringData, escapes, size]
    norm_num
  have key : generateKeys .varchar [] (Row.entries [.varchar] (long, ())) = [] := by
    change (ARTKey.stringData long).take ((ARTKey.stringData long).length % 2 ^ 32) = []
    rw [wrapped, take_zero]
  have below : ([] : Bytes) < long.data := by
    cases h : long.data with
    | nil => simp [h] at size
    | cons byte bytes => exact nil_lt_cons _ _
  rw [key]
  exact ⟨.inl below, by decide, by decide, by decide⟩

end AccessPath
