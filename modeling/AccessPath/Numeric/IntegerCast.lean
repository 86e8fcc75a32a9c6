import AccessPath.Library.DecimalText
import AccessPath.Types

/-!
# Reading integers

`TryIntegerCast` goes through the characters of a text once and hands digits, decimals
and the exponent to an operation, which keeps the number in a state of its own. A
position in the text is the rest of the text from there on.
-/

namespace AccessPath

open Library List Option Nat

variable {result : Int} {digits rest : List Char} {digit : Nat}

/-! ## Characters -/

def characterIsSpace (c : Char) : Bool :=
  c == ' ' || c == '\t' || c == '\n' || c == '\x0b' || c == '\x0c' || c == '\r'

def characterToLower (c : Char) : Char := if c.isUpper then Char.ofNat (c.toNat + 32) else c

def characterIsHex (c : Char) : Bool := c.isDigit || ('a'.toNat ≤ c.toNat && c.toNat ≤ 'f'.toNat) ||
    ('A'.toNat ≤ c.toNat && c.toNat ≤ 'F'.toNat)

def startsWithDigit : List Char → Bool
  | [] => false
  | c :: _ => c.isDigit

def skipSpaces (text : List Char) : List Char := text.dropWhile characterIsSpace

/-! ## The loops over the text -/

/-- The functions of `IntegerCastOperation` and of those that take its place. Nothing is
the result `false`. -/
structure CastOperation (State : Type) where
  handleDigit : Bool → State → Nat → Option State
  handleHexDigit : State → Nat → Option State
  handleBinaryDigit : State → Nat → Option State
  handleExponent : Bool → State → Int → Option State
  handleDecimal : Bool → Bool → State → Nat → Option State
  finalize : Bool → State → Option State

section

variable {State : Type} (op : CastOperation State)

/-- The loop over the digits after the decimal separator, and the rest after them. -/
def decimalsLoop (negative allowExponent : Bool) : List Char → State → Option (State × List Char)
  | [], state => some (state, [])
  | c :: text, state =>
    if c.isDigit then do
      let state ← op.handleDecimal negative allowExponent state (digitValue c)
      match text with
      | '_' :: next =>
        if startsWithDigit next then decimalsLoop negative allowExponent next state else none
      | text => decimalsLoop negative allowExponent text state
    else some (state, c :: text)

/-- What may follow the digits: spaces, or an exponent, for which there is a function of the
text after the `e`. The flag says whether anything was read before. -/
def afterDigits (negative strict : Bool) (exponent : List Char → State → Option State)
    (moved : Bool) (state : State) : List Char → Option State
  | [] => if moved then op.finalize negative state else none
  | c :: text =>
    if characterIsSpace c then
      if text.all characterIsSpace then op.finalize negative state else none
    else if c = 'e' ∨ c = 'E' then
      if strict ∨ !moved then none else exponent text state
    else none

/-- The loop of `IntegerCastLoop`. -/
def digitsLoop (negative allowExponent strict : Bool) (separator : Char)
    (exponent : List Char → State → Option State) (moved : Bool) : List Char → State → Option State
  | [], state => afterDigits op negative strict exponent moved state []
  | c :: text, state =>
    if c.isDigit then do
      let state ← op.handleDigit negative state (digitValue c)
      match text with
      | '_' :: next =>
        if startsWithDigit next then
          digitsLoop negative allowExponent strict separator exponent true next state
        else none
      | text => digitsLoop negative allowExponent strict separator exponent true text state
    else if c = separator then
      if strict then none
      else do
        let (state, rest) ← decimalsLoop op negative allowExponent text state
        if moved ∨ rest.length < text.length then
          afterDigits op negative strict exponent true state rest
        else none
    else afterDigits op negative strict exponent moved state (c :: text)

/-- The sign that `IntegerCastLoop` starts after. -/
def dropSign (negative strict : Bool) : List Char → Option (List Char)
  | '+' :: text => if negative then some text else if strict then none else some text
  | c :: text => if negative then some text else some (c :: text)
  | [] => some []

end

/-- `IntegerCastOperation` with the limits of a type. -/
def integerCastOperation (t : IntegerType) : CastOperation Int where
  handleDigit negative result digit := if negative then
      if result < (t.minimum + digit).tdiv 10 then none else some (result * 10 - digit)
    else if (t.maximum - digit).tdiv 10 < result then none
    else some (result * 10 + digit)
  handleHexDigit result digit :=
    if (t.maximum - digit).tdiv 16 < result then none else some (result * 16 + digit)
  handleBinaryDigit result digit :=
    if (t.maximum - digit).tdiv 2 < result then none else some (result * 2 + digit)
  handleExponent _ _ _ := none
  handleDecimal _ _ _ _ := none
  finalize _ result := some result

/-- The exponent, an `int16_t` without an exponent of its own. -/
def readExponent (strict : Bool) (separator : Char) (text : List Char) : Option Int := do
  let negative := text.head? == some '-'
  let text ← dropSign negative strict text
  digitsLoop (integerCastOperation ⟨true, .two⟩) negative false strict separator
    (fun _ _ => none) false text 0

section

variable {State : Type} (op : CastOperation State)

/-- How `IntegerCastLoop` handles an exponent. -/
def exponentHandler (negative allowExponent strict : Bool)
    (separator : Char) (text : List Char) (state : State) : Option State :=
  if allowExponent ∧ text ≠ [] then do
    let exponent ← readExponent strict separator text
    op.handleExponent negative state exponent
  else none

def integerCastLoop (negative allowExponent strict : Bool) (separator : Char)
    (text : List Char) (state : State) : Option State := do
  let text ← dropSign negative strict text
  digitsLoop op negative allowExponent strict separator
    (exponentHandler op negative allowExponent strict separator) false text state

/-- The loop of `IntegerHexCastLoop`. -/
def hexLoop : List Char → State → Option State
  | [], state => op.finalize false state
  | c :: text, state =>
    let lower := characterToLower c
    if characterIsHex lower then
      let digit := if 'a'.toNat ≤ lower.toNat then lower.toNat - 'a'.toNat + 10 else digitValue lower
      match text with
      | '_' :: next =>
        if next.head?.any characterIsHex then do hexLoop next (← op.handleHexDigit state digit)
        else none
      | text => do hexLoop text (← op.handleHexDigit state digit)
    else none

/-- The loop of `IntegerBinaryCastLoop`. -/
def binaryLoop : List Char → State → Option State
  | [], state => op.finalize false state
  | c :: text, state =>
    if c = '0' ∨ c = '1' then
      match text with
      | '_' :: next =>
        if next.head?.any fun d => d == '0' || d == '1' then do
          binaryLoop next (← op.handleBinaryDigit state (digitValue c))
        else none
      | text => do binaryLoop text (← op.handleBinaryDigit state (digitValue c))
    else none

/-- `TryIntegerCast`, which starts from a state. -/
def tryIntegerCast (isSigned allowExponent strict : Bool) (separator : Char) (state : State)
    (text : List Char) : Option State :=
  match skipSpaces text with
  | [] => none
  | '-' :: rest =>
    if !isSigned ∧ rest.any (· != '0') then none
    else integerCastLoop op true allowExponent strict separator ('-' :: rest) state
  | '0' :: second :: rest =>
    if second = 'x' ∨ second = 'X' then
      if rest.isEmpty then none else hexLoop op rest state
    else if second = 'b' ∨ second = 'B' then
      if rest.isEmpty then none else binaryLoop op rest state
    else if strict ∧ second.isDigit then none
    else integerCastLoop op false allowExponent strict separator ('0' :: second :: rest) state
  | c :: rest => integerCastLoop op false allowExponent strict separator (c :: rest) state

end

/-! ## Integers with decimals and an exponent -/

/-- `IntegerDecimalCastData`; the number of decimals has 16 bits. -/
structure IntegerDecimalCastData where
  result : Int
  decimal : Int
  decimalDigits : Nat
deriving DecidableEq

namespace IntegerType

/-- The result of an operation without overflow. -/
def checked (t : IntegerType) (x : Int) : Option Int :=
  if t.minimum ≤ x ∧ x ≤ t.maximum then some x else none

/-- The type that a number is collected in. -/
def storeType (t : IntegerType) : IntegerType :=
  if t = ⟨false, .eight⟩ then ⟨false, .eight⟩ else ⟨true, .eight⟩

/-- A number with as many bits as the type has. -/
def wrapped (t : IntegerType) (x : Int) : Int := t.toInt (BitVec.ofInt t.bits x)

/-- `NumericLimits<T>::Digits()` for the types that numbers are collected in. -/
def storeDigits (t : IntegerType) : Nat := if t.signed then 19 else 20

end IntegerType

/-- Multiply by ten some times, unless the number is zero. -/
def scaleUp (store : IntegerType) : Nat → Int → Option Int
  | 0, number => some number
  | n + 1, number =>
    if number = 0 then some 0 else (store.checked (number * 10)).bind (scaleUp store n)

/-- Cut off digits some times, as long as there are any, and keep the last one. -/
def cutDigits : Nat → IntegerDecimalCastData → IntegerDecimalCastData
  | 0, state => state
  | n + 1, state =>
    if state.result = 0 then state
    else cutDigits n { state with decimal := state.result.tmod 10, result := state.result.tdiv 10 }

/-- The loop of `Finalize` that leaves the first decimal, in at most `fuel` rounds. -/
def leadingDecimal : Nat → Int → Nat → Int × Nat
  | 0, decimal, digits => (decimal, digits)
  | fuel + 1, decimal, digits =>
    if 10 < decimal then leadingDecimal fuel (decimal / 10) ((digits + 65535) % 65536)
    else (decimal, digits)

namespace IntegerDecimalCastData

variable (t : IntegerType)

def finalize (negative : Bool) (state : IntegerDecimalCastData) :
    Option IntegerDecimalCastData := do
  let tmp ← t.checked state.result
  let (decimal, digits) := leadingDecimal state.decimal.toNat state.decimal state.decimalDigits
  if digits = 1 ∧ 5 ≤ decimal then do
    let tmp ← t.checked (if negative then tmp - 1 else tmp + 1)
    some ⟨tmp, decimal, digits⟩
  else some ⟨tmp, decimal, digits⟩

/-- The decimals that an exponent moves before the point, and the others. -/
def splitDecimal (decimal e : Int) : Option (Int × Int) := if e < 0 then
    if e.natAbs % 65536 ≤ t.storeType.storeDigits then
      let power := t.storeType.wrapped (10 ^ e.natAbs)
      some (decimal.tdiv power, decimal.tmod power)
    else some (0, 0)
  else (scaleUp t.storeType e.toNat decimal).map (·, 0)

def handleExponent (negative : Bool) (state : IntegerDecimalCastData) (exponent : Int) :
    Option IntegerDecimalCastData :=
  if exponent < 0 then
    let state := cutDigits exponent.natAbs state
    finalize t negative { state with decimal := state.decimal.natAbs, decimalDigits := 1 }
  else do
    let result ← scaleUp t.storeType exponent.toNat state.result
    if state.decimal = 0 then finalize t negative { state with result }
    else
      let e := Int.bmod (exponent - state.decimalDigits) 65536
      let (decimal, remainder) ← splitDecimal t state.decimal e
      let result ← t.storeType.checked (if negative then result - decimal else result + decimal)
      finalize t negative ⟨result, remainder, ((state.decimalDigits - exponent) % 65536).toNat⟩

end IntegerDecimalCastData

/-- `IntegerDecimalCastOperation`, which inherits the digits from `IntegerCastOperation`. -/
def integerDecimalCastOperation (t : IntegerType) : CastOperation IntegerDecimalCastData where
  handleDigit negative state digit :=
    ((integerCastOperation t.storeType).handleDigit negative state.result digit).map
      fun result => { state with result }
  handleHexDigit state digit :=
    ((integerCastOperation t.storeType).handleHexDigit state.result digit).map
      fun result => { state with result }
  handleBinaryDigit state digit :=
    ((integerCastOperation t.storeType).handleBinaryDigit state.result digit).map
      fun result => { state with result }
  handleExponent := IntegerDecimalCastData.handleExponent t
  handleDecimal _ _ state digit :=
    if (t.storeType.maximum - digit).tdiv 10 < state.decimal then some state
    else some ⟨state.result, state.decimal * 10 + digit, (state.decimalDigits + 1) % 65536⟩
  finalize := IntegerDecimalCastData.finalize t

/-- `TrySimpleIntegerCast`: first without decimals and exponent, then with them. -/
def trySimpleIntegerCast (t : IntegerType) (strict : Bool) (text : List Char) : Option Int :=
  match tryIntegerCast (integerCastOperation t) t.signed false strict '.' 0 text with
  | some result => some result
  | none =>
    (tryIntegerCast (integerDecimalCastOperation t) t.signed true strict '.' ⟨0, 0, 0⟩ text).map
      IntegerDecimalCastData.result

/-! ## Digits -/

/-- A number with its sign. -/
def withSign (negative : Bool) (n : Nat) : Int := if negative then -(n : Int) else n

variable {neg : Bool}

theorem withSign_eq_zero {n : Nat} : withSign neg n = 0 ↔ n = 0 := by
  cases neg <;> simp [withSign]

theorem withSign_natAbs (x : Int) : withSign (decide (x < 0)) x.natAbs = x := by
  unfold withSign
  split_ifs with neg
  · have := of_decide_eq_true neg
    omega
  · have : ¬ x < 0 := fun less => neg (decide_eq_true less)
    omega

variable {s : List Char} {c : Char}

section

variable {State : Type} (op : CastOperation State) (negative : Bool)

/-- Handle digits one after the other. -/
def handleDigits (text : List Char) (state : State) : Option State :=
  text.foldlM (fun state c => op.handleDigit negative state (digitValue c)) state

/-- Handle decimals one after the other. -/
def handleDecimals (allowExponent : Bool) (text : List Char) (state : State) : Option State :=
  text.foldlM (fun state c => op.handleDecimal negative allowExponent state (digitValue c)) state

theorem ne_underscore_of_isDigit (d : c.isDigit = true) : c ≠ '_' := by
  rintro rfl
  exact absurd d (by decide)

theorem head_digits_append (digs : Digits digits) (noUnderscore : rest.head? ≠ some '_')
    (head : (digits ++ rest).head? = some c) : c ≠ '_' := by
  cases digits with
  | nil =>
    rintro rfl
    exact noUnderscore head
  | cons d digits =>
    cases head
    exact ne_underscore_of_isDigit (digits_cons_iff.mp digs).1

variable {op negative}

/-- The loop hands over all decimals and stops at what comes after them. -/
theorem decimalsLoop_digits {exp : Bool} {st : State} (digs : Digits digits)
    (noDigit : startsWithDigit rest = false) (noUnderscore : rest.head? ≠ some '_') :
    decimalsLoop op negative exp (digits ++ rest) st =
      (handleDecimals op negative exp digits st).map fun st => (st, rest) := by
  induction digits generalizing st with
  | nil =>
    cases rest with
    | nil => rfl
    | cons c rest =>
      have other : c.isDigit = false := noDigit
      rw [nil_append, decimalsLoop, if_neg (by rw [other]; decide)]
      rfl
  | cons c digits ih =>
    obtain ⟨digit, ho⟩ := digits_cons_iff.mp digs
    rw [cons_append, decimalsLoop, if_pos digit, handleDecimals, foldlM_cons]
    cases op.handleDecimal negative exp st (digitValue c) with
    | none => rfl
    | some st =>
      split
      next next eq =>
        exact absurd rfl (head_digits_append ho noUnderscore (by rw [eq]; rfl))
      next => exact ih ho

/-- The loop hands over all digits and goes on with what comes after them. -/
theorem digitsLoop_digits {exp strict : Bool} {sep : Char}
    {ex : List Char → State → Option State} {mv : Bool} {ds xs : List Char}
    {st : State} (digs : Digits ds) (some : ds ≠ [])
    (noUnderscore : xs.head? ≠ Option.some '_') :
    digitsLoop op negative exp strict sep ex mv (ds ++ xs) st =
      (handleDigits op negative ds st).bind fun st =>
        digitsLoop op negative exp strict sep ex true xs st := by
  induction ds generalizing st mv with
  | nil => exact absurd rfl some
  | cons c ds ih =>
    obtain ⟨digit, ho⟩ := digits_cons_iff.mp digs
    rw [cons_append, digitsLoop, if_pos digit, handleDigits, foldlM_cons]
    cases op.handleDigit negative st (digitValue c) with
    | none => rfl
    | some st =>
      split
      next next eq =>
        exact absurd rfl (head_digits_append ho noUnderscore (by rw [eq]; rfl))
      next =>
        cases ds with
        | nil => rfl
        | cons d ds => exact ih ho (cons_ne_nil _ _)

theorem handleDigits_eq {num : Nat → State} {limit : Nat}
    (step : ∀ m digit, m ≤ limit → digit < 10 → op.handleDigit negative (num m) digit =
      if m * 10 + digit ≤ limit then some (num (m * 10 + digit)) else none)
    (ds : Digits s) {m : Nat} (le : m ≤ limit) :
    handleDigits op negative s (num m) = if 10 ^ s.length * m + digitsValue s ≤ limit then
        some (num (10 ^ s.length * m + digitsValue s))
      else none := by
  induction s generalizing m with
  | nil =>
    rw [length_nil, pow_zero, one_mul, digitsValue_nil, add_zero, if_pos le]
    rfl
  | cons c s ih =>
    obtain ⟨digit, ho⟩ := digits_cons_iff.mp ds
    have eq : 10 ^ (c :: s).length * m + digitsValue (c :: s) =
        10 ^ s.length * (m * 10 + digitValue c) + digitsValue s := by
      rw [digitsValue_cons, length_cons, pow_succ]
      ring
    rw [eq, handleDigits, foldlM_cons, step m _ le (digitValue_lt digit)]
    by_cases fits : m * 10 + digitValue c ≤ limit
    · rw [if_pos fits]
      exact ih ho fits
    · have power := one_le_pow s.length 10 (by decide)
      rw [if_neg fits, if_neg]
      · rfl
      · nlinarith

end

/-! ## Plain integers -/

section

variable {t : IntegerType}

theorem minimum_le (t : IntegerType) : t.signed = true → t.minimum ≤ -128 := by
  intro signed
  unfold IntegerType.minimum IntegerType.bits IntegerType.bytes
  rw [if_pos signed]
  cases t.width <;> decide

theorem le_maximum (t : IntegerType) : 127 ≤ t.maximum := by
  unfold IntegerType.maximum IntegerType.bits IntegerType.bytes
  cases t.signed <;> cases t.width <;> decide

theorem handleDigit_positive (lt : digit < 10) :
    (integerCastOperation t).handleDigit false result digit =
      if result * 10 + digit ≤ t.maximum then some (result * 10 + digit) else none := by
  have large := le_maximum t
  unfold integerCastOperation
  dsimp only
  rw [if_neg Bool.false_ne_true, Int.tdiv_eq_ediv_of_nonneg (by omega)]
  split_ifs
  · omega
  · rfl
  · rfl
  · omega

theorem handleDigit_negative (signed : t.signed = true) (lt : digit < 10) :
    (integerCastOperation t).handleDigit true result digit =
      if t.minimum ≤ result * 10 - digit then some (result * 10 - digit) else none := by
  have low := minimum_le t signed
  have division : (t.minimum + digit).tdiv 10 = -((-(t.minimum + digit)) / 10) := by
    rw [← Int.tdiv_eq_ediv_of_nonneg (by omega), Int.neg_tdiv, Int.neg_neg]
  unfold integerCastOperation
  dsimp only
  rw [if_pos rfl, division]
  split_ifs
  · omega
  · rfl
  · rfl
  · omega

theorem handleDigits_integer (signed : neg = true → t.signed = true) (ds : Digits s) :
    handleDigits (integerCastOperation t) neg s 0 = if neg then
        if t.minimum ≤ -(digitsValue s : Int) then some (-(digitsValue s : Int)) else none
      else if (digitsValue s : Int) ≤ t.maximum then some (digitsValue s : Int) else none := by
  cases neg with
  | false =>
    have large := le_maximum t
    have step (m d : Nat) (_ : m ≤ t.maximum.toNat) (lt : d < 10) :
        (integerCastOperation t).handleDigit false (m : Int) d =
          if m * 10 + d ≤ t.maximum.toNat then some ((m * 10 + d : Nat) : Int)
          else none := by
      rw [handleDigit_positive lt]
      congr 1
      exact propext (by omega)
    have all := handleDigits_eq step ds (zero_le _)
    rw [mul_zero, zero_add] at all
    refine all.trans ?_
    rw [if_neg Bool.false_ne_true]
    congr 1
    exact propext (by omega)
  | true =>
    have low := minimum_le t (signed rfl)
    have step (m d : Nat) (_ : m ≤ (-t.minimum).toNat) (lt : d < 10) :
        (integerCastOperation t).handleDigit true (-(m : Int)) d =
          if m * 10 + d ≤ (-t.minimum).toNat then some (-((m * 10 + d : Nat) : Int))
          else none := by
      rw [handleDigit_negative (signed rfl) lt]
      have eq : -(m : Int) * 10 - d = -((m * 10 + d : Nat) : Int) := by
        push_cast
        ring
      rw [eq]
      congr 1
      exact propext (by omega)
    have all := handleDigits_eq step ds (zero_le _)
    rw [mul_zero, zero_add] at all
    refine all.trans ?_
    rw [if_pos rfl]
    congr 1
    exact propext (by omega)

end

/-! ## The start of a text -/

section

variable {State : Type} {op : CastOperation State} {isSigned exp : Bool} {sep : Char} {st : State}

/-- A minus sign is left out for types with negative numbers. -/
theorem tryIntegerCast_minus {strict : Bool} (s : List Char) :
    tryIntegerCast op true exp strict sep st ('-' :: s) = digitsLoop op true exp strict sep
        (exponentHandler op true exp strict sep) false s st := rfl

/-- What comes after the first character of a literal. -/
def literalCharacter (c : Char) : Bool := c.isDigit || c == '.' || c == 'e' || c == 'E'

theorem literal_ne {c d : Char} (lit : literalCharacter c = true)
    (other : literalCharacter d = false) : c ≠ d := by
  rintro rfl
  exact Bool.false_ne_true (other.symm.trans lit)

theorem skipSpaces_literal (lit : literalCharacter c = true) (s : List Char) :
    skipSpaces (c :: s) = c :: s := by
  have space : characterIsSpace c = false := by
    unfold characterIsSpace
    simp only [Bool.or_eq_false_iff, beq_eq_false_iff_ne]
    refine ⟨⟨⟨⟨⟨?_, ?_⟩, ?_⟩, ?_⟩, ?_⟩, ?_⟩ <;> exact literal_ne lit (by decide)
  exact dropWhile_cons_of_neg (by simp [space])

theorem literalCharacter_digit (d : c.isDigit = true) : literalCharacter c = true := by
  rw [literalCharacter, d]
  rfl

theorem dropSign_literal (lit : literalCharacter c = true) :
    dropSign false false (c :: s) = some (c :: s) := by
  have noPlus := literal_ne lit (show literalCharacter '+' = false by decide)
  unfold dropSign
  split
  next eq => exact absurd (List.cons.inj eq).1 noPlus
  next eq => rw [if_neg Bool.false_ne_true, eq]
  next eq => exact absurd eq (cons_ne_nil _ _)

/-- A text that starts with a digit or a point is read from there. -/
theorem tryIntegerCast_unsigned
    (lit : literalCharacter c = true) (snd : s.head?.all literalCharacter = true) :
    tryIntegerCast op isSigned exp false sep st (c :: s) = digitsLoop op false exp false sep
        (exponentHandler op false exp false sep) false (c :: s) st := by
  have loop : integerCastLoop op false exp false sep (c :: s) st = digitsLoop op false exp false sep
        (exponentHandler op false exp false sep) false (c :: s) st := by
    rw [integerCastLoop, dropSign_literal lit]
    rfl
  have start := skipSpaces_literal lit s
  unfold tryIntegerCast
  rw [start]
  split
  next eq => exact absurd eq (cons_ne_nil _ _)
  next eq =>
    exact absurd (List.cons.inj eq).1 (literal_ne lit (by decide))
  next d rest eq =>
    obtain ⟨rfl, rfl⟩ := List.cons.inj eq
    have next : literalCharacter d = true := snd
    have hex : ¬ (d = 'x' ∨ d = 'X') :=
      not_or.mpr ⟨literal_ne next (by decide), literal_ne next (by decide)⟩
    have binary : ¬ (d = 'b' ∨ d = 'B') :=
      not_or.mpr ⟨literal_ne next (by decide), literal_ne next (by decide)⟩
    rw [if_neg hex, if_neg binary, if_neg (by simp)]
    exact loop
  next eq =>
    obtain ⟨rfl, rfl⟩ := List.cons.inj eq
    exact loop

theorem digitsLoop_separator {neg strict moved : Bool}
    {ex : List Char → State → Option State} {ds xs : List Char}
    (loose : strict = false) (notDigit : sep.isDigit = false) (digs : Digits ds)
    (noDigit : startsWithDigit xs = false) (noUnderscore : xs.head? ≠ some '_')
    (any : moved = true ∨ ds ≠ []) :
    digitsLoop op neg exp strict sep ex moved (sep :: (ds ++ xs)) st =
      (handleDecimals op neg exp ds st).bind fun st => afterDigits op neg strict ex true st xs := by
  have length : moved = true ∨ xs.length < (ds ++ xs).length := by
    apply any.imp_right
    intro some
    rw [length_append]
    exact Nat.lt_add_of_pos_left (length_pos_iff.mpr some)
  rw [digitsLoop, if_neg (by rw [notDigit]; decide), if_pos rfl, if_neg (by rw [loose]; decide),
    decimalsLoop_digits digs noDigit noUnderscore]
  cases handleDecimals op neg exp ds st with
  | none => rfl
  | some st => exact if_pos length

/-- A text with a sign, if it has one, is read from what comes after it. -/
theorem tryIntegerCast_sign (signed : neg = true → isSigned = true)
    (some : s ≠ []) (lit : ∀ c ∈ s.take 2, literalCharacter c = true) :
    tryIntegerCast op isSigned exp false sep st ((if neg then ['-'] else []) ++ s) =
      digitsLoop op neg exp false sep (exponentHandler op neg exp false sep) false s st := by
  cases neg with
  | true =>
    rw [signed rfl]
    exact tryIntegerCast_minus s
  | false =>
    cases s with
    | nil => exact absurd rfl some
    | cons c s =>
      apply tryIntegerCast_unsigned (lit c (by simp))
      cases s with
      | nil => rfl
      | cons d s => exact lit d (by simp)

theorem take_digits_append {ds xs : List Char} (digs : Digits ds)
    (lit : ∀ c ∈ xs.take 2, literalCharacter c = true) :
    ∀ c ∈ (ds ++ xs).take 2, literalCharacter c = true := by
  intro c mem
  rw [take_append, mem_append] at mem
  cases mem with
  | inl mem => exact literalCharacter_digit (digs c (mem_of_mem_take mem))
  | inr mem => exact lit c (take_subset_take_left xs (sub_le _ _) mem)

theorem tryIntegerCast_digits (signed : neg = true → isSigned = true)
    (ds : Digits s) (some : s ≠ []) :
    tryIntegerCast op isSigned exp false sep st ((if neg then ['-'] else []) ++ s) =
      (handleDigits op neg s st).bind (op.finalize neg) := by
  have lit := @take_digits_append s [] ds nofun
  rw [append_nil] at lit
  rw [tryIntegerCast_sign signed some lit]
  have full := @digitsLoop_digits State op neg exp false sep
    (exponentHandler op neg exp false sep) false s [] st ds some nofun
  rw [append_nil] at full
  exact full

theorem tryIntegerCast_decimals (signed : neg = true → isSigned = true)
    {ws dec : List Char} (ds : Digits ws) (ds' : Digits dec)
    (some : ws ≠ [] ∨ dec ≠ []) :
    tryIntegerCast op isSigned exp false '.' st
        ((if neg then ['-'] else []) ++ (ws ++ '.' :: dec)) =
      (handleDigits op neg ws st).bind fun st =>
        (handleDecimals op neg exp dec st).bind (op.finalize neg) := by
  have point (mv : Bool) (some : mv = true ∨ dec ≠ []) (st : State) :
      digitsLoop op neg exp false '.' (exponentHandler op neg exp false '.') mv ('.' :: dec) st =
        (handleDecimals op neg exp dec st).bind (op.finalize neg) := by
    have := @digitsLoop_separator State op exp '.' st neg false mv
      (exponentHandler op neg exp false '.') dec [] rfl rfl ds' rfl nofun some
    rw [append_nil] at this
    exact this
  have lit : ∀ c ∈ (ws ++ '.' :: dec).take 2, literalCharacter c = true := by
    apply take_digits_append ds
    intro c mem
    cases mem with
    | head => rfl
    | tail _ mem => exact literalCharacter_digit (ds' c (mem_of_mem_take mem))
  rw [tryIntegerCast_sign signed (by simp) lit]
  by_cases emp : ws = []
  · subst emp
    exact point false (some.imp_left (absurd rfl)) st
  · rw [digitsLoop_digits ds emp (by simp)]
    congr 1
    funext st
    exact point true (.inl rfl) st

end

end AccessPath
