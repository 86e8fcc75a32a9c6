import AccessPath.Art.Key
import AccessPath.Constants
import AccessPath.Strings.LikeMatcher
import Mathlib.Data.List.GetD

/-!
# LIKE as a comparison, prefix, suffix or contains test

`LikeOptimizationRule` replaces LIKE by a simpler function if the pattern has `%` only at its ends
and no `_`. Only the suffix function differs from the pattern it replaces: its index has 32 bits
with a sign, and the index of a longer suffix is negative from the start.
-/

namespace AccessPath.Strings

open Library List

/-! ## Functions -/

/-- The bytes of two strings from a position up to another one are compared one by one. -/
def sameBytes (start stop : Nat) (a b : List UInt8) : Bool :=
  (List.range' start (stop - start)).all fun i => a.getD i 0 == b.getD i 0

def prefixFunction (str pattern : List UInt8) : Bool := if pattern.length > str.length then false
  else if pattern.length ≤ prefixLength then
    if pattern.length = 0 then true else sameBytes 0 pattern.length str pattern
  else sameBytes 0 prefixLength str pattern && sameBytes prefixLength pattern.length str pattern

/-- The loop of `SuffixFunction`, where the index into the suffix is one less than the number of
bytes that are left. -/
def suffixLoop (str suffix : List UInt8) : Nat → Nat → Bool
  | 0, _ => true
  | sufIdx + 1, strIdx =>
    if suffix.getD sufIdx 0 != str.getD strIdx 0 then false
    else suffixLoop str suffix sufIdx (strIdx - 1)

/-- `SuffixFunction`. The first index is an `int32_t`, and the difference wraps around. -/
def suffixFunction (str suffix : List UInt8) : Bool := if suffix.length > str.length then false
  else
    suffixLoop str suffix ((BitVec.ofNat 32 suffix.length - 1).toInt + 1).toNat (str.length - 1)

/-- `ContainsOperator` -/
def containsFunction (str pattern : List UInt8) : Bool := (find str pattern).isSome

/-! ## Rule -/

/-- A byte that is neither `%` nor `_`. -/
def notSpecial (c : UInt8) : Bool := !(c == percentage || c == underscore)

def patternIsConstant (pattern : List UInt8) : Bool := pattern.all notSpecial

/-- The pattern without the `%` at its end. -/
def dropTrailing (pattern : List UInt8) : List UInt8 :=
  (pattern.reverse.dropWhile (· == percentage)).reverse

/-- The pattern without the `%` at its start. -/
def dropLeading (pattern : List UInt8) : List UInt8 := pattern.dropWhile (· == percentage)

def patternIsPrefix (pattern : List UInt8) : Bool :=
  if (dropTrailing pattern).length = pattern.length then false
  else (dropTrailing pattern).all notSpecial

def patternIsSuffix (pattern : List UInt8) : Bool :=
  if (dropLeading pattern).length = pattern.length then false
  else (dropLeading pattern).all notSpecial

/-- `PatternIsContains`. If all bytes are `%`, the end is before the start. -/
def patternIsContains (pattern : List UInt8) : Bool :=
  let start := pattern.length - (dropLeading pattern).length
  let stop := (dropTrailing pattern).length
  if start = 0 ∨ stop = pattern.length then false
  else ((pattern.take stop).drop start).all notSpecial

/-- The pattern after `ApplyRule` has removed all `%`. -/
def removePercentages (pattern : List UInt8) : List UInt8 := pattern.filter (· != percentage)

/-- `ApplyRule`: what the new expression computes. -/
def applyRule (function : List UInt8 → List UInt8 → Bool) (pattern : List UInt8)
    (isNotLike : Bool) (str : List UInt8) : Bool :=
  if isNotLike then !function str (removePercentages pattern)
  else function str (removePercentages pattern)

/-- `LikeOptimizationRule::Apply`: what the expression it substitutes computes. -/
def apply (pattern : List UInt8) (isNotLike : Bool) : Option (List UInt8 → Bool) :=
  if patternIsConstant pattern then
    some fun str => if isNotLike then str != pattern else str == pattern
  else if patternIsPrefix pattern then some (applyRule prefixFunction pattern isNotLike)
  else if patternIsSuffix pattern then some (applyRule suffixFunction pattern isNotLike)
  else if patternIsContains pattern then some (applyRule containsFunction pattern isNotLike)
  else none

/-- `LikeOperator` and `NotLikeOperator` -/
def likeFunction (pattern : List UInt8) (isNotLike : Bool) (str : List UInt8) : Bool :=
  if isNotLike then !likeOperator pattern str else likeOperator pattern str

/-! ## What the functions compute -/

theorem sameBytes_eq_true {start stop : Nat} {a b : List UInt8} : sameBytes start stop a b = true ↔
      ∀ i, start ≤ i → i < stop → a.getD i 0 = b.getD i 0 := by
  rw [sameBytes, List.all_eq_true]
  refine forall_congr' fun i => ?_
  rw [mem_range'_1, beq_iff_eq, and_imp]
  constructor
  · intro eq le lt
    exact eq le (by omega)
  · intro eq le lt
    exact eq le (by omega)

/-- A string is at a position of another one if all its bytes are. -/
theorem prefix_drop_iff {str part : List UInt8} {d : Nat} (fits : d + part.length ≤ str.length) :
    part <+: str.drop d ↔ ∀ i < part.length, str.getD (d + i) 0 = part.getD i 0 := by
  rw [prefix_iff_getElem]
  have len : part.length ≤ (str.drop d).length := by
    rw [length_drop]
    omega
  constructor
  · rintro ⟨_, eq⟩ i less
    rw [getD_eq_getElem _ _ less, getD_eq_getElem _ _ (by omega), eq i less, getElem_drop]
  · intro eq
    refine ⟨len, fun i less => ?_⟩
    rw [getElem_drop, ← getD_eq_getElem _ 0, ← getD_eq_getElem _ 0]
    exact (eq i less).symm

theorem prefixFunction_eq_true (str pat : List UInt8) :
    prefixFunction str pat = true ↔ pat <+: str := by
  rw [prefixFunction]
  split_ifs with long hsh emp
  · exact iff_of_false id fun isPrefix => absurd isPrefix.length_le (Nat.not_le_of_lt long)
  · rw [length_eq_zero_iff] at emp
    rw [emp]
    exact iff_of_true rfl nil_prefix
  all_goals
    have eq := @prefix_drop_iff str pat 0 (by omega)
    rw [drop_zero] at eq
    rw [eq]
    simp only [Bool.and_eq_true, sameBytes_eq_true, Nat.zero_add]
  · exact forall_congr' fun i => forall_prop_of_true (Nat.zero_le i)
  · constructor
    · rintro ⟨pre, back⟩ i less
      rcases Nat.lt_or_ge i prefixLength with inFront | inBack
      · exact pre i (Nat.zero_le i) inFront
      · exact back i inBack less
    · intro all
      exact ⟨fun i _ less => all i (by omega), fun i _ less => all i less⟩

theorem suffixLoop_eq_true (str sfx : List UInt8) (d n : Nat) :
    suffixLoop str sfx n (d + n - 1) = true ↔ ∀ i < n, str.getD (d + i) 0 = sfx.getD i 0 := by
  induction n with
  | zero => exact iff_of_true rfl fun i less => absurd less (Nat.not_lt_zero i)
  | succ n ih =>
    have index : d + (n + 1) - 1 = d + n := rfl
    rw [suffixLoop, index, Nat.forall_lt_succ_right, ← ih]
    split_ifs with ne
    · rw [bne_iff_ne] at ne
      exact iff_of_false id fun eq => ne eq.2.symm
    · rw [Bool.not_eq_true, bne_eq_false_iff_eq] at ne
      exact (and_iff_left ne.symm).symm

theorem sufIdx_eq {size : Nat} (fits : size < 2 ^ 32) :
    ((BitVec.ofNat 32 size - 1).toInt + 1).toNat = if size ≤ 2 ^ 31 then size else 0 := by
  have one : (1 : BitVec 32).toNat = 1 := rfl
  rw [BitVec.toInt_eq_toNat_cond, BitVec.toNat_sub, BitVec.toNat_ofNat, one]
  split_ifs with few
  all_goals omega

/-- A suffix of up to 2^31 bytes is found where it is, and a longer one in every string that is
not shorter. -/
theorem suffixFunction_eq_true (str sfx : List UInt8) (fits : sfx.length < 2 ^ 32) :
    suffixFunction str sfx = true ↔
      sfx <:+ str ∨ 2 ^ 31 < sfx.length ∧ sfx.length ≤ str.length := by
  rw [suffixFunction, sufIdx_eq fits]
  split_ifs with long few
  · refine iff_of_false id ?_
    rintro (isSuffix | ⟨-, _⟩)
    · exact absurd isSuffix.length_le (Nat.not_le_of_lt long)
    · omega
  · obtain ⟨_, len⟩ := Nat.exists_eq_add_of_le' (Nat.le_of_not_lt long)
    rw [len, suffixLoop_eq_true, ← prefix_drop_iff len.ge,
      or_iff_left fun large => absurd large.1 (Nat.not_lt_of_le few),
      suffix_iff_eq_drop, len, Nat.add_sub_cancel]
    constructor
    · intro isPrefix
      refine isPrefix.eq_of_length ?_
      rw [length_drop, len, Nat.add_sub_cancel_left]
    · intro eq
      rw [← eq]
  · exact iff_of_true rfl (.inr ⟨Nat.lt_of_not_le few, Nat.le_of_not_lt long⟩)

theorem containsFunction_eq_true (str pat : List UInt8) :
    containsFunction str pat = true ↔ pat <:+: str := by
  rw [containsFunction, find_eq]
  constructor
  · intro got
    obtain ⟨k, got⟩ := Option.isSome_iff_exists.mp got
    exact (firstOccurrence_eq_some got).1.isInfix.trans (drop_suffix k str).isInfix
  · rintro ⟨pre, aft, rfl⟩
    rw [Option.isSome_iff_ne_none]
    intro hm
    refine firstOccurrence_eq_none hm pre.length ?_
    rw [append_assoc, drop_left]
    exact prefix_append pat aft

/-! ## What the patterns match -/

theorem notSpecial_eq_true {c : UInt8} : notSpecial c = true ↔ IsLiteral c := by
  rw [notSpecial, Bool.not_eq_true', Bool.or_eq_false_iff, beq_eq_false_iff_ne,
    beq_eq_false_iff_ne, and_comm]
  rfl

theorem all_notSpecial {pat : List UInt8} : pat.all notSpecial = true ↔ ∀ c ∈ pat, IsLiteral c := by
  rw [List.all_eq_true]
  exact forall₂_congr fun c _ => notSpecial_eq_true

theorem leading_split (pat : List UInt8) :
    ∃ k, pat = replicate k percentage ++ dropLeading pat := by
  induction pat with
  | nil => exact ⟨0, rfl⟩
  | cons c pat ih =>
    rw [dropLeading, dropWhile_cons]
    split_ifs with isPercentage
    · obtain ⟨k, split⟩ := ih
      refine ⟨k + 1, ?_⟩
      rw [beq_iff_eq] at isPercentage
      rw [replicate_succ, cons_append, isPercentage]
      exact congrArg _ split
    · exact ⟨0, rfl⟩

theorem trailing_split (pat : List UInt8) :
    ∃ k, pat = dropTrailing pat ++ replicate k percentage := by
  obtain ⟨k, split⟩ := leading_split pat.reverse
  refine ⟨k, reverse_injective ?_⟩
  rw [reverse_append, reverse_replicate, dropTrailing, reverse_reverse]
  exact split

section

variable {pat : List UInt8}

theorem patternIsPrefix_split (isPrefix : patternIsPrefix pat = true) :
    ∃ lit k, pat = lit ++ replicate (k + 1) percentage ∧ ∀ c ∈ lit, IsLiteral c := by
  rw [patternIsPrefix] at isPrefix
  split_ifs at isPrefix with eq
  obtain ⟨k, split⟩ := trailing_split pat
  have len := congrArg List.length split
  rw [length_append, length_replicate] at len
  refine ⟨dropTrailing pat, k - 1, ?_, all_notSpecial.mp isPrefix⟩
  rwa [Nat.sub_add_cancel (by omega)]

theorem patternIsSuffix_split (isSuffix : patternIsSuffix pat = true) :
    ∃ lit k, pat = replicate (k + 1) percentage ++ lit ∧ ∀ c ∈ lit, IsLiteral c := by
  rw [patternIsSuffix] at isSuffix
  split_ifs at isSuffix with eq
  obtain ⟨k, split⟩ := leading_split pat
  have len := congrArg List.length split
  rw [length_append, length_replicate] at len
  refine ⟨dropLeading pat, k - 1, ?_, all_notSpecial.mp isSuffix⟩
  rwa [Nat.sub_add_cancel (by omega)]

theorem patternIsPrefix_of_dropLeading (some : pat ≠ [])
    (only : dropLeading pat = []) : patternIsPrefix pat = true := by
  obtain ⟨_, split⟩ := leading_split pat
  rw [only, append_nil] at split
  have none : dropTrailing pat = [] := by
    rw [dropTrailing, split, reverse_replicate, dropWhile_replicate,
      if_pos (beq_self_eq_true _), reverse_nil]
  rw [patternIsPrefix, none, if_neg fun len => some (eq_nil_of_length_eq_zero len.symm)]
  rfl

/-- The first byte after the `%` at the start is not one of those at the end. -/
theorem dropLeading_not_suffix (some : dropLeading pat ≠ []) (k : Nat) :
    ¬dropLeading pat <:+ replicate k percentage := by
  intro isSuffix
  have head := head_dropWhile_not (· == percentage) some
  have mem := isSuffix.subset (head_mem some)
  exact beq_eq_false_iff_ne.mp head (eq_of_mem_replicate mem)

theorem patternIsContains_split (notPrefix : patternIsPrefix pat ≠ true)
    (isContains : patternIsContains pat = true) : ∃ lit k m, pat = replicate (k + 1) percentage ++
      (lit ++ replicate (m + 1) percentage) ∧ ∀ c ∈ lit, IsLiteral c := by
  rw [patternIsContains] at isContains
  split_ifs at isContains with noEnds
  obtain ⟨noStart, _⟩ := not_or.mp noEnds
  obtain ⟨k, leading⟩ := leading_split pat
  obtain ⟨m, trailing⟩ := trailing_split pat
  have some : dropLeading pat ≠ [] := by
    refine fun only => notPrefix (patternIsPrefix_of_dropLeading ?_ only)
    rintro rfl
    exact noStart rfl
  have start := congrArg List.length leading
  have stop := congrArg List.length trailing
  rw [length_append, length_replicate] at start stop
  rcases append_eq_append_iff.mp (leading.symm.trans trailing) with
    ⟨middle, front, back⟩ | ⟨after, -, back⟩
  · have middle_eq : (pat.take (dropTrailing pat).length).drop
        (pat.length - (dropLeading pat).length) = middle := by
      have first : pat.length - (dropLeading pat).length = (replicate k percentage).length := by
        rw [length_replicate]
        omega
      have ht := prefix_iff_eq_take.mp ⟨_, trailing.symm⟩
      rw [first, ← ht, front, drop_left]
    rw [middle_eq] at isContains
    refine ⟨middle, k - 1, m - 1, ?_, all_notSpecial.mp isContains⟩
    rw [Nat.sub_add_cancel (by omega), Nat.sub_add_cancel (by omega), ← back]
    exact leading
  · exact absurd ⟨after, back.symm⟩ (dropLeading_not_suffix some m)

end

section

variable {lit : List UInt8} (isLiteral : ∀ c ∈ lit, IsLiteral c)

theorem like_percentages (k : Nat) (p s : List UInt8) :
    Like (replicate (k + 1) percentage ++ p) s ↔ Like (percentage :: p) s := by
  induction k with
  | zero => rfl
  | succ k ih =>
    rw [replicate_succ, cons_append, ← ih, replicate_succ, cons_append, like_percentage_percentage]

theorem like_all_percentages (k : Nat) (s : List UInt8) :
    Like (replicate (k + 1) percentage) s := by
  rw [← append_nil (replicate _ _), like_percentages]
  exact like_any s

include isLiteral

theorem like_isConstant (s : List UInt8) : Like lit s ↔ s = lit := by
  have like := @like_append lit [] s isLiteral
  rw [append_nil] at like
  rw [like]
  constructor
  · rintro ⟨_, rfl, rfl⟩
    exact append_nil lit
  · intro eq
    exact ⟨[], by rw [append_nil, eq], rfl⟩

theorem like_isPrefix (k : Nat) (s : List UInt8) :
    Like (lit ++ replicate (k + 1) percentage) s ↔ lit <+: s := by
  rw [like_append isLiteral]
  exact exists_congr fun rest => (and_iff_left (like_all_percentages k rest)).trans eq_comm

theorem like_isSuffix (k : Nat) (s : List UInt8) :
    Like (replicate (k + 1) percentage ++ lit) s ↔ lit <:+ s := by
  have like := @like_percentage_append lit [] s isLiteral
  rw [append_nil] at like
  rw [like_percentages, like]
  constructor
  · rintro ⟨pre, _, rfl, rfl⟩
    exact ⟨pre, by rw [append_nil]⟩
  · rintro ⟨pre, rfl⟩
    exact ⟨pre, [], by rw [append_nil], rfl⟩

theorem like_isContains (k m : Nat) (s : List UInt8) :
    Like (replicate (k + 1) percentage ++ (lit ++ replicate (m + 1) percentage)) s ↔
      lit <:+: s := by
  rw [like_percentages, like_percentage_append isLiteral]
  refine exists_congr fun pre => exists_congr fun aft => ?_
  rw [and_iff_left (like_all_percentages m aft), append_assoc]
  exact eq_comm

theorem removePercentages_literal : removePercentages lit = lit :=
  filter_eq_self.mpr fun c mem => bne_iff_ne.mpr (isLiteral c mem).2

end

theorem removePercentages_append (p q : List UInt8) :
    removePercentages (p ++ q) = removePercentages p ++ removePercentages q :=
  filter_append p q

theorem removePercentages_replicate (k : Nat) :
    removePercentages (replicate k percentage) = [] := by
  refine filter_eq_nil_iff.mpr fun c mem => ?_
  rw [eq_of_mem_replicate mem, bne_self_eq_false]
  exact Bool.false_ne_true

/-! ## The rule -/

variable {function : List UInt8 → List UInt8 → Bool}

/-- A rewritten LIKE is right if its function matches what the pattern does. -/
theorem applyRule_eq_iff
    {pat str : List UInt8} {neg : Bool} :
    applyRule function pat neg str = likeFunction pat neg str ↔
      (function str (removePercentages pat) = true ↔ Like pat str) := by
  rw [← likeOperator_eq_true, ← Bool.eq_iff_iff, applyRule, likeFunction]
  cases neg with
  | false => rfl
  | true => exact Bool.not_inj_iff

/-- What the rule substitutes agrees with LIKE and NOT LIKE on a string. -/
def RuleAgrees (pattern str : List UInt8) : Prop :=
  ∀ isNotLike, ∀ test ∈ apply pattern isNotLike, test str = likeFunction pattern isNotLike str

/-- All ways to evaluate LIKE and NOT LIKE with the pattern agree on a string. -/
def LikesAgree (pattern str : StringT) : Prop := (∀ matcher ∈ createLikeMatcher pattern.data,
    matcher.matchString str.data = likeOperator pattern.data str.data) ∧
  RuleAgrees pattern.data str.data

section

variable {pat str : List UInt8}

theorem ruleAgrees_isConstant (isConstant : patternIsConstant pat = true) : RuleAgrees pat str := by
  intro neg test mem
  rw [apply, if_pos isConstant] at mem
  cases mem
  have like : likeOperator pat str = (str == pat) := by
    rw [Bool.eq_iff_iff, likeOperator_eq_true, like_isConstant (all_notSpecial.mp isConstant),
      beq_iff_eq]
  rw [likeFunction, like]
  rfl

/-- The function that the rule substitutes decides whether the rule is right. -/
theorem ruleAgrees_iff (substituted : ∀ neg,
      apply pat neg = some (applyRule function pat neg)) : RuleAgrees pat str ↔
      (function str (removePercentages pat) = true ↔ Like pat str) := by
  constructor
  · intro ha
    exact applyRule_eq_iff.mp (ha false _ (substituted false))
  · intro eq neg test mem
    rw [substituted] at mem
    cases mem
    exact applyRule_eq_iff.mpr eq

theorem ruleAgrees_isPrefix (notConstant : ¬patternIsConstant pat = true)
    (isPrefix : patternIsPrefix pat = true) : RuleAgrees pat str := by
  have substituted : ∀ neg,
      apply pat neg = some (applyRule prefixFunction pat neg) := by
    intro neg
    rw [apply, if_neg notConstant, if_pos isPrefix]
  obtain ⟨_, _, rfl, isLiteral⟩ := patternIsPrefix_split isPrefix
  rw [ruleAgrees_iff substituted, prefixFunction_eq_true, like_isPrefix isLiteral,
    removePercentages_append, removePercentages_replicate, removePercentages_literal isLiteral,
    append_nil]

theorem ruleAgrees_isContains (notConstant : ¬patternIsConstant pat = true)
    (notPrefix : ¬patternIsPrefix pat = true) (notSuffix : ¬patternIsSuffix pat = true)
    (isContains : patternIsContains pat = true) : RuleAgrees pat str := by
  have substituted : ∀ isNotLike,
      apply pat isNotLike = some (applyRule containsFunction pat isNotLike) := by
    intro isNotLike
    rw [apply, if_neg notConstant, if_neg notPrefix, if_neg notSuffix, if_pos isContains]
  obtain ⟨_, _, _, rfl, isLiteral⟩ := patternIsContains_split notPrefix isContains
  rw [ruleAgrees_iff substituted, containsFunction_eq_true, like_isContains isLiteral,
    removePercentages_append, removePercentages_append, removePercentages_replicate,
    removePercentages_replicate, removePercentages_literal isLiteral, nil_append,
    append_nil]

/-- The suffix function is right unless it does not look at the strings. -/
theorem ruleAgrees_isSuffix (fits : pat.length < 2 ^ 32)
    (notConstant : ¬patternIsConstant pat = true)
    (notPrefix : ¬patternIsPrefix pat = true) (isSuffix : patternIsSuffix pat = true) :
    RuleAgrees pat str ↔ (2 ^ 31 < (removePercentages pat).length →
        (removePercentages pat).length ≤ str.length → removePercentages pat <:+ str) := by
  have substituted : ∀ neg,
      apply pat neg = some (applyRule suffixFunction pat neg) := by
    intro neg
    rw [apply, if_neg notConstant, if_neg notPrefix, if_pos isSuffix]
  have shorter : (removePercentages pat).length < 2 ^ 32 := (length_filter_le _ _).trans_lt fits
  have like : Like pat str ↔ removePercentages pat <:+ str := by
    obtain ⟨_, _, rfl, isLiteral⟩ := patternIsSuffix_split isSuffix
    rw [like_isSuffix isLiteral, removePercentages_append, removePercentages_replicate,
      removePercentages_literal isLiteral, nil_append]
  rw [ruleAgrees_iff substituted, suffixFunction_eq_true _ _ shorter, like, or_iff_left_iff_imp,
    and_imp]

/-- A prefix pattern that is also a suffix pattern has only `%`. -/
theorem removePercentages_eq_nil (isPrefix : patternIsPrefix pat = true)
    (isSuffix : patternIsSuffix pat = true) : removePercentages pat = [] := by
  obtain ⟨lit, k, rfl, isLiteral⟩ := patternIsPrefix_split isPrefix
  obtain ⟨_, _, split, -⟩ := patternIsSuffix_split isSuffix
  cases lit with
  | nil => exact removePercentages_replicate (k + 1)
  | cons c lit =>
    rw [replicate_succ] at split
    exact absurd (List.cons.inj split).1 (isLiteral c mem_cons_self).2

theorem patternIsSuffix_ne_constant (isConstant : patternIsConstant pat = true) :
    ¬patternIsSuffix pat = true := by
  intro isSuffix
  obtain ⟨_, _, rfl, -⟩ := patternIsSuffix_split isSuffix
  exact absurd rfl (all_notSpecial.mp isConstant percentage mem_cons_self).2

theorem apply_suffix {lit : List UInt8} (isLiteral : ∀ c ∈ lit, IsLiteral c)
    (some_literal : lit ≠ []) (isNotLike : Bool) : apply (percentage :: lit) isNotLike =
      some (applyRule suffixFunction (percentage :: lit) isNotLike) := by
  have notConstant : ¬patternIsConstant (percentage :: lit) = true := by
    intro isConstant
    exact absurd rfl (all_notSpecial.mp isConstant percentage mem_cons_self).2
  have rest : dropLeading (percentage :: lit) = lit := by
    obtain ⟨c, lit, rfl⟩ := exists_cons_of_ne_nil some_literal
    have other := beq_eq_false_iff_ne.mpr (isLiteral c mem_cons_self).2
    rw [dropLeading, dropWhile_cons, if_pos (beq_self_eq_true _), dropWhile_cons, other]
    rfl
  have isSuffix : patternIsSuffix (percentage :: lit) = true := by
    rw [patternIsSuffix, rest, length_cons, if_neg (Nat.ne_add_one _), all_notSpecial]
    exact isLiteral
  have notPrefix : ¬patternIsPrefix (percentage :: lit) = true := by
    intro isPrefix
    have none := removePercentages_eq_nil isPrefix isSuffix
    have eq := removePercentages_literal isLiteral
    exact some_literal (eq.symm.trans none)
  rw [apply, if_neg notConstant, if_neg notPrefix, if_pos isSuffix]

end

/-- All ways to evaluate LIKE agree unless the pattern is `%` and a string of more than 2^31
bytes, and the other string is as long but does not end with it. -/
theorem likesAgree_iff (pattern str : StringT) : LikesAgree pattern str ↔
      (patternIsSuffix pattern.data = true → 2 ^ 31 < (removePercentages pattern.data).length →
        (removePercentages pattern.data).length ≤ str.data.length →
        removePercentages pattern.data <:+ str.data) := by
  have matcher : ∀ matcher ∈ createLikeMatcher pattern.data,
      matcher.matchString str.data = likeOperator pattern.data str.data := by
    intro matcher created
    rw [Bool.eq_iff_iff, likeOperator_eq_true, createLikeMatcher_matchString created]
  rw [LikesAgree, and_iff_right matcher]
  cases isConstant : patternIsConstant pattern.data with
  | true =>
    exact iff_of_true (ruleAgrees_isConstant isConstant) fun isSuffix =>
      absurd isSuffix (patternIsSuffix_ne_constant isConstant)
  | false =>
    have notConstant := Bool.eq_false_iff.mp isConstant
    cases isPrefix : patternIsPrefix pattern.data with
    | true =>
      refine iff_of_true (ruleAgrees_isPrefix notConstant isPrefix) fun isSuffix _ _ => ?_
      rw [removePercentages_eq_nil isPrefix isSuffix]
      exact nil_suffix
    | false =>
      have notPrefix := Bool.eq_false_iff.mp isPrefix
      cases isSuffix : patternIsSuffix pattern.data with
      | true =>
        rw [ruleAgrees_isSuffix pattern.fits notConstant notPrefix isSuffix,
          forall_prop_of_true rfl]
      | false =>
        have notSuffix := Bool.eq_false_iff.mp isSuffix
        refine iff_of_true ?_ fun impossible => absurd impossible Bool.false_ne_true
        cases isContains : patternIsContains pattern.data with
        | true => exact ruleAgrees_isContains notConstant notPrefix notSuffix isContains
        | false =>
          intro isNotLike test mem
          rw [apply, if_neg notConstant, if_neg notPrefix, if_neg notSuffix,
            if_neg (Bool.eq_false_iff.mp isContains)] at mem
          cases mem

/-- A string of 2^31 + 1 bytes `b` is LIKE `%` and as many bytes `a`, once the rule has replaced
LIKE by the suffix function. -/
theorem likesAgree_long : ∃ pattern str : StringT,
    pattern.data = percentage :: replicate (2 ^ 31 + 1) 97 ∧
    str.data = replicate (2 ^ 31 + 1) 98 ∧
    likeOperator pattern.data str.data = false ∧
    (apply pattern.data false).map (fun test => test str.data) = some true ∧
    ¬LikesAgree pattern str := by
  obtain ⟨n, size⟩ : ∃ n, n = 2 ^ 31 := ⟨_, rfl⟩
  rw [← size]
  have isLiteral : ∀ c ∈ replicate (n + 1) (97 : UInt8), IsLiteral c := by
    intro c mem
    rw [eq_of_mem_replicate mem]
    exact ⟨by decide, by decide⟩
  have some_literal : replicate (n + 1) (97 : UInt8) ≠ [] := cons_ne_nil _ _
  have unlike : likeOperator (percentage :: replicate (n + 1) 97)
      (replicate (n + 1) 98) = false := by
    rw [Bool.eq_false_iff, ne_eq, likeOperator_eq_true]
    intro like
    have isSuffix := (like_isSuffix isLiteral 0 _).mp like
    have mem := isSuffix.subset (mem_replicate.mpr ⟨Nat.succ_ne_zero n, rfl⟩)
    exact absurd (eq_of_mem_replicate mem) (by decide)
  have test : suffixFunction (replicate (n + 1) 98)
      (removePercentages (percentage :: replicate (n + 1) 97)) = true := by
    have removed := removePercentages_literal isLiteral
    change suffixFunction _ (removePercentages (replicate (n + 1) 97)) = true
    rw [removed, suffixFunction_eq_true, length_replicate, length_replicate]
    · exact .inr ⟨by omega, le_rfl⟩
    · rw [length_replicate]
      omega
  refine ⟨⟨percentage :: replicate (n + 1) 97, ?_⟩, ⟨replicate (n + 1) 98, ?_⟩, rfl, rfl,
    unlike, ?_, fun agree => ?_⟩
  · rw [length_cons, length_replicate]
    omega
  · rw [length_replicate]
    omega
  · rw [apply_suffix isLiteral some_literal]
    exact congrArg some test
  · have rule := agree.2 false _ (apply_suffix isLiteral some_literal false)
    rw [applyRule, if_neg Bool.false_ne_true, test, likeFunction, if_neg Bool.false_ne_true] at rule
    exact absurd (rule.trans unlike).symm Bool.false_ne_true

end AccessPath.Strings
