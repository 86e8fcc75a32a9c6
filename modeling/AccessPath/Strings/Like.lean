import AccessPath.Strings.Contains

/-!
# LIKE

`TemplatedLikeOperator` without an escape character: a loop over the pattern that, after a run of
`%`, tries to match the rest of the pattern at each position of the string.
-/

namespace AccessPath.Strings

open List Bool

variable {p s : List UInt8}

/-- `%` -/
def percentage : UInt8 := 37

/-- `_` -/
def underscore : UInt8 := 95

/-- `LengthFun::IsCharacter`: not a continuation byte. -/
def isCharacter (b : UInt8) : Bool := b &&& 0xc0 != 0x80

/-- `StandardCharacterReader::NextCharacter` -/
def nextCharacter (s : List UInt8) : List UInt8 := (s.drop 1).dropWhile fun b => !isCharacter b

/-- A loop over the positions of a string. -/
def anyFrom (test : List UInt8 → Bool) : List UInt8 → Bool
  | [] => false
  | b :: rest => test (b :: rest) || anyFrom test rest

/-- `TemplatedLikeOperator` -/
def likeOperator : List UInt8 → List UInt8 → Bool
  | [], s => s.isEmpty
  -- The string is at its end: what is left of the pattern must match nothing.
  | c :: p, [] => (c :: p).all (· == percentage)
  | c :: p, b :: s =>
    if c = underscore then likeOperator p (nextCharacter (b :: s))
    else if c = percentage then
      match _rest : p.dropWhile (· == percentage) with
      | [] => true
      | next :: p' => anyFrom (likeOperator (next :: p')) (b :: s)
    else if c = b then likeOperator p s
    else false
termination_by p => p.length
decreasing_by
  · exact Nat.lt_succ_self _
  · have length := (dropWhile_sublist (· == percentage) (l := p)).length_le
    rw [_rest] at length
    exact Nat.lt_succ_of_le length
  · exact Nat.lt_succ_self _

/-! ## What a pattern matches -/

/-- A string matches a pattern: `%` is any string, `_` is a character. -/
def Like : List UInt8 → List UInt8 → Prop
  | [], s => s = []
  | c :: p, s =>
    if c = underscore then s ≠ [] ∧ Like p (nextCharacter s)
    else if c = percentage then ∃ gap rest, s = gap ++ rest ∧ Like p rest
    else ∃ rest, s = c :: rest ∧ Like p rest

theorem like_underscore : Like (underscore :: p) s ↔ s ≠ [] ∧ Like p (nextCharacter s) := by
  rw [Like, if_pos rfl]

theorem like_percentage : Like (percentage :: p) s ↔ ∃ gap xs, s = gap ++ xs ∧ Like p xs := by
  rw [Like, if_neg (by decide), if_pos rfl]

theorem like_literal {c : UInt8} (notUnderscore : c ≠ underscore) (notPercentage : c ≠ percentage) :
    Like (c :: p) s ↔ ∃ xs, s = c :: xs ∧ Like p xs := by
  rw [Like, if_neg notUnderscore, if_neg notPercentage]

theorem like_nil : Like p [] ↔ p.all (· == percentage) = true := by
  induction p with
  | nil => exact iff_of_true rfl rfl
  | cons c p ih =>
    rw [all_cons, and_eq_true, beq_iff_eq, ← ih, Like]
    split_ifs with isUnderscore isPercentage
    · rw [isUnderscore]
      exact iff_of_false (fun like => like.1 rfl) fun both => absurd both.1 (by decide)
    · constructor
      · rintro ⟨_, xs, nil, like⟩
        rw [(append_eq_nil_iff.mp nil.symm).2] at like
        exact ⟨isPercentage, like⟩
      · intro both
        exact ⟨[], [], rfl, both.2⟩
    · refine iff_of_false ?_ fun both => isPercentage both.1
      rintro ⟨_, nil, -⟩
      cases nil

theorem like_percentage_dropWhile (p s : List UInt8) :
    Like (percentage :: p) s ↔ Like (percentage :: p.dropWhile (· == percentage)) s := by
  induction p with
  | nil => rfl
  | cons c p ih =>
    rw [dropWhile_cons]
    split_ifs with isPercentage
    · obtain rfl := beq_iff_eq.mp isPercentage
      rw [← ih]
      constructor
      · intro like
        obtain ⟨gap, _, rfl, inner⟩ := like_percentage.mp like
        obtain ⟨gap', xs, rfl, innermost⟩ := like_percentage.mp inner
        exact like_percentage.mpr ⟨gap ++ gap', xs, (append_assoc _ _ _).symm, innermost⟩
      · intro like
        exact like_percentage.mpr ⟨[], s, rfl, like⟩
    · rfl

theorem anyFrom_eq_true {test : List UInt8 → Bool} :
    anyFrom test s = true ↔ ∃ gap xs, s = gap ++ xs ∧ xs ≠ [] ∧ test xs = true := by
  induction s with
  | nil =>
    refine iff_of_false Bool.false_ne_true ?_
    rintro ⟨gap, xs, nil, some, -⟩
    exact some (append_eq_nil_iff.mp nil.symm).2
  | cons b s ih =>
    rw [anyFrom, or_eq_true, ih]
    constructor
    · rintro (here | ⟨gap, xs, rfl, hl⟩)
      · exact ⟨[], b :: s, rfl, cons_ne_nil _ _, here⟩
      · exact ⟨b :: gap, xs, rfl, hl⟩
    · rintro ⟨gap, xs, split, some, got⟩
      cases gap with
      | nil =>
        rw [nil_append] at split
        exact .inl (split ▸ got)
      | cons b' gap =>
        exact .inr ⟨gap, xs, (List.cons.inj split).2, some, got⟩

theorem likeOperator_eq_true (p s : List UInt8) : likeOperator p s = true ↔ Like p s := by
  fun_induction likeOperator p s with
  | case1 s => exact List.isEmpty_iff
  | case2 c p => exact like_nil.symm
  | case3 p b s ih =>
    rw [ih, like_underscore]
    exact (and_iff_right (cons_ne_nil _ _)).symm
  | case4 p b s run =>
    refine iff_of_true rfl ?_
    rw [like_percentage_dropWhile, run, like_percentage]
    exact ⟨b :: s, [], (append_nil _).symm, rfl⟩
  | case5 p b s next p' run _ ih =>
    have head := head?_dropWhile_not (· == percentage) p
    rw [run, head?_cons] at head
    -- The rest of the pattern does not start with `%`, so that it matches no empty string.
    have some : ∀ xs, Like (next :: p') xs → xs ≠ [] := by
      rintro xs like rfl
      exact absurd (and_eq_true_iff.mp (like_nil.mp like)).1 (eq_false_iff.mp head)
    rw [like_percentage_dropWhile, run, like_percentage, anyFrom_eq_true]
    constructor
    · rintro ⟨gap, xs, split, -, got⟩
      exact ⟨gap, xs, split, (ih xs).mp got⟩
    · rintro ⟨gap, xs, split, like⟩
      exact ⟨gap, xs, split, some xs like, (ih xs).mpr like⟩
  | case6 p b s notUnderscore notPercentage ih =>
    rw [ih, like_literal notUnderscore notPercentage]
    constructor
    · intro like
      exact ⟨s, rfl, like⟩
    · rintro ⟨xs, heq, like⟩
      rwa [(List.cons.inj heq).2]
  | case7 c p b s notUnderscore notPercentage hne =>
    refine iff_of_false Bool.false_ne_true fun like => ?_
    obtain ⟨_, heq, -⟩ := (like_literal notUnderscore notPercentage).mp like
    exact hne (List.cons.inj heq).1.symm

end AccessPath.Strings
