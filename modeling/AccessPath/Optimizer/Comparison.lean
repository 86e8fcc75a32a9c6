import Mathlib.Algebra.Order.Group.Int

/-!
# Comparisons of integer columns

Comparison expressions with the three-valued logic of the language: a comparison with NULL is
neither true nor false, except for the two that take NULL for a value.
-/

namespace AccessPath.Optimizer

/-- The value of an integer column; `none` is NULL. -/
abbrev Cell := Option Int

/-- The comparisons of `ExpressionType`. -/
inductive Comparison
  | equal
  | notEqual
  | lessThan
  | greaterThan
  | lessThanOrEqualTo
  | greaterThanOrEqualTo
  | distinctFrom
  | notDistinctFrom
deriving DecidableEq, Repr

namespace Comparison

/-- Comparison of two values that are not NULL. -/
def holds : Comparison → Int → Int → Bool
  | equal, a, b => a == b
  | notEqual, a, b => a != b
  | lessThan, a, b => a < b
  | greaterThan, a, b => b < a
  | lessThanOrEqualTo, a, b => a ≤ b
  | greaterThanOrEqualTo, a, b => b ≤ a
  | distinctFrom, a, b => a != b
  | notDistinctFrom, a, b => a == b

/-- `IsCompareDistinct` -/
def isDistinct : Comparison → Bool
  | distinctFrom | notDistinctFrom => true
  | _ => false

/-- The value of a comparison, where `none` is NULL again. -/
def eval (c : Comparison) : Cell → Cell → Option Bool
  | some a, some b => some (c.holds a b)
  | none, none => if c.isDistinct then some (c == notDistinctFrom) else none
  | some _, none => if c.isDistinct then some (c == distinctFrom) else none
  | none, some _ => if c.isDistinct then some (c == distinctFrom) else none

/-- Only rows for which a predicate is true are kept. -/
def isTrue (c : Comparison) (x y : Cell) : Bool := c.eval x y == some true

theorem isTrue_some (c : Comparison) (a b : Int) : c.isTrue (some a) (some b) = c.holds a b := by
  cases h : c.holds a b with
  | true | false => rw [isTrue, eval, h]; rfl

/-- What is compared by a regular comparison that is true is not NULL. -/
theorem exists_of_isTrue {c : Comparison} {x y : Cell} (regular : c.isDistinct = false)
    (true' : c.isTrue x y = true) : ∃ a b, x = some a ∧ y = some b ∧ c.holds a b = true := by
  have eval_eq : c.eval x y = some true := beq_iff_eq.mp true'
  rcases x with _ | a
  · rcases y with _ | b
    · rw [eval, regular, if_neg Bool.false_ne_true] at eval_eq
      cases eval_eq
    · rw [eval, regular, if_neg Bool.false_ne_true] at eval_eq
      cases eval_eq
  · rcases y with _ | b
    · rw [eval, regular, if_neg Bool.false_ne_true] at eval_eq
      cases eval_eq
    · exact ⟨a, b, rfl, rfl, Option.some.inj eval_eq⟩

end Comparison

end AccessPath.Optimizer
