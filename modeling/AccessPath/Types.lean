import Mathlib.Tactic

/-!
# Integer types

The fixed-width integers of `PhysicalType`. A value is the bit pattern that is
stored; the type says how it is read.
-/

namespace AccessPath

/-- The number of bytes of an integer. -/
inductive IntegerWidth where
  | one
  | two
  | four
  | eight
  | sixteen
  deriving DecidableEq, Repr

def IntegerWidth.bytes : IntegerWidth → Nat
  | .one => 1
  | .two => 2
  | .four => 4
  | .eight => 8
  | .sixteen => 16

/-- `INT8` to `INT128` and `UINT8` to `UINT128`. -/
structure IntegerType where
  signed : Bool
  width : IntegerWidth
  deriving DecidableEq, Repr

namespace IntegerType

variable (t : IntegerType)

def bytes : Nat := t.width.bytes

def bits : Nat := 8 * t.bytes

/-- A stored integer. -/
abbrev Value : Type := BitVec t.bits

/-- The integer that a bit pattern stands for. -/
def toInt (x : t.Value) : Int := if t.signed then BitVec.toInt x else x.toNat

/-- `NumericLimits<T>::Minimum()`. -/
def minimum : Int := if t.signed then -2 ^ (t.bits - 1) else 0

/-- `NumericLimits<T>::Maximum()`. -/
def maximum : Int := if t.signed then 2 ^ (t.bits - 1) - 1 else 2 ^ t.bits - 1

end IntegerType

end AccessPath
