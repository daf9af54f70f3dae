/-
  ComponentFlow.Scalar.Basic — the operations on single-precision payload values that are not
  plain arithmetic: rounding toward zero, conversion to and from integers, and the orderings
  that tolerate NaN.

  Everything here is built from operations with a logical model, so each function can be
  evaluated inside a proof.
-/

namespace ComponentFlow.Scalar

/-- Rounds toward zero. A zero result keeps the sign of `x`, and NaN stays NaN. -/
def trunc (x : Float32) : Float32 :=
  if x.abs < 8388608 then
    let whole := x.abs.toUInt32.toFloat32
    if x.toBits >>> 31 = 1 then -whole else whole
  else x

/-- The integer part of `x`, kept within `lo` and `hi`; NaN gives zero. -/
def toIntWithin (lo hi : Int) (x : Float32) : Int :=
  let size : Int := x.abs.toUInt64.toNat
  let whole := if x < 0 then -size else size
  max lo (min hi whole)

def toInt32 : Float32 → Int := toIntWithin (-2147483648) 2147483647

def toInt64 : Float32 → Int := toIntWithin (-9223372036854775808) 9223372036854775807

/-- The value nearest to a natural number below `2 ^ 64`. -/
def ofNat (n : Nat) : Float32 := n.toUInt64.toFloat32

/-- The value nearest to an integer of less than 64 bits. -/
def ofInt (n : Int) : Float32 :=
  if n < 0 then -ofNat n.natAbs else ofNat n.natAbs

def ofBool (b : Bool) : Float32 := if b then 1 else 0

/-- The larger operand; of a number and NaN the number, of equal operands the first. -/
def maximum (a b : Float32) : Float32 :=
  if b > a then b else if a.isNaN then b else a

/-- The smaller operand; of a number and NaN the number, of equal operands the first. -/
def minimum (a b : Float32) : Float32 :=
  if b < a then b else if a.isNaN then b else a

/-- Moves `x` to the nearer end when it lies outside `[lo, hi]`; NaN stays NaN. -/
def clamp (lo hi x : Float32) : Float32 :=
  let raised := if x < lo then lo else x
  if raised > hi then hi else raised

def infinity : Float32 := Float32.ofBits 0x7f800000

def negInfinity : Float32 := Float32.ofBits 0xff800000

/-- The sum of no values, `-0.0`: adding it to any value gives that value. -/
def emptySum : Float32 := Float32.ofBits 0x80000000

/-- Adds up from the left. -/
def sum (xs : List Float32) : Float32 := xs.foldl (· + ·) emptySum

/-- Same bits and not NaN: a value that can be used in place of another without a trace. -/
def identical (a b : Float32) : Bool := a.toBits == b.toBits && !a.isNaN

end ComponentFlow.Scalar
