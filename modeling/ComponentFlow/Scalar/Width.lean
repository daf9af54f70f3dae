/-
  ComponentFlow.Scalar.Width — moving between double and single precision. Widening is exact;
  narrowing rounds to nearest, ties to even, and reaches the subnormal range and infinity.
-/

namespace ComponentFlow.Scalar

/-- `m / 2 ^ shift` rounded to nearest, ties to even. -/
def roundShift (m shift : Nat) : Nat :=
  let unit := 1 <<< shift
  let whole := m / unit
  let rest := m % unit
  if 2 * rest > unit || (2 * rest == unit && whole % 2 == 1) then whole + 1 else whole

/-- The magnitude bits in single precision of a finite double with these exponent and fraction
fields. A carry out of the fraction moves into the exponent, up to infinity. -/
def narrowMagnitude (exponent fraction : Nat) : Nat :=
  if exponent ≥ 1151 then 0x7f800000
  else if exponent ≥ 897 then
    ((exponent - 896) <<< 23) + roundShift ((1 <<< 52) + fraction) 29 - (1 <<< 23)
  else if exponent ≥ 840 then roundShift ((1 <<< 52) + fraction) (29 + (897 - exponent))
  else 0

/-- The single-precision value nearest to `x`. -/
def narrow (x : Float) : Float32 :=
  let bits := x.toBits.toNat
  let exponent := (bits >>> 52) % 2048
  let fraction := bits % (1 <<< 52)
  let sign := (bits >>> 63) <<< 31
  if exponent = 2047 ∧ fraction ≠ 0 then Float32.ofBits 0x7fc00000
  else Float32.ofBits (sign + narrowMagnitude exponent fraction).toUInt32

/-- The magnitude bits in double precision of a finite single with these exponent and fraction
fields. -/
def widenMagnitude (exponent fraction : Nat) : Nat :=
  if exponent ≠ 0 then ((exponent + 896) <<< 52) + (fraction <<< 29)
  else if fraction = 0 then 0
  else
    let lead := fraction.log2
    ((lead + 874) <<< 52) + ((fraction - (1 <<< lead)) <<< (52 - lead))

/-- The double with the same value as `x`. -/
def widen (x : Float32) : Float :=
  let bits := x.toBits.toNat
  let exponent := (bits >>> 23) % 256
  let fraction := bits % (1 <<< 23)
  let sign := (bits >>> 31) <<< 63
  if exponent = 255 then
    if fraction = 0 then Float.ofBits (sign + (2047 <<< 52)).toUInt64
    else Float.ofBits 0x7ff8000000000000
  else Float.ofBits (sign + widenMagnitude exponent fraction).toUInt64

end ComponentFlow.Scalar
