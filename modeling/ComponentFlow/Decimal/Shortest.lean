/-
  ComponentFlow.Decimal.Shortest — the shortest decimal that reads back as a given binary
  floating-point number.

  A finite binary number is `m * 2 ^ q`. Every real number in its rounding interval reads back
  as it; the interval reaches half way to either neighbour and includes its ends when `m` is
  even. For 1, 2, … digits the two neighbours of the value on that decimal grid are tested in
  exact arithmetic, and the first grid with a hit wins.
-/

namespace ComponentFlow.Decimal

/-- Which of two equally near decimals is taken. -/
inductive Tie
  | up
  | even
  deriving DecidableEq, Repr

/-- A non-negative fraction of naturals; the denominator is positive wherever one is built. -/
structure Ratio where
  num : Nat
  den : Nat
  deriving DecidableEq, Repr

namespace Ratio

def le (a b : Ratio) : Bool := a.num * b.den ≤ b.num * a.den

def lt (a b : Ratio) : Bool := a.num * b.den < b.num * a.den

/-- `m * 2 ^ q`. -/
def ofBinary (m : Nat) (q : Int) : Ratio :=
  if q ≥ 0 then ⟨m <<< q.toNat, 1⟩ else ⟨m, 1 <<< (-q).toNat⟩

/-- The number `10 ^ e`, for exponents that are not negative. -/
def tenTo (e : Int) : Nat := Nat.pow 10 e.toNat

/-- `d * 10 ^ e`. -/
def ofDecimal (d : Nat) (e : Int) : Ratio :=
  if e ≥ 0 then ⟨d * tenTo e, 1⟩ else ⟨d, tenTo (-e)⟩

/-- The whole part of `r / 10 ^ e`. -/
def floorAt (r : Ratio) (e : Int) : Nat :=
  if e ≥ 0 then r.num / (r.den * tenTo e) else r.num * tenTo (-e) / r.den

end Ratio

/-- The real numbers that read back as one binary number. -/
structure Interval where
  low : Ratio
  high : Ratio
  closed : Bool
  deriving DecidableEq, Repr

def Interval.contains (i : Interval) (r : Ratio) : Bool :=
  if i.closed then i.low.le r && r.le i.high else i.low.lt r && r.lt i.high

/-- The rounding interval of `m * 2 ^ q`. Below a power of two the neighbours lie twice as close,
which `narrowBelow` says. -/
def Interval.around (m : Nat) (q : Int) (narrowBelow : Bool) : Interval where
  low := if narrowBelow then .ofBinary (4 * m - 1) (q - 2) else .ofBinary (2 * m - 1) (q - 1)
  high := .ofBinary (2 * m + 1) (q - 1)
  closed := m % 2 == 0

/-- `digits * 10 ^ exponent`. -/
structure Digits where
  digits : Nat
  exponent : Int
  deriving DecidableEq, Repr

def decimalLength (n : Nat) : Nat := (Nat.toDigits 10 n).length

/-- The exponent of the leading decimal digit of a positive ratio. -/
def leadingExponent (r : Ratio) : Int :=
  let guess : Int := (decimalLength r.num : Int) - decimalLength r.den
  if (Ratio.ofDecimal 1 guess).le r then guess else guess - 1

/-- The nearest grid point within the interval, on the grid of multiples of `10 ^ e`. -/
def onGrid? (tie : Tie) (i : Interval) (value : Ratio) (e : Int) : Option Digits :=
  let below := value.floorAt e
  let above := below + 1
  let low := Ratio.ofDecimal below e
  let high := Ratio.ofDecimal above e
  match i.contains low, i.contains high with
  | false, false => none
  | true, false => some ⟨below, e⟩
  | false, true => some ⟨above, e⟩
  | true, true =>
    -- twice the value against the sum of both neighbours
    let twice : Ratio := ⟨2 * value.num, value.den⟩
    let both := Ratio.ofDecimal (below + above) e
    if twice.lt both then some ⟨below, e⟩
    else if both.lt twice then some ⟨above, e⟩
    else match tie with
      | .up => some ⟨above, e⟩
      | .even => some ⟨if below % 2 = 0 then below else above, e⟩

/-- Tries one digit more each time; `fuel` bounds the number of digits. -/
def searchGrids (tie : Tie) (i : Interval) (value : Ratio) : Nat → Int → Digits
  | 0, e => ⟨value.floorAt e, e⟩
  | fuel + 1, e => (onGrid? tie i value e).getD (searchGrids tie i value fuel (e - 1))

/-- Drops trailing zeros of the digits. -/
def Digits.trim (d : Digits) : Nat → Digits
  | 0 => d
  | fuel + 1 =>
    if d.digits ≠ 0 ∧ d.digits % 10 = 0 then
      trim ⟨d.digits / 10, d.exponent + 1⟩ fuel
    else d

/-- The shortest decimal that reads back as the positive number `m * 2 ^ q`. Seventeen digits
are enough for double precision. -/
def shortest (tie : Tie) (m : Nat) (q : Int) (narrowBelow : Bool) : Digits :=
  let value := Ratio.ofBinary m q
  (searchGrids tie (.around m q narrowBelow) value 17 (leadingExponent value)).trim 20

end ComponentFlow.Decimal
