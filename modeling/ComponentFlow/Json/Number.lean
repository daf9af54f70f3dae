/-
  ComponentFlow.Json.Number — number literals. The digits are read into a significand of at most
  64 bits; digits that do not fit are dropped and only move the exponent. A literal without
  fraction and exponent that fits 64 bits is an integer. Every other literal is its significand in
  double precision, scaled by a power of ten in one operation (below `1e-308`, in several).
-/
import ComponentFlow.Json.Basic

namespace ComponentFlow.Json

def maxSignificand : Nat := 0xffffffffffffffff

def digitValue (c : Char) : Nat := c.toNat - '0'.toNat

/-- Reads digits behind a significand; the second component counts the digits that are left when
the next one no longer fits. -/
def digitsInto (limit significand : Nat) : List Char → Nat × Nat
  | [] => (significand, 0)
  | d :: rest =>
    let next := significand * 10 + digitValue d
    if next > limit then (significand, rest.length + 1) else digitsInto limit next rest

def powerOfTen (e : Nat) : Float := Float.ofScientific 1 false e

/-- `x * 10 ^ e`; `none` if the result is too large. A value still not zero after three
divisions by `1e308` does not occur, so `fuel` three is enough. -/
def scale? (fuel : Nat) (x : Float) (e : Int) : Option Float :=
  if e.natAbs ≤ 308 then
    if e ≥ 0 then
      let y := x * powerOfTen e.natAbs
      if y.isInf then none else some y
    else some (x / powerOfTen e.natAbs)
  else if x == 0 then some x
  else if e ≥ 0 then none
  else match fuel with
    | 0 => some 0
    | fuel + 1 => scale? fuel (x / powerOfTen 308) (e + 308)

/-- The double `± significand * 10 ^ e`. -/
def double? (negative : Bool) (significand : Nat) (e : Int) : Option Json :=
  (scale? 3 significand.toUInt64.toFloat e).map fun x => .float (if negative then -x else x)

/-- An integer literal. A negative one below the signed range is a double, and so is `-0`. -/
def integer (negative : Bool) (significand : Nat) : Json :=
  if !negative then .int significand
  else if significand = 0 ∨ significand > 0x8000000000000000 then
    .float (-significand.toUInt64.toFloat)
  else .int (-significand)

/-- The exponent part, behind its `e`. -/
def exponent? (negative : Bool) (significand : Nat) (start : Int) (cs : List Char) :
    Option (Json × List Char) :=
  let (down, cs) := match cs with
    | '-' :: rest => (true, rest)
    | '+' :: rest => (false, rest)
    | _ => (false, cs)
  let digits := cs.takeWhile Char.isDigit
  let rest := cs.dropWhile Char.isDigit
  if digits.isEmpty then none
  else match digitsInto 0x7fffffff 0 digits with
    | (size, 0) =>
      let e := if down then start - size else start + size
      (double? negative significand e).map (·, rest)
    | _ =>
      if significand ≠ 0 ∧ !down then none
      else some (.float (if negative then -0.0 else 0.0), rest)

/-- A number literal behind its sign. -/
def number? (negative : Bool) (cs : List Char) : Option (Json × List Char) :=
  let whole := cs.takeWhile Char.isDigit
  let rest := cs.dropWhile Char.isDigit
  if whole.isEmpty || (whole.head? == some '0' && whole.length > 1) then none
  else
    let (significand, dropped) := digitsInto maxSignificand 0 whole
    match rest with
    | '.' :: rest =>
      let places := rest.takeWhile Char.isDigit
      let rest := rest.dropWhile Char.isDigit
      if places.isEmpty then none
      else
        let (significand, left) := digitsInto maxSignificand significand places
        let e : Int := (dropped : Int) - ((places.length : Int) - left)
        match rest with
        | 'e' :: rest => exponent? negative significand e rest
        | 'E' :: rest => exponent? negative significand e rest
        | _ => (double? negative significand e).map (·, rest)
    | 'e' :: rest => exponent? negative significand dropped rest
    | 'E' :: rest => exponent? negative significand dropped rest
    | _ =>
      if dropped = 0 then some (integer negative significand, rest)
      else (double? negative significand dropped).map (·, rest)

end ComponentFlow.Json
