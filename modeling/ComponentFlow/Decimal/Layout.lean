/-
  ComponentFlow.Decimal.Layout — how a floating-point number is written: where positional
  notation ends, whether a whole number shows a fraction, and how ties of the digits go. One
  record per place that writes numbers.
-/
import ComponentFlow.Decimal.Shortest

namespace ComponentFlow.Decimal

/-- The decisions of one number format. -/
structure Layout where
  /-- Least and greatest leading exponent written positionally; `none` for all of them. -/
  positional : Option (Int × Int)
  /-- Whole numbers in positional notation end in `.0`. -/
  wholePoint : Bool
  /-- Exponents that are not negative carry a `+`. -/
  signedExponent : Bool
  tie : Tie
  deriving Repr

/-- Numbers in running text: positional at any size, whole numbers without a point. -/
def Layout.plain : Layout := ⟨none, false, false, .up⟩

/-- Numbers in diagnostics: positional from `1e-4` up to below `1e16`. -/
def Layout.diagnostic : Layout := ⟨some (-4, 15), true, false, .up⟩

/-- Numbers in JSON: positional from `1e-5` up to below `1e16`, and `1e+16` from there. -/
def Layout.json : Layout := ⟨some (-5, 15), true, true, .even⟩

/-- Digits with a point placed after the digit of exponent zero. -/
def positionalText (point : Bool) (d : Digits) : String :=
  let text := Nat.toDigits 10 d.digits
  if d.exponent ≥ 0 then
    String.ofList (text ++ List.replicate d.exponent.toNat '0') ++ (if point then ".0" else "")
  else
    let places := (-d.exponent).toNat
    if text.length > places then
      String.ofList (text.take (text.length - places)) ++ "."
        ++ String.ofList (text.drop (text.length - places))
    else "0." ++ String.ofList (List.replicate (places - text.length) '0' ++ text)

/-- One digit before the point, the rest after it, then the exponent, with a `+` where `signed`
asks for one. -/
def scientificText (signed : Bool) (d : Digits) : String :=
  let text := Nat.toDigits 10 d.digits
  let lead := d.exponent + text.length - 1
  let rest := text.drop 1
  String.ofList (text.take 1) ++ (if rest.isEmpty then "" else "." ++ String.ofList rest)
    ++ "e" ++ (if signed && lead ≥ 0 then "+" else "") ++ toString lead

/-- Writes a positive number. -/
def Layout.write (l : Layout) (d : Digits) : String :=
  let lead := d.exponent + decimalLength d.digits - 1
  match l.positional with
  | none => positionalText l.wholePoint d
  | some (least, greatest) =>
    if least ≤ lead ∧ lead ≤ greatest then positionalText l.wholePoint d
    else scientificText l.signedExponent d

/-- Writes a number given by the fields of its binary form: `bias` places the binary point of the
fraction, which has `fractionBits` bits. -/
def Layout.ofFields (l : Layout) (negative : Bool) (exponent fraction fractionBits bias : Nat)
    (special : Bool) : String :=
  if special then
    if fraction ≠ 0 then "NaN" else if negative then "-inf" else "inf"
  else
    let body :=
      if exponent = 0 ∧ fraction = 0 then if l.wholePoint then "0.0" else "0"
      else
        let m := if exponent = 0 then fraction else (1 <<< fractionBits) + fraction
        let q : Int := (max exponent 1 : Nat) - (bias + fractionBits : Nat)
        l.write (shortest l.tie m q (fraction == 0 && exponent > 1))
    if negative then "-" ++ body else body

def Layout.single (l : Layout) (x : Float32) : String :=
  let bits := x.toBits.toNat
  let exponent := (bits >>> 23) % 256
  l.ofFields (bits >>> 31 == 1) exponent (bits % (1 <<< 23)) 23 127 (exponent == 255)

def Layout.double (l : Layout) (x : Float) : String :=
  let bits := x.toBits.toNat
  let exponent := (bits >>> 52) % 2048
  l.ofFields (bits >>> 63 == 1) exponent (bits % (1 <<< 52)) 52 1023 (exponent == 2047)

end ComponentFlow.Decimal

namespace ComponentFlow.Scalar

/-- The text of a payload value in messages. -/
def text (x : Float32) : String := Decimal.Layout.plain.single x

end ComponentFlow.Scalar
