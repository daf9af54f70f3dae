/-
  ComponentFlow.Tensor.SpecText — reading the text form of a spec, such as `f32[?B,4]`. Blanks
  around the parts are dropped, and so are empty parts between commas.
-/
import ComponentFlow.Tensor.Spec
import ComponentFlow.Text.Blank
import ComponentFlow.Text.Split

namespace ComponentFlow

/-- Why a text is not a spec. -/
inductive SpecTextError where
  | missingOpen (text : String)
  | missingClose (text : String)
  | unknownDType (name : String)
  | badExtent (part : String)
  deriving DecidableEq, Repr

def SpecTextError.message : SpecTextError → String
  | .missingOpen text => s!"tensor spec '{text}' is missing '['"
  | .missingClose text => s!"tensor spec '{text}' is missing ']'"
  | .unknownDType name => s!"unknown dtype '{name}' in tensor spec"
  | .badExtent part => s!"invalid dimension '{part}' in tensor spec"

namespace TensorSpec

/-- Extents are below `2 ^ 64`. -/
def maxExtent : Nat := 0xffffffffffffffff

/-- Decimal digits, at least one, giving at most `maxExtent`; a plus sign may stand before them. -/
def parseExtent? (cs : List Char) : Option Nat :=
  let digits := match cs with
    | '+' :: rest => rest
    | _ => cs
  if digits.isEmpty || !digits.all Char.isDigit then none
  else
    let n := digits.foldl (fun acc d => acc * 10 + (d.toNat - '0'.toNat)) 0
    if n ≤ maxExtent then some n else none

/-- One trimmed part that is not empty. -/
def parseDim (part : List Char) : Except SpecTextError Dim :=
  match part with
  | '?' :: symbol => .ok (.named (String.ofList symbol))
  | _ => match parseExtent? part with
    | some n => .ok (.fixed n)
    | none => .error (.badExtent (String.ofList part))

def parseDims : List (List Char) → Except SpecTextError (List Dim)
  | [] => .ok []
  | part :: rest =>
    let part := Text.trim part
    if part.isEmpty then parseDims rest
    else do
      let d ← parseDim part
      let ds ← parseDims rest
      .ok (d :: ds)

/-- Reads the text form of a spec. -/
def parse (raw : String) : Except SpecTextError TensorSpec :=
  match Text.splitOnce '[' (Text.trim raw.toList) with
  | none => .error (.missingOpen raw)
  | some (dtype, rest) =>
    match Text.dropLast? ']' rest with
    | none => .error (.missingClose raw)
    | some body =>
      let name := String.ofList (Text.trim dtype)
      match DType.ofName? name with
      | none => .error (.unknownDType name)
      | some dtype => (parseDims (Text.splitAt ',' body)).map fun dims => ⟨dtype, dims⟩

end TensorSpec

end ComponentFlow
