/-
  ComponentFlow.Tensor.Json — JSON forms. A payload value is a number or a text: `nan`, `inf`,
  `-inf` or its eight hexadecimal digits of bits. A tensor is an object with `dtype`, `shape` and
  `data`; a spec is an object with `dtype` and `dims`, each axis an object with the one field
  `Static` or `Dynamic`.
-/
import ComponentFlow.Error
import ComponentFlow.Json.Parser
import ComponentFlow.Tensor.Basic

namespace ComponentFlow

/-- Why a definition in JSON could not be taken. -/
inductive DecodeError where
  /-- It is not of the form it must have. -/
  | malformed
  /-- A part with a reader of its own was refused by it. -/
  | rejected
  /-- It has the form, but what it defines is refused. -/
  | refused (cause : GraphError)

abbrev Decoded (α : Type) := Except DecodeError α

namespace Decoded

def ofOption {α : Type} (e : DecodeError) : Option α → Decoded α
  | some a => .ok a
  | none => .error e

def ofOutcome {α : Type} (r : Outcome α) : Decoded α := r.mapError .refused

end Decoded

namespace Scalar

/-- A payload value from a JSON number or text. -/
def ofJson? : Json → Option Float32
  | .int n =>
    let x := n.natAbs.toUInt64.toFloat
    some (narrow (if n < 0 then -x else x))
  | .float x => some (narrow x)
  | .string "nan" => some (Float32.ofBits 0x7fc00000)
  | .string "inf" => some infinity
  | .string "-inf" => some negInfinity
  | .string s => do
    if s.length ≠ 8 then none
    let (high, rest) ← Json.hex4? s.toList
    let (low, _) ← Json.hex4? rest
    some (Float32.ofBits (high * 65536 + low).toUInt32)
  | _ => none

end Scalar

namespace Json

/-- The elements of an array. -/
def items? : Json → Option (List Json)
  | .array items => some items
  | _ => none

/-- An integer of at least zero. -/
def nat? : Json → Option Nat
  | .int n => if n ≥ 0 then some n.toNat else none
  | _ => none

def int? : Json → Option Int
  | .int n => some n
  | _ => none

def string? : Json → Option String
  | .string s => some s
  | _ => none

def bool? : Json → Option Bool
  | .bool b => some b
  | _ => none

end Json

namespace DType

/-- The names of element types, for readers. -/
def known : List (String × DType) := [("f32", .f32), ("i32", .i32), ("bool", .bool)]

end DType

namespace Shape

def ofJson? (v : Json) : Option Shape := do
  let dims ← (← v.items?).mapM Json.nat?
  some ⟨dims⟩

end Shape

namespace Tensor

/-- Reads a tensor. -/
def ofJson (v : Json) : Decoded Tensor := do
  let dtype ← Decoded.ofOption .malformed ((v.get? "dtype").bind Json.string? |>.bind DType.ofName?)
  let shape ← Decoded.ofOption .malformed ((v.get? "shape").bind Shape.ofJson?)
  let items ← Decoded.ofOption .malformed ((v.get? "data").bind Json.items?)
  let data ← Decoded.ofOption .malformed (items.mapM Scalar.ofJson?)
  Decoded.ofOutcome (Outcome.ofShape (Tensor.ofData dtype shape data.toArray))

end Tensor

namespace TensorSpec

/-- The text form as an outcome of the library. -/
def read (text : String) : Outcome TensorSpec :=
  (parse text).mapError fun e => .invalidSpec (.tensorSpec e)

/-- Reads the text form held by a JSON string. -/
def ofTextJson (v : Json) : Decoded TensorSpec := do
  let text ← Decoded.ofOption .malformed v.string?
  Decoded.ofOutcome (read text)

def dimOfJson? : Json → Option Dim
  | .object [("Static", v)] => (Json.count v).toOption.map .fixed
  | .object [("Dynamic", .string s)] => some (.named s)
  | _ => none

def ofParts? (dtype dims : Json) : Option TensorSpec := do
  let dtype ← (Json.variant DType.known dtype).toOption
  let dims ← (← dims.items?).mapM dimOfJson?
  some ⟨dtype, dims⟩

/-- Reads the object form, or its two parts in an array. -/
def ofJson? : Json → Option TensorSpec
  | .object fields => do ofParts? (← Json.field? fields "dtype") (← Json.field? fields "dims")
  | .array [dtype, dims] => ofParts? dtype dims
  | _ => none

def dimToJson : Dim → Json
  | .fixed n => .object [("Static", .int n)]
  | .named s => .object [("Dynamic", .string s)]

def toJson (s : TensorSpec) : Json :=
  .object [("dims", .array (s.dims.map dimToJson)), ("dtype", .string s.dtype.name)]

end TensorSpec

end ComponentFlow
