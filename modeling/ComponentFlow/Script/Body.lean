/-
  ComponentFlow.Script.Body — method bodies as JSON. A reference is `null`, an input `in`, the
  `v`-th of the values produced so far, a literal tensor `t`, or a placeholder `leak` that belongs
  to no graph of the caller's. A step fails with a text, calls a child, or applies a primitive,
  which is given in full or by the name of a shorthand.
-/
import ComponentFlow.Component.Body
import ComponentFlow.Primitive.Json

namespace ComponentFlow.Script

/-! ## Fields -/

/-- A field that must be there. -/
def field (v : Json) (key : String) : Decoded Json := .ofOption .malformed (v.get? key)

def textField (v : Json) (key : String) : Decoded String := do
  .ofOption .malformed (← field v key).string?

def natField (v : Json) (key : String) : Decoded Nat := do
  .ofOption .malformed (← field v key).nat?

def listField (v : Json) (key : String) : Decoded (List Json) := do
  .ofOption .malformed (← field v key).items?

/-- A list that may be left out. -/
def listOr (v : Json) (key : String) : Decoded (List Json) :=
  match v.get? key with
  | some items => .ofOption .malformed items.items?
  | none => .ok []

/-- A flag that may be left out. -/
def flagOr (v : Json) (key : String) (default : Bool) : Decoded Bool :=
  match v.get? key with
  | some b => .ofOption .malformed b.bool?
  | none => .ok default

/-- One of a few names. -/
def nameField {α : Type} (v : Json) (key : String) (known : List (String × α)) : Decoded α := do
  .ofOption .rejected (Json.variant known (← field v key)).toOption

def scalarField (v : Json) (key : String) : Decoded Float32 := do
  .ofOption .malformed (Scalar.ofJson? (← field v key))

/-! ## References -/

/-- The placeholder of that spec which belongs to graph 0. -/
def leaked (spec : TensorSpec) : Placeholder := ⟨0, .feed ("leak-" ++ spec.text), spec⟩

def leakedOfJson (v : Json) : Decoded Placeholder := leaked <$> TensorSpec.ofTextJson v

def refOfJson : Json → Decoded Ref
  | .null => .ok .absent
  | .object [("in", i)] => .input <$> .ofOption .malformed i.nat?
  | .object [("v", i)] => .value <$> .ofOption .malformed i.nat?
  | .object [("t", t)] => .literal <$> Tensor.ofJson t
  | .object [("leak", spec)] => .foreign <$> leakedOfJson spec
  | _ => .error .malformed

/-! ## Steps -/

/-- The primitive that a shorthand stands for. -/
def shorthand (v : Json) : Decoded Primitive := do
  match ← textField v "fn" with
  | "unary" => .unary <$> nameField v "op" UnaryOp.known
  | "add" => .ok (.binary .add)
  | "sub" => .ok (.binary .sub)
  | "mul" => .ok (.binary .mul)
  | "div" => .ok (.binary .div)
  | "maximum" => .ok (.binary .maximum)
  | "minimum" => .ok (.binary .minimum)
  | "compare" => .compare <$> nameField v "op" CompareOp.known
  | "select" => .ok .select
  | "reduce" => do
    let op ← nameField v "op" ReduceOp.known
    let axis ← match v.get? "axis" with
      | none | some .null => .ok none
      | some axis => some <$> .ofOption .malformed axis.nat?
    .ok (.reduce op axis false)
  | "argmax" => .argMax <$> natField v "axis"
  | "softmax" => .softmax <$> natField v "axis"
  | "log_softmax" => .logSoftmax <$> natField v "axis"
  | "matmul" => .ok .matMul
  | "clip" => do .ok (.clip (← scalarField v "min") (← scalarField v "max"))
  | "cast" => .cast <$> nameField v "dtype" DType.known
  | "stop_gradient" => .ok .stopGradient
  | _ => .error .malformed

def argsOfJson (v : Json) : Decoded (List Ref) := do (← listOr v "args").mapM refOfJson

def stepOfJson (v : Json) : Decoded Step := do
  if let some text := v.get? "fail" then
    return ⟨.fail (← .ofOption .malformed text.string?), ← argsOfJson v⟩
  if let some child := v.get? "call" then
    let child ← .ofOption .malformed child.string?
    return .call child (← textField v "method") (← argsOfJson v)
  if let some p := v.get? "prim" then
    return .apply (← Primitive.ofJson p) (← argsOfJson v)
  return .apply (← shorthand v) (← argsOfJson v)

/-- The fields `body` and `returns` of a method. -/
def bodyOfJson (v : Json) : Decoded Body := do
  let steps ← (← listOr v "body").mapM stepOfJson
  let returns ← (← listOr v "returns").mapM refOfJson
  return .straight steps returns

end ComponentFlow.Script
