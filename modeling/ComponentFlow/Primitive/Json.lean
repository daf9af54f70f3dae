/-
  ComponentFlow.Primitive.Json — primitives as JSON: an object whose `kind` names the operation
  and whose other fields are its parameters, fields it does not know being ignored; or an array of
  the kind and the parameters in order.
-/
import ComponentFlow.Primitive.Basic
import ComponentFlow.Tensor.Json

namespace ComponentFlow

namespace UnaryOp

def known : List (String × UnaryOp) :=
  [.neg, .abs, .exp, .log, .sqrt, .square, .tanh, .sigmoid, .relu, .logicalNot].map
    fun op => (op.name, op)

end UnaryOp

namespace BinaryOp

def known : List (String × BinaryOp) :=
  [.add, .sub, .mul, .div, .maximum, .minimum, .pow].map fun op => (op.name, op)

end BinaryOp

namespace CompareOp

def known : List (String × CompareOp) :=
  [.greater, .greaterEqual, .less, .equal].map fun op => (op.name, op)

end CompareOp

namespace ReduceOp

def known : List (String × ReduceOp) := [.sum, .mean, .max, .min].map fun op => (op.name, op)

end ReduceOp

namespace Primitive

/-- The parameters of a primitive. -/
inductive Parameters where
  | named (fields : Json.Fields)
  | listed (items : List Json)

/-- The parameters under these names; in an array there must be no others. -/
def Parameters.take? (p : Parameters) (names : List String) : Option (List Json) :=
  match p with
  | .named fields => names.mapM (Json.field? fields)
  | .listed items => if items.length = names.length then some items else none

/-- Like `take?`, where a missing field counts as `null`. -/
def Parameters.takeOrNull? (p : Parameters) (names : List String) : Option (List Json) :=
  match p with
  | .named fields => some (names.map fun n => (Json.field? fields n).getD .null)
  | .listed items => if items.length = names.length then some items else none

def Parameters.one? {α : Type} (p : Parameters) (name : String) (read : Json → Option α) :
    Option α := do
  match ← p.take? [name] with
  | [v] => read v
  | _ => none

def readVia {α : Type} (r : Json.Reader α) (v : Json) : Option α := (r v).toOption

/-- A single-precision parameter, given as a number or, where it is named, as a text for a payload
value. -/
def Parameters.single? (p : Parameters) : Json → Option Float32
  | .string s => match p with
    | .named _ => Scalar.ofJson? (.string s)
    | .listed _ => none
  | v => readVia Json.single v

/-- A parameter that is one of a few names, which may be the only key of an object whose value is
`null` or has no fields. -/
def choice? {α : Type} (known : List (String × α)) : Json → Option α :=
  readVia (Json.variantWith Json.nothingOrEmpty known)

def ofParameters? (kind : String) (p : Parameters) : Option Primitive :=
  let axis (make : Nat → Primitive) := (p.one? "axis" (readVia Json.count)).map make
  let plain (prim : Primitive) := match p with
    | .listed (_ :: _) => none
    | _ => some prim
  match kind with
  | "unary" => (p.one? "op" (choice? UnaryOp.known)).map .unary
  | "binary" => (p.one? "op" (choice? BinaryOp.known)).map .binary
  | "compare" => (p.one? "op" (choice? CompareOp.known)).map .compare
  | "where" => plain .select
  | "reduce" => do
    match ← p.takeOrNull? ["op", "axis", "keep_dims"] with
    | [op, axis, keep] =>
      some (.reduce (← choice? ReduceOp.known op)
        (← readVia (Json.optional Json.count) axis) (← readVia Json.flag keep))
    | _ => none
  | "arg_max" => axis .argMax
  | "softmax" => axis .softmax
  | "log_softmax" => axis .logSoftmax
  | "mat_mul" => plain .matMul
  | "clip" => do
    match ← p.take? ["min", "max"] with
    | [lo, hi] => some (.clip (← p.single? lo) (← p.single? hi))
    | _ => none
  | "cast" => (p.one? "dtype" (choice? DType.known)).map .cast
  | "squeeze" => axis .squeeze
  | "expand_dims" => axis .expandDims
  | "stop_gradient" => plain .stopGradient
  | "shift_left" => (p.one? "fill" p.single?).map .shiftLeft
  | "discounted_cumsum" => (p.one? "discount" p.single?).map .discountedSum
  | "random_uniform" => (p.one? "seed" (readVia Json.word64)).map .randomUniform
  | "one_hot" => (p.one? "depth" (readVia Json.count)).map .oneHot
  | _ => none

def ofJson? : Json → Option Primitive
  | .object fields => do
    match ← Json.field? fields "kind" with
    | .string kind => ofParameters? kind (.named fields)
    | _ => none
  | .array (.string kind :: items) => ofParameters? kind (.listed items)
  | _ => none

/-- Reads a primitive inside a definition. -/
def ofJson (v : Json) : Decoded Primitive := Decoded.ofOption .rejected (ofJson? v)

end Primitive

end ComponentFlow
