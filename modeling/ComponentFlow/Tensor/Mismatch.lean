/-
  ComponentFlow.Tensor.Mismatch — the ways in which shapes, element types and kinds of values can
  fail to fit, with the wording of each.
-/
import ComponentFlow.Decimal.Layout
import ComponentFlow.Tensor.Spec

namespace ComponentFlow

inductive Mismatch where
  /-- A payload whose length is not the number of elements. -/
  | dataLength (length : Nat) (shape : Shape)
  | notSingle (shape : Shape)
  | reshape (length : Nat) (shape : Shape)
  /-- A primitive applied to the wrong number of operands. -/
  | operandCount (op : String) (expected got : Nat)
  | notFloat (op : String) (operand : TensorSpec)
  | dtypesDiffer (op : String) (lhs rhs : TensorSpec)
  | broadcast (lhs rhs : List Dim)
  | conditionNotBool (condition : TensorSpec)
  | axisOutOfRange (op : String) (axis : Nat) (operand : TensorSpec)
  | notMatrices (lhs rhs : TensorSpec)
  | contraction (lhs rhs : TensorSpec)
  | boundsInverted (lo hi : Float32)
  | notSqueezable (axis : Nat) (operand : TensorSpec) (extent : Nat)
  | noSequenceAxis
  | sequencesDiffer (values resets : TensorSpec)
  | stepNotScalar (step : TensorSpec)
  | indicesNotInteger (operand : TensorSpec)
  /-- A primitive applied to an absent value. -/
  | absentOperand (op : String)
  /-- Kernels returned a tensor that the inferred spec does not admit. -/
  | kernelOutput (op : String) (produced expected : TensorSpec)
  /-- A named output is another kind of value than the one asked for. -/
  | outputKind (name kind wanted : String)
  | notConcrete (kind : String)
  | weightNotMatrix (shape : Shape)
  | biasShape (units : Nat) (shape : Shape)
  | noAxisToDrop

def Mismatch.message : Mismatch → String
  | .dataLength length shape =>
    s!"tensor data length ({length}) does not match shape {shape.text}"
  | .notSingle shape => s!"item() requires a single element, tensor has shape {shape.text}"
  | .reshape length shape => s!"cannot reshape {length} elements into {shape.text}"
  | .operandCount op expected got => s!"{op} expects {expected} operands, got {got}"
  | .notFloat op operand => s!"{op} requires a float operand, got {operand.text}"
  | .dtypesDiffer op lhs rhs => s!"{op} operands disagree on dtype: {lhs.text} vs {rhs.text}"
  | .broadcast lhs rhs =>
    "cannot broadcast " ++ Dim.listText lhs ++ " against " ++ Dim.listText rhs
  | .conditionNotBool condition => s!"where condition must be bool, got {condition.text}"
  | .axisOutOfRange op axis operand => s!"{op} axis {axis} out of range for {operand.text}"
  | .notMatrices lhs rhs => s!"matmul expects rank-2 operands, got {lhs.text} and {rhs.text}"
  | .contraction lhs rhs => s!"matmul contraction mismatch: {lhs.text} x {rhs.text}"
  | .boundsInverted lo hi =>
    "clip bounds inverted: [" ++ Scalar.text lo ++ ", " ++ Scalar.text hi ++ "]"
  | .notSqueezable axis operand extent =>
    s!"cannot squeeze axis {axis} of {operand.text}: extent is {extent}"
  | .noSequenceAxis => "shift_left requires a sequence axis"
  | .sequencesDiffer values resets =>
    s!"discounted_cumsum expects matching sequences, got {values.text} and {resets.text}"
  | .stepNotScalar step => s!"random_uniform step must be a scalar, got {step.text}"
  | .indicesNotInteger operand => s!"one_hot expects i32 indices, got {operand.text}"
  | .absentOperand op => s!"{op} received an absent operand"
  | .kernelOutput op produced expected =>
    s!"{op} kernel produced {produced.text} where {expected.text} was inferred"
  | .outputKind name kind wanted => s!"output '{name}' is a {kind}, not a {wanted}"
  | .notConcrete kind => s!"expected a concrete tensor, found {kind}"
  | .weightNotMatrix shape => s!"dense weight must be 2D, got shape {shape.text}"
  | .biasShape units shape => s!"dense bias must be [{units}], got shape {shape.text}"
  | .noAxisToDrop => "drop_last needs an axis"

end ComponentFlow
