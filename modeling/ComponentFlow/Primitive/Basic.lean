/-
  ComponentFlow.Primitive.Basic — the closed set of tensor operations. The name of a primitive is
  the one that node listings, counters and messages use.
-/
import ComponentFlow.Tensor.DType

namespace ComponentFlow

inductive UnaryOp where
  | neg
  | abs
  | exp
  | log
  | sqrt
  | square
  | tanh
  | sigmoid
  | relu
  | logicalNot
  deriving DecidableEq, Repr

inductive BinaryOp where
  | add
  | sub
  | mul
  | div
  | maximum
  | minimum
  | pow
  deriving DecidableEq, Repr

inductive CompareOp where
  | greater
  | greaterEqual
  | less
  | equal
  deriving DecidableEq, Repr

inductive ReduceOp where
  | sum
  | mean
  | max
  | min
  deriving DecidableEq, Repr

inductive Primitive where
  | unary (op : UnaryOp)
  /-- Elementwise, with broadcasting. -/
  | binary (op : BinaryOp)
  | compare (op : CompareOp)
  /-- Elements of the second operand where the first is true, of the third elsewhere. -/
  | select
  /-- Over one axis, or over all of them. -/
  | reduce (op : ReduceOp) (axis : Option Nat) (keepDims : Bool)
  | argMax (axis : Nat)
  | softmax (axis : Nat)
  | logSoftmax (axis : Nat)
  /-- `[m, k]` times `[k, n]`. -/
  | matMul
  | clip (lo hi : Float32)
  | cast (dtype : DType)
  | squeeze (axis : Nat)
  | expandDims (axis : Nat)
  /-- The identity; marks a value that gradients do not flow through. -/
  | stopGradient
  /-- Each step takes the value of the next one, the last step `fill`. -/
  | shiftLeft (fill : Float32)
  /-- Sums from the last step to the first, discounting the later sum and dropping it at a
  reset. -/
  | discountedSum (discount : Float32)
  /-- Samples in `[0, 1)` shaped like the second operand, for the step given by the first. -/
  | randomUniform (seed : UInt64)
  | oneHot (depth : Nat)
  deriving Repr

def UnaryOp.name : UnaryOp → String
  | .neg => "neg"
  | .abs => "abs"
  | .exp => "exp"
  | .log => "log"
  | .sqrt => "sqrt"
  | .square => "square"
  | .tanh => "tanh"
  | .sigmoid => "sigmoid"
  | .relu => "relu"
  | .logicalNot => "logical_not"

def BinaryOp.name : BinaryOp → String
  | .add => "add"
  | .sub => "sub"
  | .mul => "mul"
  | .div => "div"
  | .maximum => "maximum"
  | .minimum => "minimum"
  | .pow => "pow"

def CompareOp.name : CompareOp → String
  | .greater => "greater"
  | .greaterEqual => "greater_equal"
  | .less => "less"
  | .equal => "equal"

def ReduceOp.name : ReduceOp → String
  | .sum => "sum"
  | .mean => "mean"
  | .max => "max"
  | .min => "min"

namespace Primitive

def name : Primitive → String
  | .unary op => op.name
  | .binary op => op.name
  | .compare op => op.name
  | .select => "where"
  | .reduce op _ _ => "reduce_" ++ op.name
  | .argMax _ => "argmax"
  | .softmax _ => "softmax"
  | .logSoftmax _ => "log_softmax"
  | .matMul => "matmul"
  | .clip _ _ => "clip"
  | .cast _ => "cast"
  | .squeeze _ => "squeeze"
  | .expandDims _ => "expand_dims"
  | .stopGradient => "stop_gradient"
  | .shiftLeft _ => "shift_left"
  | .discountedSum _ => "discounted_cumsum"
  | .randomUniform _ => "random_uniform"
  | .oneHot _ => "one_hot"

/-- How many operands a primitive takes. -/
def arity : Primitive → Nat
  | .binary _ | .compare _ | .matMul | .discountedSum _ | .randomUniform _ => 2
  | .select => 3
  | _ => 1

end Primitive

end ComponentFlow
