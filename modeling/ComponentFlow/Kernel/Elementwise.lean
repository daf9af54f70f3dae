/-
  ComponentFlow.Kernel.Elementwise — operations on single elements, and the spreading of an
  operand over a larger shape. An element of the larger shape takes the operand's element at the
  same place, with the leading axes that the operand lacks dropped and coordinate zero along its
  axes of extent one.
-/
import ComponentFlow.Kernel.Basic

namespace ComponentFlow

def UnaryOp.apply (op : UnaryOp) (x : Float32) : Float32 :=
  match op with
  | .neg => -x
  | .abs => x.abs
  | .exp => x.exp
  | .log => x.log
  | .sqrt => x.sqrt
  | .square => x * x
  | .tanh => x.tanh
  | .sigmoid => 1 / (1 + (-x).exp)
  | .relu => Scalar.maximum x 0
  | .logicalNot => Scalar.ofBool (x == 0)

def BinaryOp.apply (op : BinaryOp) (a b : Float32) : Float32 :=
  match op with
  | .add => a + b
  | .sub => a - b
  | .mul => a * b
  | .div => a / b
  | .maximum => Scalar.maximum a b
  | .minimum => Scalar.minimum a b
  | .pow => a.pow b

def CompareOp.apply (op : CompareOp) (a b : Float32) : Float32 :=
  match op with
  | .greater => Scalar.ofBool (a > b)
  | .greaterEqual => Scalar.ofBool (a ≥ b)
  | .less => Scalar.ofBool (a < b)
  | .equal => Scalar.ofBool (a == b)

/-- The second value where the first is not zero, else the third. -/
def Scalar.choose (condition a b : Float32) : Float32 := if condition != 0 then a else b

namespace Kernel

/-- The coordinate of a flat index along an axis. -/
def coordinate (flat stride extent : Nat) : Result Nat :=
  if stride = 0 ∨ extent = 0 then .error (.fault .divisionByZero)
  else .ok (flat / stride % extent)

/-- The flat index of the operand's element under element `flat` of the result. Extents and
strides of the operand are paired with those of the result's last axes, which must not be fewer. -/
def sourceIndex (flat : Nat) : List Nat → List Nat → List Nat → List Nat → Result Nat
  | [], _, _, _ => .ok 0
  | d :: dims, s :: strides, o :: outDims, t :: outStrides => do
    let rest ← sourceIndex flat dims strides outDims outStrides
    if d = 1 then .ok rest
    else .ok ((← coordinate flat t o) * s + rest)
  | dims, _, outDims, _ => .error (.fault (.indexOutOfRange outDims.length dims.length))

/-- The payload of `t` spread over `shape`. -/
def spread (t : Tensor) (shape : Shape) : Result (Array Float32) :=
  if t.shape = shape then .ok t.data
  else
    let offset := shape.rank - t.shape.rank
    tabulate shape.count fun flat => do
      read t (← sourceIndex flat t.shape.dims t.shape.strides (shape.dims.drop offset)
        (shape.strides.drop offset))

def zipSpread (shape : Shape) (a b : Tensor) (f : Float32 → Float32 → Float32) :
    Result (Array Float32) := do
  let xs ← spread a shape
  let ys ← spread b shape
  .ok (Array.zipWith f xs ys)

def zipSpread3 (shape : Shape) (a b c : Tensor) (f : Float32 → Float32 → Float32 → Float32) :
    Result (Array Float32) := do
  let xs ← spread a shape
  let ys ← spread b shape
  let zs ← spread c shape
  .ok (Array.zipWith (fun g z => g z) (Array.zipWith f xs ys) zs)

/-- Every element moved into `[lo, hi]`. Bounds without an order abort as soon as there is an
element. -/
def clip (t : Tensor) (lo hi : Float32) : Result (Array Float32) :=
  if lo ≤ hi ∨ t.isEmpty then .ok (t.data.map (Scalar.clamp lo hi))
  else .error (.fault (.unorderedBounds lo hi))

end Kernel

end ComponentFlow
