/-
  ComponentFlow.Kernel.Reference — the reference kernels: infer the result's spec from the
  operands, compute the payload, and coerce it to the inferred element type.
-/
import ComponentFlow.Kernel.Axis
import ComponentFlow.Kernel.Elementwise
import ComponentFlow.Kernel.MatMul
import ComponentFlow.Kernel.Sequence
import ComponentFlow.Random.Counter

namespace ComponentFlow.Kernel

/-- One sample per element of the result, for the step in a scalar tensor. -/
def randomUniform (seed : UInt64) (step : Tensor) (shape : Shape) : Result (Array Float32) := do
  let step := UInt64.ofInt (Scalar.toInt64 (← read step 0))
  .ok (Array.ofFn fun i : Fin shape.count => Random.uniform seed step i.val.toUInt64)

/-- The row of zeros with a one at `index`. -/
def oneHotRow (depth : Nat) (x : Float32) : Result (List Float32) :=
  let index := Scalar.toInt64 x
  if index < 0 ∨ index ≥ depth then .error (.indexOutOfDepth index depth)
  else .ok ((List.range depth).map fun k => Scalar.ofBool (k == index.toNat))

def oneHot (t : Tensor) (depth : Nat) : Result (Array Float32) :=
  (fun rows => rows.flatten.toArray) <$> t.data.toList.mapM (oneHotRow depth)

/-- The payload of a primitive's result, given the shape it is to have. -/
def compute (p : Primitive) (inputs : List Tensor) (shape : Shape) : Result (Array Float32) :=
  match p, inputs with
  | .unary op, [x] => .ok (x.data.map op.apply)
  | .binary op, [a, b] => zipSpread shape a b op.apply
  | .compare op, [a, b] => zipSpread shape a b op.apply
  | .select, [condition, a, b] => zipSpread3 shape condition a b Scalar.choose
  | .reduce op axis _, [x] => reduce x op axis
  | .argMax axis, [x] => argMax x axis
  | .softmax axis, [x] => softmax x axis false
  | .logSoftmax axis, [x] => softmax x axis true
  | .matMul, [a, b] => matMul a b
  | .clip lo hi, [x] => clip x lo hi
  | .cast _, [x] | .squeeze _, [x] | .expandDims _, [x] | .stopGradient, [x] => .ok x.data
  | .shiftLeft fill, [x] => shiftLeft x fill
  | .discountedSum discount, [x, z] => discountedSum x z discount
  | .randomUniform seed, [step, _] => randomUniform seed step shape
  | .oneHot depth, [x] => oneHot x depth
  | p, inputs => .error (.shape (.operandCount p.name p.arity inputs.length))

def execute (p : Primitive) (inputs : List Tensor) : Result Tensor :=
  match p.infer (inputs.map Tensor.spec) with
  | .error cause => .error (.shape cause)
  | .ok spec =>
    match spec.shape? with
    | none => .error (.nonStatic p.name spec)
    | some shape => do
      let data ← compute p inputs shape
      (Tensor.ofData spec.dtype shape data).mapError .badResult

end ComponentFlow.Kernel

namespace ComponentFlow.Kernels

def reference : Kernels := plain "ref-cpu" Kernel.execute

end ComponentFlow.Kernels
