/-
  ComponentFlow.Primitive.Infer — the spec of a primitive's result from the specs of its operands.
  The same rule allocates values of a graph before anything runs and checks what kernels return.
-/
import ComponentFlow.Primitive.Basic
import ComponentFlow.Primitive.Broadcast

namespace ComponentFlow.Primitive

/-- The axes left after reducing along `axis`, which stays with extent one if `keep` says so. -/
def reduceAxis (dims : List Dim) (axis : Nat) (keep : Bool) : List Dim :=
  if keep then dims.set axis (.fixed 1) else dims.eraseIdx axis

def reduceAll (dims : List Dim) (keep : Bool) : List Dim :=
  if keep then dims.map fun _ => .fixed 1 else []

def checkAxis (p : Primitive) (x : TensorSpec) (axis : Nat) : Except Mismatch Unit :=
  if axis < x.rank then .ok () else .error (.axisOutOfRange p.name axis x)

def checkFloat (p : Primitive) (x : TensorSpec) : Except Mismatch Unit :=
  if x.dtype.isFloat then .ok () else .error (.notFloat p.name x)

def checkSameDType (p : Primitive) (a b : TensorSpec) : Except Mismatch Unit :=
  if a.dtype = b.dtype then .ok () else .error (.dtypesDiffer p.name a b)

def inferUnary (op : UnaryOp) (x : TensorSpec) : Except Mismatch TensorSpec :=
  match op with
  | .logicalNot => .ok (x.withDType .bool)
  | .neg | .abs | .square | .relu => .ok x
  | _ => do
    checkFloat (.unary op) x
    .ok x

def inferSelect (condition a b : TensorSpec) : Except Mismatch TensorSpec := do
  if condition.dtype ≠ .bool then throw (.conditionNotBool condition)
  checkSameDType .select a b
  let dims ← broadcastDims condition.dims a.dims
  let dims ← broadcastDims dims b.dims
  .ok ⟨a.dtype, dims⟩

def inferReduce (op : ReduceOp) (axis : Option Nat) (keep : Bool) (x : TensorSpec) :
    Except Mismatch TensorSpec := do
  let dtype := if op = .mean then .f32 else x.dtype
  match axis with
  | some axis =>
    checkAxis (.reduce op axis keep) x axis
    .ok ⟨dtype, reduceAxis x.dims axis keep⟩
  | none => .ok ⟨dtype, reduceAll x.dims keep⟩

def inferMatMul (a b : TensorSpec) : Except Mismatch TensorSpec := do
  checkSameDType .matMul a b
  match a.dims, b.dims with
  | [m, k], [k', n] =>
    if k.compatible k' then .ok ⟨a.dtype, [m, n]⟩ else .error (.contraction a b)
  | _, _ => .error (.notMatrices a b)

def inferSqueeze (axis : Nat) (x : TensorSpec) : Except Mismatch TensorSpec := do
  checkAxis (.squeeze axis) x axis
  match x.dims[axis]? with
  | some (.fixed extent) =>
    if extent = 1 then .ok ⟨x.dtype, reduceAxis x.dims axis false⟩
    else .error (.notSqueezable axis x extent)
  | _ => .ok ⟨x.dtype, reduceAxis x.dims axis false⟩

def inferDiscountedSum (discount : Float32) (values resets : TensorSpec) :
    Except Mismatch TensorSpec := do
  checkFloat (.discountedSum discount) values
  if values.rank = 0 ∨ !Dim.allCompatible values.dims resets.dims then
    throw (.sequencesDiffer values resets)
  .ok values

/-- The result's spec, or why the operands do not fit. -/
def infer (p : Primitive) (inputs : List TensorSpec) : Except Mismatch TensorSpec :=
  match p, inputs with
  | .unary op, [x] => inferUnary op x
  | .binary op, [a, b] => do
    checkSameDType (.binary op) a b
    let dims ← broadcastDims a.dims b.dims
    .ok ⟨a.dtype, dims⟩
  | .compare op, [a, b] => do
    checkSameDType (.compare op) a b
    let dims ← broadcastDims a.dims b.dims
    .ok ⟨.bool, dims⟩
  | .select, [condition, a, b] => inferSelect condition a b
  | .reduce op axis keep, [x] => inferReduce op axis keep x
  | .argMax axis, [x] => do
    checkAxis (.argMax axis) x axis
    .ok ⟨.i32, reduceAxis x.dims axis false⟩
  | .softmax axis, [x] => do
    checkFloat (.softmax axis) x
    checkAxis (.softmax axis) x axis
    .ok x
  | .logSoftmax axis, [x] => do
    checkFloat (.logSoftmax axis) x
    checkAxis (.logSoftmax axis) x axis
    .ok x
  | .matMul, [a, b] => inferMatMul a b
  | .clip lo hi, [x] => if lo > hi then .error (.boundsInverted lo hi) else .ok x
  | .cast dtype, [x] => .ok (x.withDType dtype)
  | .squeeze axis, [x] => inferSqueeze axis x
  | .expandDims axis, [x] =>
    if axis > x.rank then .error (.axisOutOfRange (Primitive.expandDims axis).name axis x)
    else .ok ⟨x.dtype, x.dims.insertIdx axis (.fixed 1)⟩
  | .stopGradient, [x] => .ok x
  | .shiftLeft _, [x] => if x.rank = 0 then .error .noSequenceAxis else .ok x
  | .discountedSum discount, [values, resets] => inferDiscountedSum discount values resets
  | .randomUniform _, [step, like] =>
    if step.rank ≠ 0 then .error (.stepNotScalar step) else .ok (like.withDType .f32)
  | .oneHot depth, [x] =>
    if x.dtype ≠ .i32 then .error (.indicesNotInteger x)
    else .ok ⟨.f32, x.dims ++ [.fixed depth]⟩
  | p, inputs => .error (.operandCount p.name p.arity inputs.length)

end ComponentFlow.Primitive
