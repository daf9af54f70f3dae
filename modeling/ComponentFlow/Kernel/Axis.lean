/-
  ComponentFlow.Kernel.Axis — operations along one axis. Fixing the coordinates of all other axes
  leaves a lane; each kernel is a function of the lanes.
-/
import ComponentFlow.Kernel.Basic

namespace ComponentFlow

namespace ReduceOp

/-- Folds a lane from its first element on. -/
def fold (op : ReduceOp) (lane : List Float32) : Float32 :=
  match op with
  | .sum => Scalar.sum lane
  | .mean => Scalar.sum lane / Scalar.ofNat (Nat.max lane.length 1)
  | .max => lane.foldl Scalar.maximum Scalar.negInfinity
  | .min => lane.foldl Scalar.minimum Scalar.infinity

end ReduceOp

namespace Kernel

/-- The element counts before, along and behind an axis. -/
structure Split where
  outer : Nat
  extent : Nat
  inner : Nat
  deriving DecidableEq, Repr

/-- The counts around an axis, which must be one of those there are. -/
def Split.ofAxis (dims : List Nat) (axis : Nat) : Result Split :=
  match dims[axis]? with
  | some extent =>
    .ok ⟨Shape.product (dims.take axis), extent, Shape.product (dims.drop (axis + 1))⟩
  | none => .error (.fault (.indexOutOfRange dims.length axis))

/-- The flat index of the element at `k` along the axis. -/
def Split.index (s : Split) (o k i : Nat) : Nat := (o * s.extent + k) * s.inner + i

/-- The elements at places `o` before and `i` behind the axis, in order along it. -/
def lane (t : Tensor) (s : Split) (o i : Nat) : Result (List Float32) :=
  (List.range s.extent).mapM fun k => read t (s.index o k i)

/-- One result per lane. -/
def eachLane (t : Tensor) (axis : Nat) (f : List Float32 → Float32) :
    Result (Array Float32) := do
  let s ← Split.ofAxis t.shape.dims axis
  tabulate2 s.outer s.inner fun o i => f <$> lane t s o i

def reduce (t : Tensor) (op : ReduceOp) : Option Nat → Result (Array Float32)
  | none => .ok #[op.fold t.data.toList]
  | some axis => eachLane t axis op.fold

/-- The place of the first element larger than all before it and than `top`, where `best` is the
place of `top` and `k` the place of the next element. -/
def firstLargest (best : Nat) (top : Float32) (k : Nat) : List Float32 → Nat
  | [] => best
  | x :: rest =>
    if x > top then firstLargest k x (k + 1) rest else firstLargest best top (k + 1) rest

def argMaxOf (lane : List Float32) : Float32 :=
  Scalar.ofNat (firstLargest 0 Scalar.negInfinity 0 lane)

def argMax (t : Tensor) (axis : Nat) : Result (Array Float32) := eachLane t axis argMaxOf

/-- The normalised exponential, or its logarithm, of `x` within its lane. -/
def softmaxOf (log : Bool) (lane : List Float32) (x : Float32) : Float32 :=
  let top := lane.foldl Scalar.maximum Scalar.negInfinity
  let total := Scalar.sum (lane.map fun y => (y - top).exp)
  let shifted := x - top
  if log then shifted - total.log else shifted.exp / total

def softmax (t : Tensor) (axis : Nat) (log : Bool) : Result (Array Float32) := do
  let s ← Split.ofAxis t.shape.dims axis
  (fun rows => rows.flatten.toArray) <$>
    (List.range s.outer).mapM fun o => do
      let lanes ← (List.range s.inner).mapM fun i => lane t s o i
      let steps ← (List.range s.extent).mapM fun k =>
        lanes.zipIdx.mapM fun (l, i) => softmaxOf log l <$> read t (s.index o k i)
      .ok steps.flatten

end Kernel

end ComponentFlow
