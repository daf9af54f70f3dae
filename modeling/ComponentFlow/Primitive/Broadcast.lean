/-
  ComponentFlow.Primitive.Broadcast — right-aligned broadcasting of two lists of axes. An extent
  of one stretches to the other side; a named extent beside a fixed one is taken to be the fixed
  one, which the kernels check when values are known.
-/
import ComponentFlow.Tensor.Mismatch

namespace ComponentFlow

/-- The axis that two axes stretch to. -/
def Dim.broadcast : Dim → Dim → Option Dim
  | .fixed a, .fixed b =>
    if a = 1 then some (.fixed b)
    else if b = 1 then some (.fixed a)
    else if a = b then some (.fixed a)
    else none
  | .fixed a, .named s => if a = 1 then some (.named s) else some (.fixed a)
  | .named s, .fixed b => if b = 1 then some (.named s) else some (.fixed b)
  | .named s, .named _ => some (.named s)

namespace Primitive

/-- Broadcasting from the last axis backwards: both lists start with their last axis. -/
def broadcastReversed : List Dim → List Dim → Option (List Dim)
  | [], bs => some bs
  | a :: as, [] => some (a :: as)
  | a :: as, b :: bs => do
    let d ← a.broadcast b
    let ds ← broadcastReversed as bs
    some (d :: ds)

def broadcastDims (lhs rhs : List Dim) : Except Mismatch (List Dim) :=
  match broadcastReversed lhs.reverse rhs.reverse with
  | some dims => .ok dims.reverse
  | none => .error (.broadcast lhs rhs)

end Primitive

end ComponentFlow
