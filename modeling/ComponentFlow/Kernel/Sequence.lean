/-
  ComponentFlow.Kernel.Sequence — operations along the leading axis, read as time: moving every
  step one earlier, and discounted sums taken from the last step to the first.
-/
import ComponentFlow.Kernel.Basic

namespace ComponentFlow.Kernel

/-- The extent of the leading axis, which must be there. -/
def leadingExtent (t : Tensor) : Result Nat :=
  match t.shape.dims with
  | steps :: _ => .ok steps
  | [] => .error (.fault (.indexOutOfRange 0 0))

/-- The number of elements of one step. -/
def rowSize (t : Tensor) (steps : Nat) : Result Nat :=
  if steps = 0 then .error (.fault .divisionByZero) else .ok (t.size / steps)

/-- The payload from element `i` on. -/
def readFrom (t : Tensor) (i : Nat) : Result (Array Float32) :=
  if i ≤ t.size then .ok (t.data.extract i t.size)
  else .error (.fault (.indexOutOfRange t.size i))

def shiftLeft (t : Tensor) (fill : Float32) : Result (Array Float32) := do
  let steps ← leadingExtent t
  if steps = 0 then .ok #[]
  else
    let row ← rowSize t steps
    let later ← readFrom t row
    .ok (later ++ Array.replicate row fill)

/-- The sums of step `t`, where `later` holds those of the next step, or zeros behind the last. A
reset drops what comes later. -/
def discountedStep (x z : Tensor) (discount : Float32) (t row : Nat) (later : List Float32) :
    Result (List Float32) :=
  later.zipIdx.mapM fun (next, j) => do
    let value ← read x (t * row + j)
    let reset ← read z (t * row + j)
    .ok (value + discount * (if reset == 0 then next else 0))

/-- The sums of the last `n` of `steps` steps, earliest first, and those of the first of them. -/
def discountedSteps (x z : Tensor) (discount : Float32) (steps row : Nat) :
    Nat → Result (List (List Float32) × List Float32)
  | 0 => .ok ([], List.replicate row 0)
  | n + 1 => do
    let (rows, later) ← discountedSteps x z discount steps row n
    let current ← discountedStep x z discount (steps - (n + 1)) row later
    .ok (current :: rows, current)

def discountedSum (x z : Tensor) (discount : Float32) : Result (Array Float32) :=
  if x.shape ≠ z.shape then .error (.resetShape z.shape x.shape)
  else do
    let steps ← leadingExtent x
    if steps = 0 then .ok #[]
    else
      let row ← rowSize x steps
      let (rows, _) ← discountedSteps x z discount steps row steps
      .ok rows.flatten.toArray

end ComponentFlow.Kernel
