/-
  ComponentFlow.Kernel.Basic — implementations of the primitives, how they are run, and the checked
  access to payloads that the reference implementation is written in. A read outside a payload, an
  axis that a shape lacks and a division by zero abort the kernel, so that "never out of range" can
  be said of an outcome.
-/
import ComponentFlow.Effect
import ComponentFlow.Kernel.Tally
import ComponentFlow.Primitive.Infer
import ComponentFlow.Tensor.Basic

namespace ComponentFlow

/-- Evaluates primitives on concrete tensors. Kernels may keep a tally of their own of what they are
asked for, which has no influence on what they give. -/
structure Kernels where
  name : String
  /-- One evaluation, with the tally before and after it. -/
  run : Primitive → List Tensor → Tally → Except KernelError Tensor × Tally
  steady : ∀ p operands tally tally', (run p operands tally).1 = (run p operands tally').1

namespace Kernels

/-- Kernels that keep no tally. -/
def plain (name : String) (f : Primitive → List Tensor → Except KernelError Tensor) : Kernels where
  name := name
  run p operands tally := (f p operands, tally)
  steady _ _ _ _ := rfl

/-- What an evaluation gives. -/
def execute (k : Kernels) (p : Primitive) (operands : List Tensor) : Except KernelError Tensor :=
  (k.run p operands []).1

/-- The tally after an evaluation. -/
def noted (k : Kernels) (p : Primitive) (operands : List Tensor) (tally : Tally) : Tally :=
  (k.run p operands tally).2

theorem run_eq (k : Kernels) (p : Primitive) (operands : List Tensor) (tally : Tally) :
    k.run p operands tally = (k.execute p operands, k.noted p operands tally) :=
  Prod.ext (k.steady p operands tally []) rfl

/-- One evaluation, on the tally that these kernels keep. -/
def call (k : Kernels) (p : Primitive) (operands : List Tensor) : Effect Tally Tensor :=
  Effect.ofRun fun tally =>
    match k.run p operands tally with
    | (result, tally) => (Outcome.ofKernel result, tally)

/-- Evaluates a primitive whose result must be admitted by `expected`. -/
def evaluate (k : Kernels) (p : Primitive) (expected : TensorSpec) (operands : List Tensor) :
    Effect Tally Tensor := do
  let out ← k.call p operands
  if !expected.admits out then
    throw (.shapeMismatch (.kernelOutput p.name out.spec expected))
  return out

end Kernels

namespace Kernel

/-- Results of kernels. -/
abbrev Result (α : Type) := Except KernelError α

/-- Element `i` of the payload. -/
def read (t : Tensor) (i : Nat) : Result Float32 :=
  match t.data[i]? with
  | some x => .ok x
  | none => .error (.fault (.indexOutOfRange t.size i))

/-- The payload whose element `i` is `f i`. -/
def tabulate (n : Nat) (f : Nat → Result Float32) : Result (Array Float32) :=
  List.toArray <$> (List.range n).mapM f

/-- The payload that lists `f o i` with `i` moving fastest. -/
def tabulate2 (outer inner : Nat) (f : Nat → Nat → Result Float32) : Result (Array Float32) :=
  (fun rows => rows.flatten.toArray) <$>
    (List.range outer).mapM fun o => (List.range inner).mapM fun i => f o i

end Kernel

end ComponentFlow
