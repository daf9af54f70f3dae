/-
  ComponentFlow.Component.Handler — what becomes of the primitives that a body applies. A
  handler evaluates them at once, or stages them for later; bodies do not know which.
-/
import ComponentFlow.Kernel.Basic
import ComponentFlow.Value

namespace ComponentFlow

/-- Applies primitives while keeping a state. -/
structure Handler (σ : Type) where
  mode : Mode
  apply : Primitive → List Value → Effect σ Value

namespace Handler

/-- An operand of an evaluation. -/
def operand (p : Primitive) : Value → Outcome Tensor
  | .tensor t => .ok t
  | .placeholder _ | .symbol _ => .error (.modeMismatch .symbolic .immediate)
  | .absent => .error (.shapeMismatch (.absentOperand p.name))

/-- Evaluates every primitive at once. -/
def immediate (k : Kernels) : Handler Tally where
  mode := .immediate
  apply p args := do
    let operands ← Effect.ofOutcome (args.mapM (operand p))
    let expected ← Effect.ofOutcome (Outcome.ofShape (p.infer (operands.map Tensor.spec)))
    return .tensor (← k.evaluate p expected operands)

end Handler

end ComponentFlow
