/-
  ComponentFlow.Effect — operations on a state that can fail. A failure leaves the state as it
  was when it arose: what an operation has changed by then stays changed unless the operation
  itself puts it back.
-/
import ComponentFlow.Error

namespace ComponentFlow

abbrev Effect (σ α : Type) := ExceptT GraphError (StateM σ) α

namespace Effect

variable {σ τ α : Type}

/-- The outcome on a state, and the state after it. -/
def runOn (op : Effect σ α) (s : σ) : Outcome α × σ := StateT.run (ExceptT.run op) s

/-- The operation with that outcome and following state. -/
def ofRun (f : σ → Outcome α × σ) : Effect σ α := ExceptT.mk fun s => f s

/-- An outcome that does not depend on the state. -/
def ofOutcome (r : Outcome α) : Effect σ α := ofRun fun s => (r, s)

/-- An outcome that depends on the state and leaves it. -/
def reading (f : σ → Outcome α) : Effect σ α := ofRun fun s => (f s, s)

/-- An operation on a part of the state. -/
def within (get : τ → σ) (set : σ → τ → τ) (op : Effect σ α) : Effect τ α :=
  ofRun fun t =>
    match op.runOn (get t) with
    | (r, s) => (r, set s t)

end Effect

end ComponentFlow
