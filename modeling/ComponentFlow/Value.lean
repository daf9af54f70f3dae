/-
  ComponentFlow.Value — what flows between methods. Immediate calls see only tensors, recorded
  calls hand out placeholders, and a body being compiled works on symbols; an absent value is the
  same in every mode.
-/
import ComponentFlow.Error
import ComponentFlow.Tensor.Basic

namespace ComponentFlow

/-- Where a placeholder's value comes from when the graph runs. -/
inductive Source where
  /-- A named input of the graph. -/
  | feed (name : String)
  /-- An output of a recorded invocation. -/
  | output (invocation index : Nat)
  deriving DecidableEq, Repr

/-- Stands for a value that will exist once the graph is built and executed. -/
structure Placeholder where
  graph : Nat
  source : Source
  spec : TensorSpec
  deriving DecidableEq, Repr

def Placeholder.text (p : Placeholder) : String :=
  match p.source with
  | .feed name => s!"feed '{name}': {p.spec.text}"
  | .output invocation index => s!"#{invocation}.{index}: {p.spec.text}"

/-- A node of the graph being compiled, with its spec. -/
structure Symbol where
  value : Nat
  spec : TensorSpec
  deriving DecidableEq, Repr

inductive Value where
  | tensor (t : Tensor)
  | placeholder (p : Placeholder)
  | symbol (s : Symbol)
  | absent
  deriving Inhabited

namespace Value

/-- The spec of a value that is not absent. -/
def spec? : Value → Option TensorSpec
  | .tensor t => some t.spec
  | .placeholder p => some p.spec
  | .symbol s => some s.spec
  | .absent => none

def isAbsent : Value → Bool
  | .absent => true
  | _ => false

def kindName : Value → String
  | .tensor _ => "tensor"
  | .placeholder _ => "placeholder"
  | .symbol _ => "symbol"
  | .absent => "none"

def placeholder? : Value → Option Placeholder
  | .placeholder p => some p
  | _ => none

def ofPlaceholder? : Option Placeholder → Value
  | some p => .placeholder p
  | none => .absent

def ofSymbol? : Option Symbol → Value
  | some s => .symbol s
  | none => .absent

/-- The tensor, where it must be one. -/
def concrete : Value → Outcome Tensor
  | .tensor t => .ok t
  | v => .error (.shapeMismatch (.notConcrete v.kindName))

end Value

end ComponentFlow
