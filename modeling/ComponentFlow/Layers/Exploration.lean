/-
  ComponentFlow.Layers.Exploration — replacing chosen actions by random ones, element by element,
  with the probability of a schedule. Both draws depend on the seed, the time step and the element
  only, so the same inputs give the same actions on every run.
-/
import ComponentFlow.Layers.Roles
import ComponentFlow.Spec.Constructor

namespace ComponentFlow.Layers.Exploration

def kind : String := "epsilon-exploration"

/-- Sets the draw of the random action apart from the draw that decides whether to explore. -/
def actionStream : UInt64 := 0x5851F42D4C957F2D

/-- Inputs are the action, the time step, and whether to explore at all. -/
def body (s : Schedule) : Body :=
  .straight [
    .apply (.cast .f32) [.input 1],
    .apply (.binary .div) [.first 0, .scalar s.decay],
    .apply (.binary .minimum) [.first 1, .scalar 1],
    .apply (.binary .mul) [.first 2, .scalar (s.first - s.last)],
    .apply (.binary .sub) [.scalar s.first, .first 3],
    .apply (.randomUniform s.seed) [.input 1, .input 0],
    .apply (.compare .less) [.first 5, .first 4],
    .apply .select [.input 2, .first 6, .literal (Tensor.scalarBool false)],
    .apply (.randomUniform (s.seed ^^^ actionStream)) [.input 1, .input 0],
    .apply (.binary .mul) [.first 8, .scalar (Scalar.ofNat s.numActions)],
    ⟨.castLike, [.first 9, .input 0]⟩,
    .apply .select [.first 7, .first 10, .input 0]]
    [.first 11]

def method (s : Schedule) : Method where
  name := getAction
  inputs := [Signature.required "action", Signature.inputOr "time_step" (Tensor.scalarInt 0),
    Signature.inputOr "use_exploration" (Tensor.scalarBool true)]
  outputs := [⟨"action", .likeInput 0⟩]
  body := body s

def isProbability (x : Float32) : Bool := 0 ≤ x && x ≤ 1

/-- The component for a schedule of probabilities over at least one action. -/
def ofSchedule (s : Schedule) : Outcome Component :=
  if s.numActions = 0 then Outcome.invalid .noActions
  else if !isProbability s.first || !isProbability s.last then
    Outcome.invalid (.epsilonRange s.first s.last)
  else .ok { kind, config := s.toJson, methods := [method s], detail := .exploration s }

def constructor : Constructor where
  tag := kind
  build args _ := do
    return .leaf kind (← ofSchedule (← args.parse Schedule.ofFields))

end ComponentFlow.Layers.Exploration
