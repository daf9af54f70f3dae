/-
  ComponentFlow.Layers.Advantage — generalised advantage estimation over sequences laid out back to
  back. A terminal ends an episode, an index marks the end of a fragment; a fragment that ends
  without a terminal goes on from its own baseline value.
-/
import ComponentFlow.Layers.Exploration

namespace ComponentFlow.Layers.Advantage

def kind : String := "generalized-advantage-estimation"

structure Config where
  discount : Float32 := 0.99
  lambda : Float32 := 1

namespace Config

def ofFields (fields : Json.Fields) : Except Json.ReadError Config := do
  Json.checkFields
    [("discount", Json.checked Json.single), ("gae_lambda", Json.checked Json.single)] fields
  let standard : Config := {}
  return {
    discount := ← Json.withDefault fields "discount" Json.single standard.discount
    lambda := ← Json.withDefault fields "gae_lambda" Json.single standard.lambda }

def toJson (c : Config) : Json :=
  .object [("discount", Json.ofSingle c.discount), ("gae_lambda", Json.ofSingle c.lambda)]

end Config

/-- Inputs are baseline values, rewards, terminals and ends of fragments. Step 4 marks every end,
step 11 is the value of the next state, step 14 the one-step error, step 15 its discounted sum. -/
def body (c : Config) : Body :=
  .straight [
    .apply (.cast .f32) [.input 0],
    .apply (.cast .f32) [.input 1],
    .apply (.cast .f32) [.input 2],
    .apply (.cast .f32) [.input 3],
    .apply (.binary .maximum) [.first 2, .first 3],
    .apply (.shiftLeft 0) [.first 0],
    .apply (.binary .sub) [.scalar 1, .first 4],
    .apply (.binary .mul) [.first 5, .first 6],
    .apply (.binary .sub) [.scalar 1, .first 2],
    .apply (.binary .mul) [.first 0, .first 3],
    .apply (.binary .mul) [.first 9, .first 8],
    .apply (.binary .add) [.first 7, .first 10],
    .apply (.binary .mul) [.first 11, .scalar c.discount],
    .apply (.binary .add) [.first 1, .first 12],
    .apply (.binary .sub) [.first 13, .first 0],
    .apply (.discountedSum (c.discount * c.lambda)) [.first 14, .first 4],
    .apply .stopGradient [.first 15]]
    [.first 16]

def method (c : Config) : Method where
  name := calcAdvantages
  inputs := ["baseline_values", "rewards", "terminals", "sequence_indices"].map Signature.required
  outputs := [⟨"advantages", .likeInputAs 1 .f32⟩]
  body := body c

/-- The component for factors between zero and one. -/
def ofConfig (c : Config) : Outcome Component :=
  if !Exploration.isProbability c.discount || !Exploration.isProbability c.lambda then
    Outcome.invalid (.discountRange c.discount c.lambda)
  else .ok { kind, config := c.toJson, methods := [method c] }

def constructor : Constructor where
  tag := kind
  build args _ := do return .leaf kind (← ofConfig (← args.parse Config.ofFields))

end ComponentFlow.Layers.Advantage
