/-
  ComponentFlow.Layers.Policy — choosing among discrete actions: a network, an action adapter that
  gives one logit per action, and the probabilities of the logits. Actions are picked greedily.
  Internal states are accepted and ignored, and the last ones are always absent.
-/
import ComponentFlow.Layers.Dense
import ComponentFlow.Layers.Stack

namespace ComponentFlow.Layers

def policyKind : String := "policy"

def networkChild : String := "network"

def adapterChild : String := "action-adapter"

/-- The last extent that a layer's output is known to have. -/
def fixedWidth (layer : Assembly) : Outcome Nat := do
  let rule ← layer.component.leadingRule call
  let width? := match rule with
    | .fixed spec => spec.dims.getLast?.bind Dim.extent?
    | _ => none
  match width? with
  | some width => .ok width
  | none => Outcome.invalid (.noFixedWidth layer.component.kind)

namespace Policy

/-- Features, logits, probabilities and their logarithms. -/
def distributionSteps : List Step :=
  [.call networkChild call [.input 0], .call adapterChild call [.first 0],
    .apply (.softmax 1) [.first 1], .apply (.logSoftmax 1) [.first 1]]

def perAction (numActions : Nat) : OutputRule := .fixed ⟨.f32, [batch, .fixed numActions]⟩

def actionRule : OutputRule := .fixed ⟨.i32, [batch]⟩

def childCalls : List (String × String) := [(networkChild, call), (adapterChild, call)]

def distributionInputs : List InputSlot :=
  [Signature.required "nn_input", Signature.optionalInput "internal_states"]

def distributionOutputs (numActions : Nat) : List OutputSlot :=
  [⟨"logits", perAction numActions⟩, ⟨"parameters", perAction numActions⟩,
    ⟨"log_probs", perAction numActions⟩, ⟨"last_internal_states", .absent⟩]

def getActionMethod (numActions : Nat) : Method where
  name := getAction
  inputs := distributionInputs
  outputs := ⟨"action", actionRule⟩ :: distributionOutputs numActions
  calls := childCalls
  body := .straight (distributionSteps ++ [.apply (.argMax 1) [.first 1]])
    [.first 4, .first 1, .first 2, .first 3, .absent]

def getDistributionMethod (numActions : Nat) : Method where
  name := getDistribution
  inputs := distributionInputs
  outputs := distributionOutputs numActions
  memoized := true
  calls := childCalls
  body := .straight distributionSteps [.first 1, .first 2, .first 3, .absent]

def pickActionMethod : Method where
  name := pickAction
  inputs := [Signature.required "logits", Signature.required "parameters"]
  outputs := [⟨"action", actionRule⟩]
  body := .straight [.apply (.argMax 1) [.input 0]] [.first 0]

def component (numActions : Nat) : Component where
  kind := policyKind
  config := .object [("num_actions", .int numActions)]
  methods := [getActionMethod numActions, getDistributionMethod numActions, pickActionMethod]
  detail := .policy numActions

/-- The policy with this adapter, whose output width is the number of actions. -/
def withAdapter (network adapter : Assembly) : Outcome Assembly := do
  Capability.layer.check network.component
  Capability.layer.check adapter.component
  let numActions ← fixedWidth adapter
  return .mk policyKind (component numActions)
    [network.renamed networkChild, adapter.renamed adapterChild]

/-- An adapter with drawn weights on top of `width` features. -/
def freshAdapter (width numActions : Nat) (seed : UInt64)
    (generator : Random.Generator := Random.seeded) : Assembly :=
  .leaf adapterChild (dense { inFeatures := width, units := numActions, seed } generator)

/-- The policy with a fresh adapter on top of a network of known output width. -/
def ofNetwork (network : Assembly) (numActions : Nat) (seed : UInt64)
    (generator : Random.Generator := Random.seeded) : Outcome Assembly := do
  withAdapter network (freshAdapter (← fixedWidth network) numActions seed generator)

/-- The width of the features: that of the network, or else the argument for it. -/
def featureWidth (args : Arguments) (network : Assembly) : Outcome Nat :=
  match fixedWidth network with
  | .ok width => .ok width
  | .error cause => do
    match ← args.get "in_features" Json.count with
    | some width => .ok width
    | none => .error cause

def constructor (generator : Random.Generator := Random.seeded) : Constructor where
  tag := policyKind
  build args resolve := do
    let network ← match args.raw? "network" with
      | some v => resolveStack .network resolve (.json v)
      | none => stack .network []
    match args.raw? "action_adapter" with
    | some v => withAdapter network (← resolveStack .network resolve (.json v))
    | none =>
      let numActions ← args.require "num_actions" Json.count
      let seed ← args.getOr "seed" Json.word64 0
      let width ← featureWidth args network
      withAdapter network (freshAdapter width numActions seed generator)

end Policy

end ComponentFlow.Layers
