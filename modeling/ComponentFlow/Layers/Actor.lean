/-
  ComponentFlow.Layers.Actor — the way from the state of an environment to an action: a
  preprocessor, a policy and, if there is one, exploration on top. Without exploration the time
  step and the flag are accepted and ignored.
-/
import ComponentFlow.Layers.Stack

namespace ComponentFlow.Layers.Actor

def kind : String := "actor-component"

def preprocessorChild : String := "preprocessor"

def policyChild : String := "policy"

def explorationChild : String := "exploration"

/-- The contract of a named output, which must not depend on inputs. -/
def fixedRule (c : Component) (method output : String) : Outcome OutputRule := do
  let some m := c.method? method | throw (.unknownMethod c.kind method)
  let some slot := m.outputs.find? fun slot => slot.name == output
    | Outcome.invalid (.noNamedOutput c.kind method output)
  match slot.rule with
  | .fixed spec => .ok (.fixed spec)
  | .absent => .ok .absent
  | other => Outcome.invalid (.outputNotFixed c.kind method output other.text)

/-- The contracts that an actor passes on from its parts. -/
structure Contract where
  preprocessed : OutputRule
  action : OutputRule
  probabilities : OutputRule
  internal : OutputRule

def contractOf (preprocessor policy : Component) : Outcome Contract := do
  let preprocessed ← preprocessor.leadingRule preprocess
  let action ← fixedRule policy getAction "action"
  let probabilities ← fixedRule policy getDistribution "parameters"
  let internal ← fixedRule policy getAction "last_internal_states"
  return { preprocessed, action, probabilities, internal }

/-- States, internal states, the time step and whether to explore. -/
def inputs : List InputSlot :=
  [Signature.required "states", Signature.optionalInput "internal_states",
    Signature.inputOr "time_step" (Tensor.scalarInt 0),
    Signature.inputOr "use_exploration" (Tensor.scalarBool true)]

def calls (explores : Bool) (policyMethods : List String) : List (String × String) :=
  (preprocessorChild, preprocess) ::
    (if explores then [(explorationChild, getAction)] else [])
      ++ policyMethods.map fun m => (policyChild, m)

/-- The steps that end an actor's method whose earlier steps chose `action`: exploration, if there
is one. With them comes the reference to the final action. -/
def exploring (explores : Bool) (earlier : Nat) (action : Ref) : List Step × Ref :=
  if explores then
    ([.call explorationChild getAction [action, .input 2, .input 3]], .first earlier)
  else ([], action)

def actGreedilyMethod (explores : Bool) (c : Contract) : Method where
  name := actGreedily
  inputs := inputs
  outputs := [⟨"preprocessed_state", c.preprocessed⟩, ⟨"action", c.action⟩,
    ⟨"last_internal_states", c.internal⟩]
  calls := calls explores [getAction]
  body :=
    let (explore, action) := exploring explores 2 (.named 1 "action")
    .straight ([.call preprocessorChild preprocess [.input 0],
      .call policyChild getAction [.first 0, .input 1]] ++ explore)
      [.first 0, action, .named 1 "last_internal_states"]

def actWithProbabilitiesMethod (explores : Bool) (c : Contract) : Method where
  name := actWithProbabilities
  inputs := inputs
  outputs := [⟨"preprocessed_state", c.preprocessed⟩, ⟨"action", c.action⟩,
    ⟨"action_probs", c.probabilities⟩, ⟨"last_internal_states", c.internal⟩]
  calls := calls explores [getDistribution, pickAction]
  body :=
    let (explore, action) := exploring explores 3 (.named 2 "action")
    .straight ([.call preprocessorChild preprocess [.input 0],
      .call policyChild getDistribution [.first 0, .input 1],
      .call policyChild pickAction [.named 1 "logits", .named 1 "parameters"]] ++ explore)
      [.first 0, action, .named 1 "parameters", .named 1 "last_internal_states"]

def component (explores : Bool) (c : Contract) : Component where
  kind := kind
  config := .object [("exploration", .bool explores)]
  methods := [actGreedilyMethod explores c, actWithProbabilitiesMethod explores c]

/-- Composes an actor from its parts. -/
def ofParts (preprocessor policy : Assembly) (exploration : Option Assembly) :
    Outcome Assembly := do
  Capability.preprocessor.check preprocessor.component
  Capability.policy.check policy.component
  if let some e := exploration then Capability.exploration.check e.component
  let contract ← contractOf preprocessor.component policy.component
  return .mk kind (component exploration.isSome contract)
    ([preprocessor.renamed preprocessorChild, policy.renamed policyChild]
      ++ exploration.toList.map (·.renamed explorationChild))

/-- Composes an actor from sources of its parts; the preprocessor may be a list of layers. -/
def ofSources (resolve : Resolver) (preprocessor policy : AssemblySource)
    (exploration : Option AssemblySource) : Outcome Assembly := do
  let preprocessor ← resolveStack .preprocessor resolve preprocessor
  let policy ← resolve policy .policy
  let exploration ← exploration.mapM fun source => resolve source .exploration
  ofParts preprocessor policy exploration

def constructor : Constructor where
  tag := kind
  build args resolve := do
    let preprocessor := (args.raw? "preprocessor_spec").getD (.array [])
    let some policy := args.raw? "policy_spec"
      | Outcome.invalid (.policySpecMissing args.tag)
    let exploration := match args.raw? "exploration_spec" with
      | none | some .null => none
      | some v => some (.json v)
    ofSources resolve (.json preprocessor) (.json policy) exploration

end ComponentFlow.Layers.Actor
