/-
  ComponentFlow.Graph.Resolve — turning recorded invocations into an artifact. Each invocation's
  bindings become symbols, its method runs on them with every primitive appended as a node, and
  what comes out is held against the placeholders that were handed out. A binding may point to any
  earlier invocation, of this build or of the artifact that is extended.
-/
import ComponentFlow.Graph.Artifact
import ComponentFlow.Graph.Invocation
import ComponentFlow.Tree.Invoke

namespace ComponentFlow

/-- What invocations are resolved against. -/
structure Resolution where
  graph : Nat
  tree : Tree
  kernels : Kernels
  /-- The artifact that is extended. -/
  base : Option Artifact
  /-- The declared inputs of the graph. -/
  feeds : List (String × TensorSpec)

/-- The outputs of the invocations that this build has resolved. -/
abbrev Resolved := List (Nat × List (Option Symbol))

namespace Resolution

/-- The symbol behind an output of an invocation before `current`. -/
def output (r : Resolution) (done : Resolved) (current invocation index : Nat) :
    Effect Plan (Option Symbol) := do
  let outOfRange : GraphError := .unresolvedBinding current (.noOutput invocation index)
  match done.lookup invocation with
  | some outputs =>
    match outputs[index]? with
    | some s => return s
    | none => throw outOfRange
  | none =>
    match r.base.bind fun a => a.wiring? invocation with
    | some w =>
      match w.outputs[index]? with
      | some value => return value.bind (← get).symbol?
      | none => throw outOfRange
    | none =>
      throw (.unresolvedBinding current
        (if invocation ≥ current then .notBefore invocation current else .unknown invocation))

/-- The symbol that a binding of invocation `current` stands for. -/
def bind (r : Resolution) (done : Resolved) (current : Nat) : Binding → Effect Plan (Option Symbol)
  | .literal t => some <$> Plan.constant t
  | .feed name =>
    match r.feeds.lookup name with
    | some spec => some <$> Plan.feed name spec
    | none => throw (.unresolvedBinding current (.noInput name))
  | .output invocation index => r.output done current invocation index
  | .absent => return none

/-- Holds the produced output `index` of an invocation against its placeholder. -/
def settle (record : Invocation) (index : Nat) (p : Option Placeholder) (v : Value) :
    Effect Plan (Option Symbol) := do
  let violation : GraphError := .contractViolation record.scope record.method
    (.placeholder index (p.map Placeholder.spec) v.spec? v.kindName)
  match p, v with
  | none, .absent => return none
  | some p, .symbol s => if p.spec.compatible s.spec then return some s else throw violation
  | some p, .tensor t => if p.spec.admits t then some <$> Plan.constant t else throw violation
  | _, _ => throw violation

/-- Settles the outputs from position `index` on. -/
def settleAll (record : Invocation) :
    Nat → List (Option Placeholder) → List Value → Effect Plan (List (Option Symbol))
  | index, p :: ps, v :: vs => do
    let s ← settle record index p v
    return s :: (← settleAll record (index + 1) ps vs)
  | _, _, _ => return []

/-- Resolves one invocation: its wiring and the symbols of its outputs. -/
def resolveOne (r : Resolution) (done : Resolved) (record : Invocation) :
    Effect Plan (Wiring × List (Option Symbol)) := do
  modify fun plan => { plan with current := record.id }
  let inputs ← record.inputs.mapM (r.bind done record.id)
  let produced ← r.tree.invoke .symbolic record.component record.method
    (inputs.map Value.ofSymbol?)
  if produced.values.length ≠ record.outputs.length then
    throw (.contractViolation record.scope record.method
      (.recordedCount record.outputs.length produced.values.length))
  let outputs ← settleAll record 0 record.outputs produced.values
  let wiring := ⟨record.id, record.scope, record.method, inputs.map (·.map Symbol.value),
    outputs.map (·.map Symbol.value)⟩
  return (wiring, outputs)

/-- Resolves invocations in order. -/
def resolveAll (r : Resolution) : Resolved → List Invocation → Effect Plan (List Wiring)
  | _, [] => return []
  | done, record :: rest => do
    let (wiring, outputs) ← r.resolveOne done record
    return wiring :: (← r.resolveAll (done ++ [(record.id, outputs)]) rest)

/-- The plan to start from. -/
def start (r : Resolution) : Plan :=
  match r.base with
  | some a => a.extend
  | none => {}

/-- The artifact that has these invocations on top of the base, and the number of new nodes. -/
def run (r : Resolution) (records : List Invocation) : Outcome (Artifact × Nat) :=
  match (r.resolveAll [] records).runOn r.start with
  | (.error e, _) => .error e
  | (.ok wirings, plan) =>
    let earlier := (r.base.map Artifact.wirings).getD []
    .ok (⟨r.graph, plan.nodes, plan.feeds, earlier ++ wirings, r.kernels⟩,
      plan.nodes.size - r.start.nodes.size)

end Resolution

end ComponentFlow
