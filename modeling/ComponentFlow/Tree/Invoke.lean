/-
  ComponentFlow.Tree.Invoke — running methods. A call fills the defaults of its inputs, runs the
  body step by step, branch by branch, and holds the outputs against the contract. A body calls children of its own
  component only, so calls nest no deeper than the tree.
-/
import ComponentFlow.Component.Handler
import ComponentFlow.Tree.Basic

namespace ComponentFlow

/-- What a body sees of the place it runs at. -/
structure Site (σ : Type) where
  scope : String
  component : NodeId
  handler : Handler σ
  /-- Calls a method of a child. -/
  call : (child method : String) → List Value → Effect σ Outputs

namespace Body

variable {σ : Type}

/-- The element type of a value; an absent value counts as an integer. -/
def dtypeOf (v : Value) : DType := (v.spec?.map TensorSpec.dtype).getD .i32

/-- Carries out an operation on its arguments. -/
def perform (site : Site σ) : Operation → List Value → Effect σ Outputs
  | .apply p, args => do return ⟨[], [← site.handler.apply p args]⟩
  | .castLike, args =>
    match args with
    | [v, like] => do return ⟨[], [← site.handler.apply (.cast (dtypeOf like)) [v]]⟩
    | _ => throw (.invalidSpec .badReference)
  | .call child method, args => site.call child method args
  | .fail text, _ =>
    throw (.invalidSpec (.raised text site.scope (NodeId.text site.component)
      site.handler.mode.name))

/-- Runs steps behind those that gave `results`, and gives the results of all. -/
def runSteps (site : Site σ) (inputs : List Value) :
    List Outputs → List Step → Effect σ (List Outputs)
  | results, [] => return results
  | results, s :: rest => do
    let args ← Effect.ofOutcome (s.args.mapM (Frame.resolve ⟨inputs, results⟩))
    let out ← perform site s.operation args
    runSteps site inputs (results ++ [out]) rest

/-- The values that a body returns behind steps that gave `results`. -/
def runFrom (site : Site σ) (inputs : List Value) :
    List Outputs → Body → Effect σ (List Value)
  | results, .straight steps returns => do
    let results ← runSteps site inputs results steps
    Effect.ofOutcome (returns.mapM (Frame.resolve ⟨inputs, results⟩))
  | results, .branch steps on absent present => do
    let results ← runSteps site inputs results steps
    let v ← Effect.ofOutcome (Frame.resolve ⟨inputs, results⟩ on)
    if v.isAbsent then runFrom site inputs results absent
    else runFrom site inputs results present

/-- The values that a body returns for these inputs. -/
def run (site : Site σ) (b : Body) (inputs : List Value) : Effect σ (List Value) :=
  runFrom site inputs [] b

end Body

namespace Tree

/-- The declared method of a node, by which it is called. -/
def method (t : Tree) (id : NodeId) (name : String) : Outcome Method :=
  let scope := t.displayName id
  match t.component? id with
  | none => .error (.unknownComponent scope (NodeId.text id))
  | some component =>
    match component.method? name with
    | some m => .ok m
    | none => .error (.unknownMethod scope name)

/-- Calls a method of the node `id`, with calls nested at most `depth` deep. -/
def invokeWithin {σ : Type} (t : Tree) (d : Handler σ) :
    Nat → NodeId → String → List Value → Effect σ Outputs
  | 0, _, _, _ => throw (.fault .callsTooDeep)
  | depth + 1, id, name, supplied => do
    let scope := t.displayName id
    let m ← Effect.ofOutcome (t.method id name)
    let inputs ← Effect.ofOutcome (m.completeInputs scope supplied)
    let site : Site σ := {
      scope := (t.scope? id).getD ""
      component := id
      handler := d
      call := fun child method args =>
        match t.child? id child with
        | some below => t.invokeWithin d depth below method args
        | none => throw (.unknownComponent ((t.scope? id).getD "") child) }
    let values ← m.body.run site inputs
    Effect.ofOutcome (m.checkOutputs scope (inputs.map Value.spec?) values)
    return Outputs.of m.toSignature values

/-- Calls a method of the node `id`. -/
def invoke {σ : Type} (t : Tree) (d : Handler σ) (id : NodeId) (method : String)
    (inputs : List Value) : Effect σ Outputs :=
  t.invokeWithin d t.size id method inputs

end Tree

end ComponentFlow
