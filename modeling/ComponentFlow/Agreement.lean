/-
  ComponentFlow.Agreement — one call of a method of the root, in each mode on a fresh graph: run at
  once on values, or recorded on declared inputs, built, and executed on the same values. The
  results can then be compared. An error says at which stage the run failed.
-/
import ComponentFlow.Graph.Basic

namespace ComponentFlow

/-- An input of the call: as what it is declared, and its value. -/
structure CallInput where
  name : String
  spec : TensorSpec
  value : Tensor

inductive Stage where
  | assembling
  | declaring (input : String)
  | recording (method : String)
  | building (method : String)
  | executing (method : String)
  | running (method : String)
  deriving DecidableEq, Repr

structure StageError where
  stage : Stage
  cause : GraphError

namespace StageError

/-- An error of assembling in the form of diagnostics. -/
def assemblyText : GraphError → String
  | .nameConflict parent name =>
    "NameConflict \x7b parent: " ++ Text.quoted parent ++ ", name: " ++ Text.quoted name ++ " \x7d"
  | .invalidName name reason =>
    "InvalidName \x7b name: " ++ Text.quoted name ++ ", reason: " ++ Text.quoted reason.message
      ++ " \x7d"
  | e => e.message

/-- The message; that of an aborted operation does not name the stage. -/
def message (e : StageError) : String :=
  match e.cause with
  | .fault cause => cause.message
  | cause =>
    match e.stage with
    | .assembling => s!"component tree assembles: {assemblyText cause}"
    | .declaring input => s!"declaring '{input}' failed: {cause.message}"
    | .recording method => s!"recording '{method}' failed: {cause.message}"
    | .building method => s!"building '{method}' failed: {cause.message}"
    | .executing method => s!"executing '{method}' failed: {cause.message}"
    | .running method => s!"immediate '{method}' failed: {cause.message}"

end StageError

namespace Agreement

abbrev Run (α : Type) := ExceptT StageError (StateM Graph) α

/-- An operation as one stage of a run. -/
def stage {α : Type} (s : Stage) (op : Effect Graph α) : Run α :=
  ExceptT.mk fun g =>
    match op.runOn g with
    | (r, g) => (r.mapError fun cause => ⟨s, cause⟩, g)

/-- A run on a fresh graph over the tree of an assembly. -/
def onFresh {α : Type} (root : Assembly) (backend : Backend) (run : Run α) : Except StageError α :=
  match Tree.ofAssembly root with
  | .error cause => .error ⟨.assembling, cause⟩
  | .ok tree => ((ExceptT.run run).run { id := 1, tree, backend }).1

/-- The outputs of calling `method` at once. -/
def runImmediate (root : Assembly) (kernels : Kernels) (method : String) (inputs : List CallInput) :
    Except StageError (List (Option Tensor)) :=
  onFresh root ⟨.immediate, kernels⟩ <|
    stage (.running method) (Graph.callOnTensors Tree.root method (inputs.map CallInput.value))

/-- Puts fetched tensors where placeholders are. -/
def distribute : List Value → List Tensor → List (Option Tensor)
  | [], _ => []
  | .placeholder _ :: rest, t :: ts => some t :: distribute rest ts
  | _ :: rest, ts => none :: distribute rest ts

def declareInput (input : CallInput) : Run Value :=
  stage (.declaring input.name) (.placeholder <$> Graph.input input.name input.spec)

/-- The outputs of recording `method`, building and executing. -/
def runCompiled (root : Assembly) (kernels : Kernels) (method : String) (inputs : List CallInput) :
    Except StageError (List (Option Tensor)) :=
  onFresh root ⟨.symbolic, kernels⟩ do
    let args ← inputs.mapM declareInput
    let outputs ← stage (.recording method) (Graph.call Tree.root method args)
    discard (stage (.building method) Graph.build)
    let feeds : Feeds := inputs.foldl (fun f input => Feeds.insert f input.name input.value) []
    let fetches := outputs.values.filterMap Value.placeholder?
    let fetched ← stage (.executing method) (Graph.execute fetches feeds)
    return distribute outputs.values fetched

end Agreement

end ComponentFlow
