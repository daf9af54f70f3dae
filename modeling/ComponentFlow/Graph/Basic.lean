/-
  ComponentFlow.Graph.Basic — a component tree bound to a backend. On the symbolic backend calls are
  recorded and answered with placeholders, a build turns the records into an artifact, and the
  artifact is executed. On the immediate backend calls run at once, after a first build that only
  checks the tree. The first build freezes the tree; when it fails, the graph stays as it is for
  good.
-/
import ComponentFlow.Backend
import ComponentFlow.Graph.Execute
import ComponentFlow.Graph.Resolve
import ComponentFlow.Tree.Edit

namespace ComponentFlow

structure Graph where
  id : Nat
  tree : Tree
  backend : Backend
  recorder : Recorder := {}
  /-- The artifact of the last build that succeeded. -/
  artifact : Option Artifact := none
  /-- The tally that the kernels keep. -/
  tally : Tally := []

/-- What a build did. -/
structure BuildReport where
  backend : Mode
  /-- The components that hang together with the root. -/
  components : Nat
  resolved : Nat
  emitted : Nat
  deriving DecidableEq, Repr

namespace Tree

def freeze (t : Tree) : Tree := { t with frozen := true }

/-- Checks that a declared call of node `id` leads to a method of a child. -/
def checkCall (t : Tree) (id : NodeId) (call : String × String) : Outcome Unit :=
  match t.child? id call.1 with
  | none => .error (.unknownComponent (t.displayName id) call.1)
  | some child =>
    if ((t.component? child).map (·.declares call.2)).getD false then .ok ()
    else .error (.unknownMethod (t.displayName child) call.2)

/-- The calls that the methods of a node declare. -/
def declaredCalls (t : Tree) (id : NodeId) : List (String × String) :=
  ((t.component? id).map fun c => c.methods.flatMap fun m => m.calls).getD []

/-- Checks the declared calls of these nodes, in order. -/
def checkCalls (t : Tree) (ids : List NodeId) : Outcome Unit :=
  ids.forM fun id => (t.declaredCalls id).forM (t.checkCall id)

end Tree

namespace Graph

def state (g : Graph) : BuildState := g.tree.state

def rootScope (g : Graph) : String := g.tree.displayName Tree.root

def requireSymbolic (g : Graph) : Outcome Unit :=
  match g.backend.mode with
  | .symbolic => .ok ()
  | .immediate => .error (.modeMismatch .symbolic .immediate)

/-! ## Parts of the state -/

/-- An edit of the tree. -/
def editing {α : Type} (op : Effect Tree α) : Effect Graph α :=
  op.within Graph.tree fun t g => { g with tree := t }

/-- A run of kernels, on the tally that they keep. -/
def counting {α : Type} (op : Effect Tally α) : Effect Graph α :=
  op.within Graph.tally fun t g => { g with tally := t }

def modifyTree (f : Tree → Tree) : Effect Graph Unit := modify fun g => { g with tree := f g.tree }

def modifyRecorder (f : Recorder → Recorder) : Effect Graph Unit :=
  modify fun g => { g with recorder := f g.recorder }

/-! ## Building -/

/-- Resolves the pending invocations on top of the artifact. Invocations that cannot be resolved are
pending again; they are lost only when the build is aborted. -/
def resolvePending : Effect Graph (Nat × Nat) := do
  let (records, recorder) := (← get).recorder.take
  modifyRecorder fun _ => recorder
  let g ← get
  match (Resolution.mk g.id g.tree g.backend.kernels g.artifact recorder.feeds).run records with
  | .ok (artifact, emitted) =>
    modify fun g => { g with artifact := some artifact }
    return (records.length, emitted)
  | .error (.fault cause) => throw (.fault cause)
  | .error e =>
    modifyRecorder (·.restore records)
    throw e

/-- Whether a build has invocations to resolve, or a first artifact to make. -/
def mustResolve (g : Graph) : Bool :=
  g.backend.mode == .symbolic && (g.artifact.isNone || !g.recorder.pending.isEmpty)

/-- Builds what was recorded since the last build. -/
def build : Effect Graph BuildReport := do
  let g ← get
  if g.state = .building then
    throw (.reentrantBuild g.rootScope)
  let order := g.tree.walk
  if g.state = .unbuilt then
    modifyTree fun t => (t.advanceAll .building order).freeze
    Effect.ofOutcome (g.tree.checkCalls order)
  let (resolved, emitted) ← if g.mustResolve then resolvePending else pure (0, 0)
  if g.state = .unbuilt then
    modifyTree (·.advanceAll .built order.reverse)
  return ⟨g.backend.mode, order.length, resolved, emitted⟩

/-! ## Calls -/

/-- Declares a named input. -/
def input (name : String) (spec : TensorSpec) : Effect Graph Placeholder := do
  Effect.reading requireSymbolic
  let g ← get
  let recorder ← Effect.ofOutcome (g.recorder.declare name spec)
  modifyRecorder fun _ => recorder
  return ⟨g.id, .feed name, spec⟩

/-- The scope and the declaration of a method of a node that hangs together with the root. -/
def declaredMethod (g : Graph) (id : NodeId) (name : String) : Outcome (String × Signature) :=
  match g.tree.scope? id with
  | none => .error (.unknownComponent g.rootScope ((g.tree.name? id).getD (NodeId.text id)))
  | some scope => do
    let m ← g.tree.method id name
    return (scope, m.toSignature)

/-- Whether a call of a method may be recorded now. -/
def checkRecordable (g : Graph) (scope : String) (m : Signature) : Outcome Unit :=
  match g.state with
  | .building => .error (.reentrantBuild g.rootScope)
  | .built => if m.postBuild then .ok () else .error (.postBuildInvocation scope m.name)
  | .unbuilt => .ok ()

/-- Appends an invocation. -/
def record (id : NodeId) (scope method : String) (inputs : List Binding)
    (specs : List (Option TensorSpec)) (share : Bool) :
    Effect Graph (List (Option Placeholder)) := do
  let g ← get
  let (outputs, recorder) := g.recorder.push g.id id scope method inputs specs share
  modifyRecorder fun _ => recorder
  return outputs

/-- The placeholders of a call as its outputs. -/
def placeholders (m : Signature) (outputs : List (Option Placeholder)) : Outputs :=
  .of m (outputs.map Value.ofPlaceholder?)

/-- Records a call, or shares an earlier one. -/
def recordCall (id : NodeId) (scope : String) (m : Signature) (supplied : List Value) :
    Effect Graph Outputs := do
  let g ← get
  Effect.ofOutcome (g.checkRecordable scope m)
  let inputs ← Effect.ofOutcome (m.completeInputs scope supplied)
  let specs ← Effect.ofOutcome (m.inferOutputs (inputs.map Value.spec?))
  let bindings ← Effect.ofOutcome (inputs.mapM (Binding.ofValue g.id g.recorder.nextId))
  match if m.memoized then g.recorder.sharedOutputs? id m.name bindings else none with
  | some outputs => return placeholders m outputs
  | none => return placeholders m (← record id scope m.name bindings specs m.memoized)

def isRecorded : Value → Bool
  | .placeholder _ | .symbol _ => true
  | _ => false

/-- Runs a call at once. -/
def callNow (id : NodeId) (method : String) (inputs : List Value) : Effect Graph Outputs := do
  let g ← get
  match g.state with
  | .building => throw (.reentrantBuild g.rootScope)
  | .unbuilt => discard build
  | .built => pure ()
  if inputs.any isRecorded then
    throw (.modeMismatch .symbolic .immediate)
  let g ← get
  counting (g.tree.invoke (.immediate g.backend.kernels) id method inputs)

/-- Calls a method of a node. -/
def call (id : NodeId) (method : String) (inputs : List Value) : Effect Graph Outputs := do
  let (scope, m) ← Effect.reading (declaredMethod · id method)
  match (← get).backend.mode with
  | .immediate => callNow id method inputs
  | .symbolic => recordCall id scope m inputs

/-- Calls a method of the node of that scope. -/
def callAt (scope method : String) (inputs : List Value) : Effect Graph Outputs := do
  let g ← get
  match g.tree.find? scope with
  | some id => call id method inputs
  | none => throw (.unknownComponent g.rootScope scope)

def optionalTensor : Value → Outcome (Option Tensor)
  | .absent => .ok none
  | v => some <$> v.concrete

/-- Calls a method with tensors for tensors. -/
def callOnTensors (id : NodeId) (method : String) (inputs : List Tensor) :
    Effect Graph (List (Option Tensor)) := do
  let outputs ← call id method (inputs.map .tensor)
  Effect.ofOutcome (outputs.values.mapM optionalTensor)

/-- Appends an invocation with bindings and output specs as they are given. -/
def recordWith (id : NodeId) (method : String) (inputs : List Binding)
    (specs : List (Option TensorSpec)) : Effect Graph (List (Option Placeholder)) := do
  Effect.reading requireSymbolic
  let (scope, m) ← Effect.reading (declaredMethod · id method)
  Effect.reading (checkRecordable · scope m)
  if inputs.length ≠ m.inputs.length then
    throw (.arityMismatch scope method m.inputs.length inputs.length)
  if specs.length ≠ m.outputs.length then
    throw (.contractViolation scope method (.specCount m.outputs.length specs.length))
  record id scope method inputs specs false

/-- Runs the artifact. -/
def execute (fetches : List Placeholder) (feeds : Feeds) : Effect Graph (List Tensor) := do
  Effect.reading requireSymbolic
  let g ← get
  match g.artifact with
  | some a => counting (a.execute fetches feeds)
  | none => throw (.notBuilt g.rootScope)

end Graph

end ComponentFlow
