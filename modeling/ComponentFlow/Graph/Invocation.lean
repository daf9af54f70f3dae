/-
  ComponentFlow.Graph.Invocation — calls of methods, recorded until the next build. An invocation
  says where each input comes from and which placeholders were handed out for the outputs. The
  recorder numbers invocations, keeps those not yet built, and remembers which of them a call of
  the same method with the same inputs may share.
-/
import ComponentFlow.Tree.Basic
import ComponentFlow.Value

namespace ComponentFlow

/-- Where an input of a recorded invocation comes from. -/
inductive Binding where
  /-- A tensor known when the call is recorded. -/
  | literal (t : Tensor)
  /-- A named input of the graph. -/
  | feed (name : String)
  /-- An output of another invocation. -/
  | output (invocation index : Nat)
  | absent

namespace Binding

def text : Binding → String
  | .literal t => s!"literal {t.spec.text}"
  | .feed name => s!"feed '{name}'"
  | .output invocation index => s!"#{invocation}.{index}"
  | .absent => "absent"

/-- Bindings that cannot be told apart. -/
def identical : Binding → Binding → Bool
  | .literal a, .literal b => a.identical b
  | .feed a, .feed b => a == b
  | .output i j, .output k l => i == k && j == l
  | .absent, .absent => true
  | _, _ => false

def allIdentical : List Binding → List Binding → Bool
  | [], [] => true
  | a :: as, b :: bs => a.identical b && allIdentical as bs
  | _, _ => false

/-- The binding of a value passed to invocation `next` of a graph. -/
def ofValue (graph next : Nat) : Value → Outcome Binding
  | .tensor t => .ok (.literal t)
  | .absent => .ok .absent
  | .placeholder p =>
    if p.graph ≠ graph then .error (.unresolvedBinding next (.otherGraph p.text))
    else match p.source with
      | .feed name => .ok (.feed name)
      | .output invocation index => .ok (.output invocation index)
  | .symbol s => .error (.unresolvedBinding next (.escapedSymbol s.value))

end Binding

/-- A recorded call of a method. -/
structure Invocation where
  id : Nat
  component : NodeId
  /-- The scope of the component. -/
  scope : String
  method : String
  inputs : List Binding
  /-- What was handed out for each output; nothing for absent ones. -/
  outputs : List (Option Placeholder)

namespace Invocation

/-- Whether a call would record the same invocation but for its number. -/
def repeats (r : Invocation) (component : NodeId) (method : String) (inputs : List Binding) :
    Bool :=
  r.component == component && r.method == method && Binding.allIdentical r.inputs inputs

end Invocation

structure Recorder where
  nextId : Nat := 0
  /-- Invocations that are not built yet, in order. -/
  pending : List Invocation := []
  /-- The declared inputs of the graph, in order. -/
  feeds : List (String × TensorSpec) := []
  /-- The numbers of pending invocations that may be shared, in order. -/
  shared : List Nat := []

namespace Recorder

/-- Declares an input; declaring it again with the same spec changes nothing. -/
def declare (r : Recorder) (name : String) (spec : TensorSpec) : Outcome Recorder :=
  match r.feeds.lookup name with
  | none => .ok { r with feeds := r.feeds ++ [(name, spec)] }
  | some declared =>
    if declared = spec then .ok r
    else .error (.feedMismatch name (.spec declared) (.spec spec))

/-- Where the outputs of an earlier call with identical inputs can be shared, those outputs. -/
def sharedOutputs? (r : Recorder) (component : NodeId) (method : String) (inputs : List Binding) :
    Option (List (Option Placeholder)) :=
  r.shared.findSome? fun id =>
    match r.pending.find? fun earlier => earlier.id == id with
    | some earlier => if earlier.repeats component method inputs then some earlier.outputs else none
    | none => none

/-- The placeholders for outputs of these specs. -/
def allocate (graph invocation : Nat) (specs : List (Option TensorSpec)) :
    List (Option Placeholder) :=
  specs.mapIdx fun index spec =>
    spec.map fun s => { graph, source := .output invocation index, spec := s }

/-- Appends an invocation, and gives the placeholders of its outputs. -/
def push (r : Recorder) (graph : Nat) (component : NodeId) (scope method : String)
    (inputs : List Binding) (specs : List (Option TensorSpec)) (share : Bool) :
    List (Option Placeholder) × Recorder :=
  let outputs := allocate graph r.nextId specs
  (outputs, { r with
    nextId := r.nextId + 1
    pending := r.pending ++ [⟨r.nextId, component, scope, method, inputs, outputs⟩]
    shared := if share then r.shared ++ [r.nextId] else r.shared })

/-- Hands all pending invocations over; none of them is shared any more. -/
def take (r : Recorder) : List Invocation × Recorder :=
  (r.pending, { r with pending := [], shared := [] })

/-- Puts invocations back in front. -/
def restore (r : Recorder) (records : List Invocation) : Recorder :=
  { r with pending := records ++ r.pending }

end Recorder

end ComponentFlow
