/-
  ComponentFlow.Graph.Artifact — the result of a build: nodes, and for each invocation the nodes
  behind its inputs and outputs. An artifact is never changed; a later build extends it to a new
  one.
-/
import ComponentFlow.Graph.Plan

namespace ComponentFlow

/-- The nodes behind the inputs and outputs of a resolved invocation; absent ones have none. -/
structure Wiring where
  id : Nat
  scope : String
  method : String
  inputs : List (Option Nat)
  outputs : List (Option Nat)
  deriving DecidableEq, Repr

structure Artifact where
  /-- The graph it was built for. -/
  graph : Nat
  nodes : Array GraphNode
  /-- The nodes of graph inputs by name. -/
  feeds : List (String × Nat)
  wirings : List Wiring
  kernels : Kernels

namespace Artifact

def wiring? (a : Artifact) (invocation : Nat) : Option Wiring :=
  a.wirings.find? fun w => w.id == invocation

/-- The node behind an output of an invocation. -/
def output? (a : Artifact) (invocation index : Nat) : Option Nat :=
  (a.wiring? invocation).bind fun w => w.outputs[index]?.join

/-- The node that computes a placeholder. -/
def valueOf? (a : Artifact) (p : Placeholder) : Option Nat :=
  if p.graph ≠ a.graph then none
  else match p.source with
    | .feed name => a.feeds.lookup name
    | .output invocation index => a.output? invocation index

/-- The names of the inputs that are read, sorted. -/
def feedNames (a : Artifact) : List String :=
  (a.feeds.map Prod.fst).mergeSort fun x y => decide (x ≤ y)

/-- A text for each node, each followed by a line feed. -/
def listing (a : Artifact) : String :=
  String.join (a.nodes.toList.mapIdx fun i n => n.text i ++ "\n")

/-- The constants with their positions. -/
def constants (a : Artifact) : List (Nat × Tensor) :=
  (a.nodes.toList.mapIdx fun i n => (i, n)).filterMap fun (i, n) =>
    match n.op with
    | .constant t => some (i, t)
    | _ => none

/-- The plan that goes on from this artifact. -/
def extend (a : Artifact) : Plan := { nodes := a.nodes, feeds := a.feeds }

end Artifact

end ComponentFlow
