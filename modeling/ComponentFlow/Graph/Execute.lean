/-
  ComponentFlow.Graph.Execute — running an artifact. The nodes that the fetched values depend on
  are found first, along the operands; then these are evaluated, in order, since operands stand before
  the nodes that use them. A graph input that no method uses is fetched from its fed value. A
  position that lies outside the nodes aborts the run.
-/
import ComponentFlow.Graph.Artifact

namespace ComponentFlow

/-- Values for graph inputs by name. -/
abbrev Feeds := List (String × Tensor)

namespace Feeds

/-- Feeds a value; one fed before under the same name is hidden. -/
def insert (f : Feeds) (name : String) (t : Tensor) : Feeds := (name, t) :: f

/-- The value of an input, which the spec must admit. -/
def read (f : Feeds) (name : String) (spec : TensorSpec) : Outcome Tensor :=
  match f.lookup name with
  | none => .error (.missingFeed name)
  | some t =>
    if spec.admits t then .ok t else .error (.feedMismatch name (.spec spec) (.spec t.spec))

end Feeds

/-- Where a fetched value is found. -/
inductive Target where
  | node (value : Nat)
  | fed (t : Tensor)

namespace Target

def node? : Target → Option Nat
  | .node value => some value
  | .fed _ => none

end Target

namespace Artifact

def target (a : Artifact) (feeds : Feeds) (p : Placeholder) : Outcome Target :=
  match a.valueOf? p with
  | some value => .ok (.node value)
  | none =>
    match p.source with
    | .feed name =>
      if p.graph = a.graph then .fed <$> feeds.read name p.spec
      else .error (.feedMismatch name (.inputOf a.graph) (.inputOf p.graph))
    | .output invocation _ =>
      .error (.unresolvedBinding invocation
        (if p.graph = a.graph then .notInArtifact else .foreignGraph p.graph))

/-- The entry at a position that must be there. -/
def entry {α : Type} (xs : Array α) (i : Nat) : Outcome α :=
  match xs[i]? with
  | some x => .ok x
  | none => .error (.fault (.indexOutOfRange xs.size i))

/-! ## Which nodes are needed -/

/-- How many operands the nodes without a mark have between them. -/
def unmarkedOperands : List GraphNode → List Bool → Nat
  | n :: nodes, marked :: marks => (if marked then 0 else n.operands.length) + unmarkedOperands nodes marks
  | _, _ => 0

theorem unmarkedOperands_set {nodes : List GraphNode} {marks : List Bool} {v : Nat} {n : GraphNode}
    (hmark : marks[v]? = some false) (hnode : nodes[v]? = some n) :
    unmarkedOperands nodes (marks.set v true) + n.operands.length = unmarkedOperands nodes marks := by
  induction nodes generalizing marks v with
  | nil => simp at hnode
  | cons m nodes ih =>
    cases marks with
    | nil => simp at hmark
    | cons b marks =>
      cases v with
      | zero =>
        simp only [List.getElem?_cons_zero, Option.some.injEq] at hmark hnode
        subst hmark hnode
        simp only [unmarkedOperands, List.set_cons_zero, if_true, Bool.false_eq_true, if_false]
        omega
      | succ v =>
        rw [List.getElem?_cons_succ] at hmark hnode
        have hrest := ih hmark hnode
        simp only [unmarkedOperands, List.set_cons_succ]
        omega

/-- Puts these on a stack, the last one on top. -/
def pushAll (values stack : List Nat) : List Nat := values.reverse ++ stack

/-- Marks the nodes on a stack, and puts the operands of each that had no mark on top. -/
def markFrom (a : Artifact) (marks : Array Bool) (stack : List Nat) : Outcome (Array Bool) :=
  match stack with
  | [] => .ok marks
  | v :: stack =>
    match _hmark : marks[v]?, _hnode : a.nodes[v]? with
    | some true, _ => a.markFrom marks stack
    | some false, some n => a.markFrom (marks.setIfInBounds v true) (pushAll n.operands stack)
    | _, _ => .error (.fault (.indexOutOfRange a.nodes.size v))
termination_by stack.length + unmarkedOperands a.nodes.toList marks.toList
decreasing_by
  · simp only [List.length_cons]
    omega
  · have hset := unmarkedOperands_set (Array.getElem?_toList ▸ _hmark) (Array.getElem?_toList ▸ _hnode)
    simp only [pushAll, List.length_append, List.length_reverse, List.length_cons, Array.toList_setIfInBounds]
    omega

/-- Marks these nodes and those that they depend on. -/
def needed (a : Artifact) (values : List Nat) : Outcome (Array Bool) :=
  a.markFrom (Array.replicate a.nodes.size false) (pushAll values [])

/-! ## Evaluation -/

/-- The value of an operand of the node at `index`. -/
def operandValue (values : Array (Option Tensor)) (index operand : Nat) : Outcome Tensor := do
  match ← entry values operand with
  | some t => .ok t
  | none => .error (.kernel (.missingOperand operand index))

/-- The value of the node at `index`, given those before it. -/
def nodeValue (k : Kernels) (feeds : Feeds) (values : Array (Option Tensor)) (index : Nat)
    (n : GraphNode) : Effect Tally Tensor :=
  match n.op with
  | .constant t => return t
  | .feed name => Effect.ofOutcome (feeds.read name n.spec)
  | .primitive p => do
    let operands ← Effect.ofOutcome (n.operands.mapM (operandValue values index))
    k.evaluate p n.spec operands

/-- Evaluates the marked ones of the nodes from `index` on. -/
def evaluate (k : Kernels) (feeds : Feeds) (marks : Array Bool) :
    Nat → List GraphNode → Array (Option Tensor) → Effect Tally (Array (Option Tensor))
  | _, [], values => return values
  | index, n :: rest, values => do
    if ← Effect.ofOutcome (entry marks index) then
      let t ← nodeValue k feeds values index n
      evaluate k feeds marks (index + 1) rest (values.setIfInBounds index (some t))
    else evaluate k feeds marks (index + 1) rest values

/-- The values of the marked nodes. -/
def evaluateAll (a : Artifact) (feeds : Feeds) (marks : Array Bool) : Effect Tally (Array (Option Tensor)) :=
  evaluate a.kernels feeds marks 0 a.nodes.toList (Array.replicate a.nodes.size none)

def fetched (values : Array (Option Tensor)) : Target → Outcome Tensor
  | .fed t => .ok t
  | .node value => do
    match ← entry values value with
    | some t => .ok t
    | none => .error (.kernel (.missingValue value))

/-- The values of the fetched placeholders, in order. -/
def execute (a : Artifact) (fetches : List Placeholder) (feeds : Feeds) :
    Effect Tally (List Tensor) := do
  let targets ← Effect.ofOutcome (fetches.mapM (a.target feeds))
  let marks ← Effect.ofOutcome (a.needed (targets.filterMap Target.node?))
  let values ← a.evaluateAll feeds marks
  Effect.ofOutcome (targets.mapM (fetched values))

end Artifact

end ComponentFlow
