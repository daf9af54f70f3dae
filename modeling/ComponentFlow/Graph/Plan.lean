/-
  ComponentFlow.Graph.Plan — a graph of values under construction. Nodes are only appended, each
  behind its operands, and the spec of a primitive's node is the one inferred from them. A graph
  input has one node, made when it is first used.
-/
import ComponentFlow.Component.Handler

namespace ComponentFlow

/-- How a node gets its value. -/
inductive NodeOp where
  | constant (t : Tensor)
  | feed (name : String)
  | primitive (p : Primitive)

def NodeOp.name : NodeOp → String
  | .constant _ => "constant"
  | .feed _ => "feed"
  | .primitive p => p.name

structure GraphNode where
  op : NodeOp
  /-- The nodes whose values are used, by position. -/
  operands : List Nat
  spec : TensorSpec

/-- The line of a listing for the node at `index`. -/
def GraphNode.text (n : GraphNode) (index : Nat) : String :=
  let source := match n.op with
    | .feed name => s!" '{name}'"
    | .constant _ => ""
    | .primitive _ => "(" ++ ", ".intercalate (n.operands.map fun i => s!"%{i}") ++ ")"
  s!"%{index} = {n.op.name}" ++ source ++ s!" : {n.spec.text}"

structure Plan where
  nodes : Array GraphNode := #[]
  /-- The nodes of graph inputs by name. -/
  feeds : List (String × Nat) := []
  /-- The invocation that is being resolved. -/
  current : Nat := 0

namespace Plan

def spec? (plan : Plan) (value : Nat) : Option TensorSpec := plan.nodes[value]?.map GraphNode.spec

/-- The node at `value` as a symbol. -/
def symbol? (plan : Plan) (value : Nat) : Option Symbol :=
  (plan.spec? value).map fun s => ⟨value, s⟩

/-- Appends a node. -/
def push (op : NodeOp) (operands : List Nat) (spec : TensorSpec) : Effect Plan Symbol := do
  let value := (← get).nodes.size
  modify fun plan => { plan with nodes := plan.nodes.push ⟨op, operands, spec⟩ }
  return ⟨value, spec⟩

def constant (t : Tensor) : Effect Plan Symbol := push (.constant t) [] t.spec

/-- The node of a graph input. -/
def feed (name : String) (spec : TensorSpec) : Effect Plan Symbol := do
  let plan ← get
  match (plan.feeds.lookup name).bind plan.symbol? with
  | some s => return s
  | none =>
    let s ← push (.feed name) [] spec
    modify fun plan => { plan with feeds := plan.feeds ++ [(name, s.value)] }
    return s

def primitive (p : Primitive) (operands : List Symbol) : Effect Plan Symbol := do
  let spec ← Effect.ofOutcome (Outcome.ofShape (p.infer (operands.map Symbol.spec)))
  push (.primitive p) (operands.map Symbol.value) spec

/-- A value as an operand; a tensor becomes a constant. -/
def operand (p : Primitive) (v : Value) : Effect Plan Symbol := do
  match v with
  | .symbol s => return s
  | .tensor t => constant t
  | .placeholder q => throw (.unresolvedBinding (← get).current (.insideBody q.text))
  | .absent => throw (.shapeMismatch (.absentOperand p.name))

end Plan

/-- Appends a node for every primitive. -/
def Handler.symbolic : Handler Plan where
  mode := .symbolic
  apply p args := do
    let operands ← args.mapM (Plan.operand p)
    return .symbol (← Plan.primitive p operands)

end ComponentFlow
