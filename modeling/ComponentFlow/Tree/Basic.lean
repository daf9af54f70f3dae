/-
  ComponentFlow.Tree.Basic — component trees. The nodes stand in one sequence and refer to each
  other by position; node 0 is the root. A node that was inserted but not yet attached has no
  parent and no scope. The scope of a node is the names on the way from the root, joined by '/'.
-/
import ComponentFlow.Component.Basic
import ComponentFlow.Text.Split

namespace ComponentFlow

/-- The position of a node in its tree. -/
abbrev NodeId := Nat

def NodeId.text (id : NodeId) : String := s!"c{id}"

/-- How far the building of a node has come; it only moves forward. -/
inductive BuildState where
  | unbuilt
  | building
  | built
  deriving DecidableEq, Repr

namespace BuildState

def rank : BuildState → Nat
  | .unbuilt => 0
  | .building => 1
  | .built => 2

def title : BuildState → String
  | .unbuilt => "Unbuilt"
  | .building => "Building"
  | .built => "Built"

/-- The later of two states. -/
def max (a b : BuildState) : BuildState := if a.rank < b.rank then b else a

end BuildState

structure Node where
  name : String
  parent : Option NodeId
  /-- Children by name, in the order in which they were attached. -/
  children : List (String × NodeId)
  state : BuildState
  component : Component

/-- Adds a child behind the others. -/
def Node.adopt (n : Node) (name : String) (child : NodeId) : Node :=
  { n with children := n.children ++ [(name, child)] }

structure Tree where
  nodes : Array Node
  /-- Refuses further edits. -/
  frozen : Bool

namespace Tree

/-- Stands between the names in a scope. -/
def separator : Char := '/'

def root : NodeId := 0

def size (t : Tree) : Nat := t.nodes.size

def node? (t : Tree) (id : NodeId) : Option Node := t.nodes[id]?

def name? (t : Tree) (id : NodeId) : Option String := (t.node? id).map Node.name

def parent? (t : Tree) (id : NodeId) : Option NodeId := (t.node? id).bind Node.parent

def children (t : Tree) (id : NodeId) : List (String × NodeId) :=
  match t.node? id with
  | some n => n.children
  | none => []

def child? (t : Tree) (id : NodeId) (name : String) : Option NodeId := (t.children id).lookup name

def component? (t : Tree) (id : NodeId) : Option Component := (t.node? id).map Node.component

def state? (t : Tree) (id : NodeId) : Option BuildState := (t.node? id).map Node.state

/-- The state of the root. -/
def state (t : Tree) : BuildState := (t.state? root).getD .unbuilt

def rootName (t : Tree) : String := (t.name? root).getD ""

/-! ## Scopes -/

/-- The scope of a node at most `steps` below the root. -/
def scopeWithin (t : Tree) : Nat → NodeId → Option String
  | 0, id => if id = root then t.name? id else none
  | steps + 1, id =>
    if id = root then t.name? id
    else do
      let n ← t.node? id
      let above ← t.scopeWithin steps (← n.parent)
      some ((above.push separator) ++ n.name)

/-- The scope of a node that hangs together with the root. -/
def scope? (t : Tree) (id : NodeId) : Option String := t.scopeWithin t.size id

/-- The scope, or the bare name of a node that has none. -/
def displayName (t : Tree) (id : NodeId) : String :=
  (t.scope? id).getD ((t.name? id).getD "")

/-- The node that is reached from `id` by following these names. -/
def descend (t : Tree) (id : NodeId) : List (List Char) → Option NodeId
  | [] => some id
  | name :: rest => do t.descend (← t.child? id (String.ofList name)) rest

/-- The node of that scope. -/
def find? (t : Tree) (scope : String) : Option NodeId :=
  match Text.splitAt separator scope.toList with
  | [] => none
  | first :: rest => if String.ofList first = t.rootName then t.descend root rest else none

/-! ## Traversal -/

/-- The nodes below those on the stack, themselves included. -/
def walkFrom (t : Tree) : Nat → List NodeId → List NodeId
  | _, [] => []
  | 0, _ => []
  | steps + 1, id :: stack => id :: t.walkFrom steps ((t.children id).map Prod.snd ++ stack)

/-- The nodes that hang together with the root, each before its children and these in order. -/
def walk (t : Tree) : List NodeId := t.walkFrom t.size [root]

/-- Moves a node forward; a state it has passed changes nothing. -/
def advance (state : BuildState) (t : Tree) (id : NodeId) : Tree :=
  { t with nodes := t.nodes.modify id fun n => { n with state := n.state.max state } }

/-- Moves nodes forward, one after the other. -/
def advanceAll (state : BuildState) (ids : List NodeId) (t : Tree) : Tree :=
  ids.foldl (advance state) t

/-- One node in diagnostics. -/
def nodeText (t : Tree) (id : NodeId) : String :=
  match t.node? id with
  | some n => s!"{t.displayName id} ({n.component.kind}, {n.state.title})"
  | none => ""

/-- The text in diagnostics. -/
def debugText (t : Tree) : String := "[" ++ ", ".intercalate (t.walk.map t.nodeText) ++ "]"

/-- The error for a node that is not there. -/
def unknownNode (t : Tree) (id : NodeId) : GraphError :=
  .unknownComponent t.rootName (NodeId.text id)

end Tree

end ComponentFlow
