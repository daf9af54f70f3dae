/-
  ComponentFlow.Tree.Edit — assembling trees. Names are checked over a whole assembly before any
  of it is placed, and a link is checked before it is made, so that an edit that fails has changed
  nothing. A node can be attached once, and not below itself.
-/
import ComponentFlow.Effect
import ComponentFlow.Tree.Basic

namespace ComponentFlow.Tree

/-! ## Names -/

/-- Why a text is no name of a component, if it is none. -/
def nameFault? (name : String) : Option NameFault :=
  if name.isEmpty then some .empty
  else if !name.toList.all (fun c => c.toNat < 128) then some .notAscii
  else if name.toList.contains separator then some .separator
  else none

def checkName (name : String) : Outcome Unit :=
  match nameFault? name with
  | some reason => .error (.invalidName name reason)
  | none => .ok ()

mutual

/-- Checks the names of an assembly and of everything in it. -/
def checkAssembly : Assembly → Outcome Unit
  | .mk name _ children => do
    checkName name
    checkChildren name [] children

/-- Checks the children of `parent` behind those named `seen`. -/
def checkChildren (parent : String) (seen : List String) : List Assembly → Outcome Unit
  | [] => .ok ()
  | a :: rest => do
    if seen.contains a.name then throw (.nameConflict parent a.name)
    checkAssembly a
    checkChildren parent (a.name :: seen) rest

end

/-! ## Placing assemblies -/

mutual

/-- Puts an assembly behind all nodes: its component first, then its children, each with its own
below it before the next. -/
def placed (parent : Option NodeId) : Assembly → Array Node → Array Node
  | .mk name component children, nodes =>
    placedAll nodes.size children (nodes.push ⟨name, parent, [], .unbuilt, component⟩)

def placedAll (parent : NodeId) : List Assembly → Array Node → Array Node
  | [], nodes => nodes
  | a :: rest, nodes =>
    placedAll parent rest
      ((placed (some parent) a nodes).modify parent (·.adopt a.name nodes.size))

end

/-- The tree of an assembly, whose name is the scope of the root. -/
def ofAssembly (a : Assembly) : Outcome Tree := do
  checkAssembly a
  .ok ⟨placed none a #[], false⟩

/-- Places an assembly whose names were checked. -/
def place (a : Assembly) : Effect Tree NodeId := do
  let t ← get
  set { t with nodes := placed none a t.nodes }
  return t.size

/-! ## Edits -/

def checkMutable (t : Tree) : Outcome Unit := if t.frozen then .error .treeFrozen else .ok ()

def checkNode (t : Tree) (id : NodeId) : Outcome Node :=
  match t.node? id with
  | some n => .ok n
  | none => .error (t.unknownNode id)

/-- Adds an assembly that is not attached to anything yet. -/
def insert (a : Assembly) : Effect Tree NodeId := do
  Effect.reading checkMutable
  Effect.ofOutcome (checkAssembly a)
  place a

/-- Whether `candidate` is met on the way up from `id`, at most `steps` links long. -/
def isAboveWithin (t : Tree) (candidate : NodeId) : Nat → NodeId → Bool
  | 0, id => id == candidate
  | steps + 1, id =>
    id == candidate || match t.parent? id with
      | some p => t.isAboveWithin candidate steps p
      | none => false

/-- Whether `candidate` is `id` or above it. -/
def isAbove (t : Tree) (candidate id : NodeId) : Bool := t.isAboveWithin candidate t.size id

/-- Whether `child` may be attached under `parent` by this name. -/
def checkAttach (t : Tree) (parent child : NodeId) (name : String) : Outcome Unit := do
  t.checkMutable
  checkName name
  let above ← t.checkNode parent
  let below ← t.checkNode child
  if let some existing := below.parent then
    throw (.alreadyAttached (t.displayName child) (t.displayName existing))
  if child = root ∨ t.isAbove child parent then
    throw (.alreadyAttached (t.displayName child) (t.displayName parent))
  if (above.children.lookup name).isSome then
    throw (.nameConflict (t.displayName parent) name)

/-- The tree with `child` as the last child of `parent`. -/
def link (t : Tree) (parent child : NodeId) (name : String) : Tree :=
  { t with
    nodes := (t.nodes.modify child fun n => { n with name, parent := some parent }).modify parent
      (·.adopt name child) }

/-- Attaches a node that has no parent yet under `parent`, by this name. -/
def attach (parent child : NodeId) (name : String) : Effect Tree Unit := do
  Effect.reading (checkAttach · parent child name)
  modify (·.link parent child name)

/-- Adds an assembly and attaches it by its own name. -/
def attachAssembly (parent : NodeId) (a : Assembly) : Effect Tree NodeId := do
  Effect.reading checkMutable
  let above ← Effect.reading (checkNode · parent)
  Effect.ofOutcome (checkAssembly a)
  let t ← get
  if (above.children.lookup a.name).isSome then
    throw (.nameConflict (t.displayName parent) a.name)
  let child ← place a
  attach parent child a.name
  return child

end ComponentFlow.Tree
