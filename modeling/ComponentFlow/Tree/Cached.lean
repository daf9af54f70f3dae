/-
  ComponentFlow.Tree.Cached — trees that keep the scopes they were asked for. A scope is worked out from
  that of the parent, unless it is kept, and then kept for good, later edits notwithstanding. Edits ask for
  scopes too, to name the nodes in their errors.
-/
import ComponentFlow.Tree.Edit

namespace ComponentFlow

structure CachedTree where
  tree : Tree
  /-- Scopes in the order in which they were worked out. -/
  scopes : List (NodeId × String)

namespace CachedTree

/-- A tree that was not asked for scopes yet. -/
def ofTree (t : Tree) : CachedTree := ⟨t, []⟩

/-- The scope that is kept for a node. -/
def kept? (c : CachedTree) (id : NodeId) : Option String := c.scopes.lookup id

/-- Keeps a scope, unless one is kept for the node already, and gives the one that is kept. -/
def keep (c : CachedTree) (id : NodeId) (scope : String) : Option String × CachedTree :=
  let c := { c with scopes := c.scopes ++ [(id, scope)] }
  (c.kept? id, c)

/-- The scope of a node at most `steps` below the root or a node whose scope is kept. The scopes that are worked out
on the way are kept as well. -/
def scopeWithin (c : CachedTree) : Nat → NodeId → Option String × CachedTree
  | steps, id =>
    match c.tree.node? id, c.kept? id with
    | none, _ => (none, c)
    | some _, some scope => (some scope, c)
    | some n, none =>
      if id = Tree.root then c.keep id n.name
      else
        match n.parent, steps with
        | none, _ | some _, 0 => (none, c)
        | some parent, steps + 1 =>
          match c.scopeWithin steps parent with
          | (some above, c) => c.keep id ((above.push Tree.separator) ++ n.name)
          | (none, c) => (none, c)

/-- The scope of a node that hangs together with the root. -/
def scope? (c : CachedTree) (id : NodeId) : Option String × CachedTree := c.scopeWithin c.tree.size id

/-- Asks for the scope of a node. -/
def ask (id : NodeId) : Effect CachedTree (Option String) :=
  Effect.ofRun fun c => (.ok (c.scope? id).1, (c.scope? id).2)

/-- The scope, or the bare name of a node that has none. -/
def displayName (id : NodeId) : Effect CachedTree String := do
  let scope ← ask id
  let c ← get
  return scope.getD ((c.tree.name? id).getD "")

/-! ## Edits -/

/-- What is done to the tree leaves the scopes. -/
def onTree {α : Type} (op : Effect Tree α) : Effect CachedTree α :=
  Effect.within CachedTree.tree (fun tree c => { c with tree }) op

/-- Adds an assembly that is not attached to anything yet. -/
def insert (a : Assembly) : Effect CachedTree NodeId := onTree (Tree.insert a)

/-- Whether `child` may be attached under `parent` by this name. -/
def checkAttach (parent child : NodeId) (name : String) : Effect CachedTree Unit := do
  onTree (Effect.reading Tree.checkMutable)
  Effect.ofOutcome (Tree.checkName name)
  let above ← onTree (Effect.reading (Tree.checkNode · parent))
  let below ← onTree (Effect.reading (Tree.checkNode · child))
  if let some existing := below.parent then
    throw (.alreadyAttached (← displayName child) (← displayName existing))
  let c ← get
  if child = Tree.root ∨ c.tree.isAbove child parent then
    throw (.alreadyAttached (← displayName child) (← displayName parent))
  if (above.children.lookup name).isSome then
    throw (.nameConflict (← displayName parent) name)

/-- Attaches a node that has no parent yet under `parent`, by this name. -/
def attach (parent child : NodeId) (name : String) : Effect CachedTree Unit := do
  checkAttach parent child name
  onTree (modify (·.link parent child name))

/-- Adds an assembly and attaches it by its own name. -/
def attachAssembly (parent : NodeId) (a : Assembly) : Effect CachedTree NodeId := do
  onTree (Effect.reading Tree.checkMutable)
  let above ← onTree (Effect.reading (Tree.checkNode · parent))
  Effect.ofOutcome (Tree.checkAssembly a)
  if (above.children.lookup a.name).isSome then
    throw (.nameConflict (← displayName parent) a.name)
  let child ← onTree (Tree.place a)
  attach parent child a.name
  return child

end CachedTree

end ComponentFlow
