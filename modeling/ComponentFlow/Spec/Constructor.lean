/-
  ComponentFlow.Spec.Constructor — constructors of components by type tag. A constructor turns the
  arguments of a spec into an assembly and resolves the specs nested in them through the same
  registry, so construction follows the nesting of the JSON value.
-/
import ComponentFlow.Spec.Arguments
import ComponentFlow.Tree.Edit

namespace ComponentFlow

/-- Turns sources into assemblies that have a capability. -/
abbrev Resolver := AssemblySource → Capability → Outcome Assembly

structure Constructor where
  tag : String
  build : Arguments → Resolver → Outcome Assembly

/-- Constructors in the order of their tags. -/
abbrev Registry := List Constructor

namespace Registry

def tags (r : Registry) : List String := r.map Constructor.tag

def has (r : Registry) (tag : String) : Bool := r.tags.contains tag

def constructor? (r : Registry) (tag : String) : Option Constructor := r.find? fun c => c.tag == tag

/-- An assembly under the name that the arguments give it. -/
def named (a : Arguments) (assembly : Assembly) : Outcome Assembly := do
  match ← a.scope? with
  | none => .ok assembly
  | some scope => do
    Tree.checkName scope
    .ok (assembly.renamed scope)

/-- Makes an assembly from a source, by `build` where it is described, and checks its capability. -/
def resolveVia (build : ComponentSpec → Outcome Assembly) : Resolver := fun source capability => do
  let a ← match source with
    | .instance a => .ok a
    | .spec s => build s
    | .json v => do build (← ComponentSpec.ofJson v)
  capability.check a.component
  return a

/-- Constructs what a spec describes, with specs nested at most `depth` deep. -/
def buildWithin (r : Registry) : (depth : Nat) → ComponentSpec → Outcome Assembly
  | 0, _ => .error (.fault .callsTooDeep)
  | depth + 1, s =>
    match r.constructor? s.tag with
    | none => .error (.unknownTypeTag s.tag)
    | some c => do named s.arguments (← c.build s.arguments (resolveVia (r.buildWithin depth)))

/-- Constructs what a spec describes, without asking for a capability. -/
def build (r : Registry) (s : ComponentSpec) : Outcome Assembly := r.buildWithin s.depth s

/-- Makes an assembly that has a capability from any source. -/
def instantiate (r : Registry) : Resolver := resolveVia r.build

end Registry

end ComponentFlow
