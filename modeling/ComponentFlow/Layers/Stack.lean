/-
  ComponentFlow.Layers.Stack — layers one behind another: a preprocessor or a network whose method
  threads one value through the same method of every layer. The contract of a stack is composed
  from those of its layers, and layers of equal names are told apart by numbers.
-/
import ComponentFlow.Layers.Roles
import ComponentFlow.Spec.Constructor

namespace ComponentFlow.Layers

/-- What is stacked. -/
structure StackRole where
  kind : String
  method : String
  capability : Capability

namespace StackRole

def preprocessor : StackRole := ⟨"preprocessor-stack", preprocess, .preprocessor⟩

def network : StackRole := ⟨"neural-network", call, .layer⟩

end StackRole

/-- The name itself, then the name with numbers behind it. -/
def candidateName (base : String) : Nat → String
  | 0 => base
  | k + 1 => s!"{base}-{k + 1}"

/-- The first candidate that is not taken; one more candidate than taken names is enough. -/
def freshName (base : String) (taken : List String) : String :=
  (((List.range (taken.length + 1)).map (candidateName base)).find?
    fun name => !taken.contains name).getD base

/-- Layers under distinct names, and the contract of all of them. -/
structure Stacked where
  rule : OutputRule := .likeInput 0
  layers : List Assembly := []

namespace Stacked

def names (s : Stacked) : List String := s.layers.map Assembly.name

/-- Puts one more layer behind the others. -/
def add (role : StackRole) (s : Stacked) (layer : Assembly) : Outcome Stacked := do
  role.capability.check layer.component
  let rule ← layer.component.leadingRule role.method
  return ⟨s.rule.andThen rule, s.layers ++ [layer.renamed (freshName layer.name s.names)]⟩

end Stacked

/-- Calls `method` of each layer on what the layer before gave, the first on the input. -/
def stackSteps (method : String) (names : List String) : List Step :=
  names.zipIdx.map fun (name, i) =>
    .call name method [match i with | 0 => .input 0 | k + 1 => .first k]

def stackBody (method : String) (names : List String) : Body :=
  .straight (stackSteps method names)
    [match names.length with | 0 => .input 0 | k + 1 => .first k]

def stackComponent (role : StackRole) (rule : OutputRule) (names : List String) : Component where
  kind := role.kind
  config := .object [("layers", .array (names.map .string))]
  methods := [{
    name := role.method
    inputs := [Signature.required "x"]
    outputs := [⟨"y", rule⟩]
    calls := names.map fun name => (name, role.method)
    body := stackBody role.method names }]
  detail := .stack names

/-- Stacks layers in this order. -/
def stack (role : StackRole) (layers : List Assembly) : Outcome Assembly := do
  let s ← layers.foldlM (Stacked.add role) {}
  return .mk role.kind (stackComponent role s.rule s.names) s.layers

/-- Stacks what the specs describe. -/
def stackOfSpecs (role : StackRole) (resolve : Resolver) (specs : List Json) :
    Outcome Assembly := do
  let layers ← specs.mapM fun v => resolve (.json v) role.capability
  stack role layers

/-- Makes a part from an assembly, a spec, or a list of the specs of layers. -/
def resolveStack (role : StackRole) (resolve : Resolver) (source : AssemblySource) :
    Outcome Assembly :=
  match source with
  | .json (.array specs) => stackOfSpecs role resolve specs
  | source => resolve source role.capability

/-- The specs of the layers among the arguments. -/
def layerSpecs (args : Arguments) : Outcome (List Json) :=
  match args.raw? "layers" with
  | none | some .null => .ok []
  | some (.array specs) => .ok specs
  | some other => Outcome.invalid (.layersNotList args.tag other)

def stackConstructor (role : StackRole) : Constructor where
  tag := role.kind
  build args resolve := do stackOfSpecs role resolve (← layerSpecs args)

end ComponentFlow.Layers
