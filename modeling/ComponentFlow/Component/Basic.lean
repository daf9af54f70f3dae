/-
  ComponentFlow.Component.Basic — components and assemblies. A component is its kind, the JSON of
  its construction arguments and its methods, each a declaration with a body; what else can be
  inspected of it is in its detail. An assembly is a component with the assemblies of its children,
  not yet placed in a tree.
-/
import ComponentFlow.Component.Body
import ComponentFlow.Json.Basic
import ComponentFlow.Layers.Schedule

namespace ComponentFlow

structure Method extends Signature where
  body : Body

/-- What components of particular kinds show of themselves. -/
inductive Detail where
  | none
  | dense (weight : Tensor) (bias : Option Tensor) (units : Nat)
  | policy (numActions : Nat)
  | stack (layers : List String)
  | exploration (schedule : Schedule)

structure Component where
  kind : String
  config : Json
  methods : List Method
  detail : Detail := .none

namespace Component

/-- The method of that name; of several the first. -/
def method? (c : Component) (name : String) : Option Method :=
  c.methods.find? fun m => m.name == name

def declares (c : Component) (name : String) : Bool := (c.method? name).isSome

/-- The rule of the first output of a method. -/
def leadingRule (c : Component) (method : String) : Outcome OutputRule :=
  match (c.method? method).bind fun m => m.outputs.head? with
  | some slot => .ok slot.rule
  | none => Outcome.invalid (.noFirstOutput c.kind method)

end Component

inductive Assembly where
  | mk (name : String) (component : Component) (children : List Assembly)

namespace Assembly

def name : Assembly → String
  | mk name _ _ => name

def component : Assembly → Component
  | mk _ component _ => component

def children : Assembly → List Assembly
  | mk _ _ children => children

/-- A component without children. -/
def leaf (name : String) (component : Component) : Assembly := mk name component []

def renamed (a : Assembly) (name : String) : Assembly := mk name a.component a.children

def child? (a : Assembly) (name : String) : Option Assembly :=
  a.children.find? fun c => c.name == name

mutual

/-- The text in diagnostics. -/
def debugText : Assembly → String
  | mk name component children =>
    "Assembly \x7b name: " ++ Text.quoted name ++ ", kind: " ++ Text.quoted component.kind
      ++ ", children: [" ++ debugTexts children ++ "] \x7d"

def debugTexts : List Assembly → String
  | [] => ""
  | [a] => a.debugText
  | a :: rest => a.debugText ++ ", " ++ debugTexts rest

end

end Assembly

/-- The methods that a place for a component asks for. -/
structure Capability where
  name : String
  methods : List String
  deriving DecidableEq, Repr

namespace Capability

/-- Asks for nothing. -/
def any : Capability := ⟨"any", []⟩

def check (c : Capability) (component : Component) : Outcome Unit :=
  match c.methods.filter fun m => !component.declares m with
  | [] => .ok ()
  | missing => .error (.capabilityMismatch c.name component.kind missing)

end Capability

end ComponentFlow
