/-
  ComponentFlow.Spec.Arguments — typed access to the arguments of a spec. A `null` argument counts
  as left out, except where a tensor or a record of arguments is read. An array of arrays is a
  tensor when the lengths along the first elements multiply to the number of leaves.
-/
import ComponentFlow.Spec.Basic
import ComponentFlow.Tensor.Basic

namespace ComponentFlow

structure Arguments where
  tag : String
  fields : Json.Fields

def ComponentSpec.arguments (s : ComponentSpec) : Arguments := ⟨s.tag, s.args⟩

namespace Arguments

def raw? (a : Arguments) (key : String) : Option Json := Json.field? a.fields key

def contains (a : Arguments) (key : String) : Bool := (a.raw? key).isSome

/-- The argument, if there is one. -/
def get {α : Type} (a : Arguments) (key : String) (r : Json.Reader α) : Outcome (Option α) :=
  match a.raw? key with
  | none | some .null => .ok none
  | some v =>
    match r v with
    | .ok x => .ok (some x)
    | .error cause => Outcome.invalid (.argument a.tag key (.unreadable cause))

def getOr {α : Type} (a : Arguments) (key : String) (r : Json.Reader α) (default : α) :
    Outcome α := do
  return (← a.get key r).getD default

def require {α : Type} (a : Arguments) (key : String) (r : Json.Reader α) : Outcome α := do
  match ← a.get key r with
  | some x => .ok x
  | none => Outcome.invalid (.argumentMissing a.tag key)

/-- All arguments as one record. -/
def parse {α : Type} (a : Arguments) (read : Json.Fields → Except Json.ReadError α) : Outcome α :=
  (read a.fields).mapError fun cause => .invalidSpec (.arguments a.tag cause)

/-! ## The scope argument -/

/-- The argument that names the constructed component. -/
def scopeKey : String := "scope"

def scope? (a : Arguments) : Outcome (Option String) := a.get scopeKey Json.text

def scopeOr (a : Arguments) (default : String) : Outcome String :=
  a.getOr scopeKey Json.text default

/-! ## Tensors -/

mutual

/-- The lengths along the first elements. -/
def probeDims : Json → List Nat
  | .array items => items.length :: probeFirst items
  | _ => []

def probeFirst : List Json → List Nat
  | [] => []
  | v :: _ => probeDims v

end

mutual

/-- The leaves from left to right, numbers and truth values. -/
def leaves : Json → Except ArgumentError (List Float32)
  | .int n => .ok [Scalar.narrow (Float.ofInt n)]
  | .float x => .ok [Scalar.narrow x]
  | .bool b => .ok [Scalar.ofBool b]
  | .array items => leavesOfAll items
  | v => .error (.notNumeric v)

def leavesOfAll : List Json → Except ArgumentError (List Float32)
  | [] => .ok []
  | v :: rest => do
    let first ← leaves v
    return first ++ (← leavesOfAll rest)

end

/-- A number or an array of arrays as a tensor. -/
def tensorOf (v : Json) : Except ArgumentError Tensor := do
  let data ← leaves v
  match Tensor.ofFloats ⟨probeDims v⟩ data.toArray with
  | .ok t => .ok t
  | .error _ => .error .notRectangular

/-- The argument as a tensor, if it is there. -/
def tensor (a : Arguments) (key : String) : Outcome (Option Tensor) :=
  match a.raw? key with
  | none => .ok none
  | some v =>
    match tensorOf v with
    | .ok t => .ok (some t)
    | .error cause => Outcome.invalid (.argument a.tag key cause)

end Arguments

end ComponentFlow
