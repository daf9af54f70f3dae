/-
  ComponentFlow.Component.Body — method bodies as data. A body is a program without loops: each step
  applies a primitive or calls a child on values named by references, a branch goes on by whether a
  value is absent, and further references name the values that are returned.
-/
import ComponentFlow.Component.Signature
import ComponentFlow.Primitive.Basic

namespace ComponentFlow

/-- Names a value inside a body. -/
inductive Ref where
  | absent
  | input (index : Nat)
  /-- One of all the values that the steps so far have produced, in order. -/
  | value (index : Nat)
  /-- The first output of a step. -/
  | first (step : Nat)
  /-- The output that a called method declares under this name. -/
  | named (step : Nat) (name : String)
  | literal (t : Tensor)
  /-- A placeholder that did not come in as an input. -/
  | foreign (p : Placeholder)

/-- What a step does with its arguments. -/
inductive Operation where
  | apply (p : Primitive)
  /-- Casts the first argument to the element type of the second, or to `i32` if that is
  absent. -/
  | castLike
  | call (child method : String)
  | fail (text : String)

/-- A number as a value. -/
def Ref.scalar (x : Float32) : Ref := .literal (Tensor.scalar x)

structure Step where
  operation : Operation
  args : List Ref

/-- Applies a primitive. -/
def Step.apply (p : Primitive) (args : List Ref) : Step := ⟨.apply p, args⟩

/-- Calls a method of a child. -/
def Step.call (child method : String) (args : List Ref) : Step := ⟨.call child method, args⟩

inductive Body where
  /-- Carries out steps, then returns values. -/
  | straight (steps : List Step) (returns : List Ref)
  /-- Carries out steps, then goes on with one body if a value is absent and with another if it is
  not. -/
  | branch (steps : List Step) (on : Ref) (absent present : Body)

/-- The values in reach of a step: the inputs, and the outputs of each step before it. -/
structure Frame where
  inputs : List Value
  results : List Outputs

namespace Frame

def orBadReference {α : Type} : Option α → Outcome α
  | some a => .ok a
  | none => Outcome.invalid .badReference

/-- The value that a reference names. -/
def resolve (f : Frame) : Ref → Outcome Value
  | .absent => .ok .absent
  | .input index => orBadReference f.inputs[index]?
  | .value index => orBadReference (f.results.flatMap Outputs.values)[index]?
  | .first step => do (← orBadReference f.results[step]?).first
  | .named step name => do (← orBadReference f.results[step]?).output name
  | .literal t => .ok (.tensor t)
  | .foreign p => .ok (.placeholder p)

end Frame

end ComponentFlow
