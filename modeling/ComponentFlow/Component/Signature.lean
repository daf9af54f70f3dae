/-
  ComponentFlow.Component.Signature — declared methods: the surface of a component that can be
  called. A method says what its inputs default to and, per output, a rule that gives the output's
  spec from those of the inputs; the rule is what callers are promised and what results are
  checked against.
-/
import ComponentFlow.Value

namespace ComponentFlow

/-- The spec of one output. Absent values have no spec. -/
inductive OutputRule where
  /-- That of an input. -/
  | likeInput (index : Nat)
  /-- The axes of an input, another element type. -/
  | likeInputAs (index : Nat) (dtype : DType)
  | fixed (spec : TensorSpec)
  /-- The output is never there. -/
  | absent
  | derived (derive : List (Option TensorSpec) → Outcome (Option TensorSpec))

namespace OutputRule

def inputSpec (inputs : List (Option TensorSpec)) (index : Nat) : Outcome (Option TensorSpec) :=
  match inputs[index]? with
  | some s => .ok s
  | none => Outcome.invalid (.ruleIndex index inputs.length)

def apply (rule : OutputRule) (inputs : List (Option TensorSpec)) : Outcome (Option TensorSpec) :=
  match rule with
  | .likeInput index => inputSpec inputs index
  | .likeInputAs index dtype => do
    let s ← inputSpec inputs index
    .ok (s.map (·.withDType dtype))
  | .fixed spec => .ok (some spec)
  | .absent => .ok none
  | .derived derive => derive inputs

/-- The contract of a stage with contract `next` behind one with contract `prev`; both have a single
input, so input 0 of `next` is the output of the first stage. -/
def andThen (prev next : OutputRule) : OutputRule :=
  match next with
  | .likeInput 0 => prev
  | .likeInputAs 0 dtype =>
    match prev with
    | .likeInput index | .likeInputAs index _ => .likeInputAs index dtype
    | .fixed spec => .fixed (spec.withDType dtype)
    | other => other
  | other => other

/-- The rule in diagnostics. -/
def text : OutputRule → String
  | .likeInput index => s!"LikeInput({index})"
  | .likeInputAs index dtype => s!"LikeInputAs({index}, {dtype.name})"
  | .fixed spec => s!"Fixed({spec.text})"
  | .absent => "Absent"
  | .derived _ => "Derived(..)"

end OutputRule

/-- What an input takes when the caller leaves it out. -/
inductive InputDefault where
  | required
  | value (t : Tensor)
  | absent

def InputDefault.isRequired : InputDefault → Bool
  | .required => true
  | _ => false

structure InputSlot where
  name : String
  default : InputDefault

structure OutputSlot where
  name : String
  rule : OutputRule

/-- The declaration of one method. -/
structure Signature where
  name : String
  inputs : List InputSlot := []
  outputs : List OutputSlot := []
  /-- Structurally identical recorded calls share one record. -/
  memoized : Bool := false
  /-- Calls are accepted after the graph has been built. -/
  postBuild : Bool := true
  /-- The calls of children that the body makes, each a child and a method. -/
  calls : List (String × String) := []

namespace Signature

/-- An input that must be supplied. -/
def required (name : String) : InputSlot := ⟨name, .required⟩

/-- An input that falls back to `t`. -/
def inputOr (name : String) (t : Tensor) : InputSlot := ⟨name, .value t⟩

/-- An input that is absent when omitted. -/
def optionalInput (name : String) : InputSlot := ⟨name, .absent⟩

def outputNames (m : Signature) : List String := m.outputs.map OutputSlot.name

def arityError (m : Signature) (scope : String) (got : Nat) : GraphError :=
  .arityMismatch scope m.name m.inputs.length got

/-- The defaults of the slots behind the first `filled`, up to a required one. -/
def fillDefaults (m : Signature) (scope : String) : Nat → List InputSlot → Outcome (List Value)
  | _, [] => .ok []
  | filled, slot :: rest =>
    match slot.default with
    | .required => .error (m.arityError scope filled)
    | .value t => (.tensor t :: ·) <$> fillDefaults m scope (filled + 1) rest
    | .absent => (.absent :: ·) <$> fillDefaults m scope (filled + 1) rest

/-- One value per slot: those supplied, then the defaults of the slots left out. -/
def completeInputs (m : Signature) (scope : String) (supplied : List Value) :
    Outcome (List Value) :=
  let leading := (m.inputs.takeWhile fun slot => slot.default.isRequired).length
  if supplied.length < leading ∨ supplied.length > m.inputs.length then
    .error (m.arityError scope supplied.length)
  else (supplied ++ ·) <$> m.fillDefaults scope supplied.length (m.inputs.drop supplied.length)

/-- The specs of all outputs for inputs of these specs. -/
def inferOutputs (m : Signature) (inputs : List (Option TensorSpec)) :
    Outcome (List (Option TensorSpec)) :=
  m.outputs.mapM fun slot => slot.rule.apply inputs

/-- How one output breaks its contract, if it does. -/
def outputViolation (slot : OutputSlot) (expected produced : Option TensorSpec) :
    Option Violation :=
  match expected, produced with
  | none, none => none
  | some expected, some got =>
    if expected.compatible got then none else some (.differs slot.name expected got)
  | none, some got => some (.notAbsent slot.name got)
  | some expected, none => some (.missing slot.name expected)

/-- The first violation among the outputs. -/
def firstViolation : List OutputSlot → List (Option TensorSpec) → List Value → Option Violation
  | slot :: slots, expected :: specs, produced :: values =>
    match outputViolation slot expected produced.spec? with
    | some v => some v
    | none => firstViolation slots specs values
  | _, _, _ => none

/-- Holds produced outputs against the contract. -/
def checkOutputs (m : Signature) (scope : String) (inputs : List (Option TensorSpec))
    (outputs : List Value) : Outcome Unit := do
  if outputs.length ≠ m.outputs.length then
    throw (.contractViolation scope m.name (.outputCount m.outputs.length outputs.length))
  let expected ← m.inferOutputs inputs
  match firstViolation m.outputs expected outputs with
  | some v => .error (.contractViolation scope m.name v)
  | none => .ok ()

end Signature

/-- The outputs of a call, by position and by declared name. -/
structure Outputs where
  names : List String
  values : List Value

namespace Outputs

def of (m : Signature) (values : List Value) : Outputs := ⟨m.outputNames, values⟩

def byName? (o : Outputs) (name : String) : Option Value :=
  (o.names.idxOf? name).bind fun i => o.values[i]?

/-- The output of that name. -/
def output (o : Outputs) (name : String) : Outcome Value :=
  match o.byName? name with
  | some v => .ok v
  | none => Outcome.invalid (.noOutput name o.names)

/-- The first output; a call without outputs aborts. -/
def first (o : Outputs) : Outcome Value :=
  match o.values with
  | v :: _ => .ok v
  | [] => .error (.fault (.indexOutOfRange 0 0))

/-- The placeholder behind an output, for fetching it. -/
def placeholder (o : Outputs) (name : String) : Outcome Placeholder := do
  match ← o.output name with
  | .placeholder p => .ok p
  | v => .error (.shapeMismatch (.outputKind name v.kindName "placeholder"))

/-- The tensor behind an output, as immediate calls produce it. -/
def tensor (o : Outputs) (name : String) : Outcome Tensor := do
  match ← o.output name with
  | .tensor t => .ok t
  | v => .error (.shapeMismatch (.outputKind name v.kindName "tensor"))

def pairs (o : Outputs) : List (String × Value) := o.names.zip o.values

end Outputs

end ComponentFlow
