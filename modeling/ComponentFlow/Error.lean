/-
  ComponentFlow.Error — everything that can go wrong while trees are assembled and graphs are
  recorded, built and run. Each error is a cause with its data; the wording is in one function per
  type.

  A `Fault` is not an error of the caller: it says that an operation was aborted half way. The two
  that can arise are a clip with a NaN bound, which has no order to clamp into, and a body that
  asks for the first output of a method that has none; the others mark steps that index
  arithmetic and the shape of the tree rule out.
-/
import ComponentFlow.Json.Printer
import ComponentFlow.Json.Reader
import ComponentFlow.Mode
import ComponentFlow.Tensor.Mismatch
import ComponentFlow.Tensor.SpecText

namespace ComponentFlow

/-- Why an operation was aborted. -/
inductive Fault where
  | unorderedBounds (lo hi : Float32)
  | indexOutOfRange (length index : Nat)
  | divisionByZero
  | callsTooDeep

def Fault.message : Fault → String
  | .unorderedBounds lo hi =>
    "min > max, or either was NaN. min = " ++ Decimal.Layout.diagnostic.single lo
      ++ ", max = " ++ Decimal.Layout.diagnostic.single hi
  | .indexOutOfRange length index =>
    s!"index out of bounds: the len is {length} but the index is {index}"
  | .divisionByZero => "attempt to divide by zero"
  | .callsTooDeep => "calls nested deeper than the tree"

/-- Failures of kernels. -/
inductive KernelError where
  | unimplemented (op reason : String)
  | indexOutOfDepth (index : Int) (depth : Nat)
  | badResult (cause : Mismatch)
  | shape (cause : Mismatch)
  | nonStatic (op : String) (spec : TensorSpec)
  | resetShape (resets values : Shape)
  | missingOperand (operand node : Nat)
  | missingValue (value : Nat)
  | fault (cause : Fault)

def KernelError.message : KernelError → String
  | .unimplemented op reason => s!"{op} is not implemented: {reason}"
  | .indexOutOfDepth index depth =>
    s!"backend execution failure: one_hot index {index} out of range for depth {depth}"
  | .badResult cause => s!"backend execution failure: shape mismatch: {cause.message}"
  | .shape cause => s!"backend shape violation: shape mismatch: {cause.message}"
  | .nonStatic op spec =>
    s!"backend shape violation: {op} produced a non-static spec {spec.text}"
  | .resetShape resets values =>
    s!"backend shape violation: discounted_cumsum resets shaped {resets.text} do not match "
      ++ s!"values shaped {values.text}"
  | .missingOperand operand node =>
    s!"backend execution failure: operand %{operand} of node %{node} was not evaluated"
  | .missingValue value => s!"backend execution failure: fetched value %{value} was not evaluated"
  | .fault cause => cause.message

/-- Why a name is refused. -/
inductive NameFault where
  | empty
  | notAscii
  | separator
  deriving DecidableEq, Repr

def NameFault.message : NameFault → String
  | .empty => "names must be non-empty"
  | .notAscii => "names must be ASCII"
  | .separator => "names must not contain the scope separator '/'"

/-- Why an argument of a component spec is refused. -/
inductive ArgumentError where
  | unreadable (cause : Json.ReadError)
  | notNumeric (found : Json)
  | notRectangular

/-- What is wrong with a spec, an assembly, an output rule or a method body. -/
inductive SpecError where
  | tensorSpec (cause : SpecTextError)
  | notJson
  | notObject (value : Json)
  | missingTag (value : Json)
  | unreadable (cause : Json.ReadError)
  | argument (tag key : String) (cause : ArgumentError)
  | arguments (tag : String) (cause : Json.ReadError)
  | argumentMissing (tag key : String)
  | layersNotList (tag : String) (value : Json)
  | policySpecMissing (tag : String)
  | clipBounds (lo hi : Float32)
  | noActions
  | epsilonRange (first last : Float32)
  | discountRange (discount lambda : Float32)
  | noFixedWidth (kind : String)
  | noFirstOutput (kind method : String)
  | noNamedOutput (kind method output : String)
  | outputNotFixed (kind method output rule : String)
  | ruleIndex (index inputs : Nat)
  | noOutput (name : String) (available : List String)
  /-- A failure that a method body raises itself. -/
  | raised (text scope component backend : String)
  | badReference
  | badDefinition
  | ruleFailed

def SpecError.message : SpecError → String
  | .tensorSpec cause => cause.message
  | .notJson => "text is not JSON"
  | .notObject value => s!"component spec must be an object, got {value.render}"
  | .missingTag value => s!"component spec is missing 'type': {value.render}"
  | .unreadable cause => cause.message
  | .argument tag key (.unreadable cause) => s!"'{tag}' argument '{key}': {cause.message}"
  | .argument tag key (.notNumeric found) =>
    s!"'{tag}' argument '{key}': expected numbers, found {found.render}"
  | .argument tag key .notRectangular => s!"'{tag}' argument '{key}' is not a rectangular array"
  | .arguments tag cause => s!"'{tag}': {cause.message}"
  | .argumentMissing tag key => s!"'{tag}' requires argument '{key}'"
  | .layersNotList tag value => s!"'{tag}' argument 'layers' must be a list, got {value.render}"
  | .policySpecMissing tag => s!"'{tag}' requires 'policy_spec'"
  | .clipBounds lo hi =>
    "clip bounds inverted: [" ++ Scalar.text lo ++ ", " ++ Scalar.text hi ++ "]"
  | .noActions => "epsilon exploration needs at least one action"
  | .epsilonRange first last =>
    "epsilon schedule [" ++ Scalar.text first ++ ", " ++ Scalar.text last ++ "] leaves [0, 1]"
  | .discountRange discount lambda =>
    "discount (" ++ Scalar.text discount ++ ") and gae_lambda (" ++ Scalar.text lambda
      ++ ") must lie in [0, 1]"
  | .noFixedWidth kind => s!"'{kind}' must declare a fixed output width to sit inside a policy"
  | .noFirstOutput kind method => s!"'{kind}' declares no output for '{method}'"
  | .noNamedOutput kind method output =>
    s!"'{kind}' method '{method}' declares no output '{output}'"
  | .outputNotFixed kind method output rule =>
    s!"'{kind}' output '{output}' of '{method}' must have a fixed contract, got {rule}"
  | .ruleIndex index inputs => s!"output rule refers to input {index} of a {inputs}-input method"
  | .noOutput name available =>
    s!"no output named '{name}' (available: " ++ ", ".intercalate available ++ ")"
  | .raised text scope component backend => s!"{text} in '{scope}' ({component}) on {backend}"
  | .badReference => "script: bad reference"
  | .badDefinition => "script: bad definition"
  | .ruleFailed => "derived rule failed"

/-- How outputs can break the contract of their method. -/
inductive Violation where
  | outputCount (declared returned : Nat)
  | specCount (declared supplied : Nat)
  | recordedCount (recorded returned : Nat)
  | notAbsent (output : String) (got : TensorSpec)
  | missing (output : String) (expected : TensorSpec)
  | differs (output : String) (expected got : TensorSpec)
  /-- A recorded output does not match the placeholder that was handed out for it. -/
  | placeholder (index : Nat) (expected got : Option TensorSpec) (kind : String)
  deriving DecidableEq, Repr

def specText? (s : Option TensorSpec) : String := (s.map TensorSpec.text).getD "nothing"

def Violation.message : Violation → String
  | .outputCount declared returned => s!"declared {declared} outputs, body returned {returned}"
  | .specCount declared supplied =>
    s!"declared {declared} outputs, record supplies {supplied} specs"
  | .recordedCount recorded returned => s!"recorded {recorded} outputs, body returned {returned}"
  | .notAbsent output got => s!"output '{output}' must be absent, got {got.text}"
  | .missing output expected => s!"output '{output}' is missing, expected {expected.text}"
  | .differs output expected got => s!"output '{output}' expected {expected.text}, got {got.text}"
  | .placeholder index expected got kind =>
    s!"output {index} produced {specText? got} ({kind}) where the placeholder expects "
      ++ specText? expected

/-- Why a binding or a fetched placeholder leads nowhere. Placeholders are given by their text. -/
inductive BindingFault where
  | noInput (name : String)
  | noOutput (invocation index : Nat)
  | notBefore (invocation current : Nat)
  | unknown (invocation : Nat)
  | otherGraph (placeholder : String)
  | escapedSymbol (value : Nat)
  | insideBody (placeholder : String)
  | notInArtifact
  | foreignGraph (graph : Nat)
  deriving DecidableEq, Repr

def BindingFault.message : BindingFault → String
  | .noInput name => s!"no graph input named '{name}'"
  | .noOutput invocation index => s!"#{invocation} has no output {index}"
  | .notBefore invocation current =>
    s!"refers to #{invocation}, which is not resolved before #{current}"
  | .unknown invocation => s!"refers to unknown invocation #{invocation}"
  | .otherGraph placeholder => s!"placeholder {placeholder} belongs to another graph"
  | .escapedSymbol value => s!"symbol %{value} escaped the method body that produced it"
  | .insideBody placeholder =>
    s!"placeholder {placeholder} used inside a method body; pass it as an API input"
  | .notInArtifact => "the invocation was recorded after this artifact was built"
  | .foreignGraph graph => s!"placeholder belongs to graph {graph}"

/-- What a graph input was expected to be or turned out to be. -/
inductive FeedOrigin where
  | spec (s : TensorSpec)
  | inputOf (graph : Nat)
  deriving DecidableEq, Repr

def FeedOrigin.text : FeedOrigin → String
  | .spec s => s.text
  | .inputOf graph => s!"an input of graph {graph}"

inductive GraphError where
  | nameConflict (parent name : String)
  | alreadyAttached (child parent : String)
  | invalidName (name : String) (reason : NameFault)
  | treeFrozen
  | unknownTypeTag (tag : String)
  | capabilityMismatch (capability kind : String) (missing : List String)
  | invalidSpec (cause : SpecError)
  | unknownMethod (scope method : String)
  | unknownComponent (scope name : String)
  | arityMismatch (scope method : String) (expected got : Nat)
  | unresolvedBinding (invocation : Nat) (cause : BindingFault)
  | reentrantBuild (scope : String)
  | postBuildInvocation (scope method : String)
  | contractViolation (scope method : String) (cause : Violation)
  | notBuilt (scope : String)
  | modeMismatch (expected found : Mode)
  | shapeMismatch (cause : Mismatch)
  | missingFeed (name : String)
  | feedMismatch (name : String) (expected got : FeedOrigin)
  | kernel (cause : KernelError)
  | fault (cause : Fault)

namespace GraphError

def message : GraphError → String
  | .nameConflict parent name => s!"component '{parent}' already has a sub-component named '{name}'"
  | .alreadyAttached child parent => s!"component '{child}' is already attached under '{parent}'"
  | .invalidName name reason => s!"invalid component name '{name}': {reason.message}"
  | .treeFrozen => "component tree is frozen once a build has started"
  | .unknownTypeTag tag => s!"no component constructor registered for type tag '{tag}'"
  | .capabilityMismatch capability kind missing =>
    s!"component of kind '{kind}' does not satisfy capability '{capability}' (missing: "
      ++ Text.quotedList missing ++ ")"
  | .invalidSpec cause => s!"invalid component spec: {cause.message}"
  | .unknownMethod scope method => s!"component '{scope}' has no API method '{method}'"
  | .unknownComponent scope name => s!"no sub-component '{name}' under '{scope}'"
  | .arityMismatch scope method expected got =>
    s!"'{scope}.{method}' expects {expected} inputs, got {got}"
  | .unresolvedBinding invocation cause =>
    s!"invocation #{invocation} has an unresolved binding: {cause.message}"
  | .reentrantBuild scope => s!"build re-entered while '{scope}' is still building"
  | .postBuildInvocation scope method =>
    s!"'{scope}.{method}' cannot be invoked after the graph has been built"
  | .contractViolation scope method cause =>
    s!"'{scope}.{method}' violated its output contract: {cause.message}"
  | .notBuilt scope => s!"graph rooted at '{scope}' has not been built"
  | .modeMismatch expected found =>
    s!"operation requires the {expected.title} backend but the graph runs on {found.title}"
  | .shapeMismatch cause => s!"shape mismatch: {cause.message}"
  | .missingFeed name => s!"no value fed for input '{name}'"
  | .feedMismatch name expected got =>
    s!"value fed for '{name}' does not match {expected.text}: got {got.text}"
  | .kernel cause => cause.message
  | .fault cause => cause.message

/-- An error of kernels as an error of the graph; an aborted kernel aborts the operation. -/
def ofKernel : KernelError → GraphError
  | .fault cause => .fault cause
  | e => .kernel e

end GraphError

/-- Results of the library. -/
abbrev Outcome (α : Type) := Except GraphError α

namespace Outcome

def ofShape {α : Type} (r : Except Mismatch α) : Outcome α := r.mapError .shapeMismatch

def ofKernel {α : Type} (r : Except KernelError α) : Outcome α := r.mapError .ofKernel

def invalid {α : Type} (cause : SpecError) : Outcome α := .error (.invalidSpec cause)

end Outcome

end ComponentFlow
