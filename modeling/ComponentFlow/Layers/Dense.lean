/-
  ComponentFlow.Layers.Dense — the fully connected layer: a matrix product, a bias, an activation.
  Its parameters are given, or drawn from a normal distribution whose variance is one over the
  number of inputs, with a bias of zeros.
-/
import ComponentFlow.Json.Reader
import ComponentFlow.Layers.Roles
import ComponentFlow.Random.Normal
import ComponentFlow.Spec.Constructor

namespace ComponentFlow.Layers

inductive Activation where
  | linear
  | relu
  | tanh
  | sigmoid
  deriving DecidableEq, Repr

namespace Activation

def name : Activation → String
  | .linear => "linear"
  | .relu => "relu"
  | .tanh => "tanh"
  | .sigmoid => "sigmoid"

def known : List (String × Activation) :=
  [.linear, .relu, .tanh, .sigmoid].map fun a => (a.name, a)

/-- The primitive that is applied, if any. -/
def op? : Activation → Option UnaryOp
  | .linear => none
  | .relu => some .relu
  | .tanh => some .tanh
  | .sigmoid => some .sigmoid

end Activation

structure DenseConfig where
  inFeatures : Nat
  units : Nat
  activation : Activation := .linear
  useBias : Bool := true
  /-- Where the drawn weights start from. -/
  seed : UInt64 := 0

namespace DenseConfig

def fieldReaders : List (String × Json.Reader Unit) :=
  [("in_features", Json.checked Json.count), ("units", Json.checked Json.count),
    ("activation", Json.checked (Json.variant Activation.known)),
    ("use_bias", Json.checked Json.flag), ("seed", Json.checked Json.word64)]

def ofFields (fields : Json.Fields) : Except Json.ReadError DenseConfig := do
  Json.checkFields fieldReaders fields
  return {
    inFeatures := ← Json.required fields "in_features" Json.count
    units := ← Json.required fields "units" Json.count
    activation := ← Json.withDefault fields "activation" (Json.variant Activation.known) .linear
    useBias := ← Json.withDefault fields "use_bias" Json.flag true
    seed := ← Json.withDefault fields "seed" Json.word64 0 }

def toJson (c : DenseConfig) : Json :=
  .object [("activation", .string c.activation.name), ("in_features", .int c.inFeatures),
    ("seed", .int c.seed.toNat), ("units", .int c.units), ("use_bias", .bool c.useBias)]

end DenseConfig

def denseKind : String := "dense"

/-- The steps behind the matrix product: the bias, then the activation. -/
def denseSteps (bias : Option Tensor) (activation : Activation) : List Step :=
  let added := match bias with
    | some b => [.apply (.binary .add) [.first 0, .literal b]]
    | none => []
  let activated := match activation.op? with
    | some op => [.apply (.unary op) [.first added.length]]
    | none => []
  added ++ activated

/-- The layer with these parameters. -/
def denseOf (config : DenseConfig) (weight : Tensor) (bias : Option Tensor) : Component :=
  let steps := denseSteps bias config.activation
  { kind := denseKind
    config := config.toJson
    methods := [{
      name := call
      inputs := [Signature.required "x"]
      outputs := [⟨"y", .fixed ⟨.f32, [batch, .fixed config.units]⟩⟩]
      body := .straight (.apply .matMul [.input 0, .literal weight] :: steps)
        [.first steps.length] }]
    detail := .dense weight bias config.units }

/-- The layer with drawn weights. -/
def dense (config : DenseConfig) (generator : Random.Generator := Random.seeded) : Component :=
  let std := 1 / (Scalar.ofNat (max config.inFeatures 1)).sqrt
  let weight := Tensor.randn config.seed ⟨[config.inFeatures, config.units]⟩ std generator
  let bias := if config.useBias then some (Tensor.zeros ⟨[config.units]⟩) else none
  denseOf config weight bias

/-- The layer with given weights, `[inputs, units]`, and a bias of `[units]`. -/
def denseWith (weight : Tensor) (bias : Option Tensor) (activation : Activation) :
    Outcome Component :=
  match weight.shape.dims with
  | [inFeatures, units] => do
    if let some b := bias then
      if b.shape.dims ≠ [units] then
        throw (.shapeMismatch (.biasShape units b.shape))
    return denseOf { inFeatures, units, activation, useBias := bias.isSome } weight bias
  | _ => .error (.shapeMismatch (.weightNotMatrix weight.shape))

def denseConstructor (generator : Random.Generator := Random.seeded) : Constructor where
  tag := denseKind
  build args _ := do
    match ← args.tensor "weights" with
    | some weight =>
      let bias ← args.tensor "bias"
      let activation ← args.getOr "activation" (Json.variant Activation.known) .linear
      return .leaf denseKind (← denseWith weight bias activation)
    | none => return .leaf denseKind (dense (← args.parse DenseConfig.ofFields) generator)

end ComponentFlow.Layers
