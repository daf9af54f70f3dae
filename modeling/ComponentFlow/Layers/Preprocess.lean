/-
  ComponentFlow.Layers.Preprocess — elementwise layers that prepare observations: scaling,
  clipping, and conversion to floating point. Each has the one method `preprocess`, whose body is
  one primitive.
-/
import ComponentFlow.Json.Reader
import ComponentFlow.Layers.Roles
import ComponentFlow.Spec.Constructor

namespace ComponentFlow.Layers

/-- The component that applies `p` to its input and further operands. -/
def preprocessing (kind : String) (config : Json) (rule : OutputRule) (p : Primitive)
    (operands : List Ref) : Component where
  kind := kind
  config := config
  methods := [{
    name := preprocess
    inputs := [Signature.required "x"]
    outputs := [⟨"y", rule⟩]
    body := .straight [.apply p (.input 0 :: operands)] [.first 0] }]

/-! ## Scaling -/

def scaleKind : String := "scale"

/-- Multiplies every element by `factor`. -/
def scale (factor : Float32) : Component :=
  preprocessing scaleKind (.object [("factor", Json.ofSingle factor)]) (.likeInput 0)
    (.binary .mul) [.scalar factor]

def scaleConstructor : Constructor where
  tag := scaleKind
  build args _ := do
    let factor ← args.require "factor" Json.single
    return .leaf scaleKind (scale factor)

/-! ## Clipping -/

def clipKind : String := "clip"

/-- Moves every element into `[lo, hi]`. The bounds must not be inverted. -/
def clip (lo hi : Float32) : Outcome Component :=
  if lo > hi then Outcome.invalid (.clipBounds lo hi)
  else .ok (preprocessing clipKind
    (.object [("max", Json.ofSingle hi), ("min", Json.ofSingle lo)]) (.likeInput 0)
    (.clip lo hi) [])

def clipBounds (fields : Json.Fields) : Except Json.ReadError (Float32 × Float32) := do
  Json.checkFields [("min", Json.checked Json.single), ("max", Json.checked Json.single)] fields
  return (← Json.required fields "min" Json.single, ← Json.required fields "max" Json.single)

def clipConstructor : Constructor where
  tag := clipKind
  build args _ := do
    let (lo, hi) ← args.parse clipBounds
    return .leaf clipKind (← clip lo hi)

/-! ## Conversion -/

def toFloatKind : String := "convert-to-float"

/-- Casts integers and flags to floating point. -/
def toFloat : Component :=
  preprocessing toFloatKind .null (.likeInputAs 0 .f32) (.cast .f32) []

def toFloatConstructor : Constructor where
  tag := toFloatKind
  build _ _ := .ok (.leaf toFloatKind toFloat)

end ComponentFlow.Layers
