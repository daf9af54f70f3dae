/-
  ComponentFlow.Script.Definition — whole components as JSON: a kind, a configuration, and methods
  with their contracts and bodies. The registered constructor takes such a definition from the
  arguments of a spec, together with specs of the children.
-/
import ComponentFlow.Layers.Roles
import ComponentFlow.Script.Body
import ComponentFlow.Spec.Constructor

namespace ComponentFlow.Script

/-! ## Contracts -/

/-- The first input without its last axis; absent where there is none. -/
def dropLast (inputs : List (Option TensorSpec)) : Outcome (Option TensorSpec) :=
  match inputs.head?.join with
  | none => .ok none
  | some s =>
    if s.dims.isEmpty then .error (.shapeMismatch .noAxisToDrop)
    else .ok (some { s with dims := s.dims.dropLast })

def ruleOfJson : Json → Decoded OutputRule
  | .string "absent" => .ok .absent
  | .object [("like", i)] => .likeInput <$> .ofOption .malformed i.nat?
  | .object [("like_as", .array [i, dtype])] => do
    let index ← .ofOption .malformed i.nat?
    return .likeInputAs index (← .ofOption .rejected (dtype.string?.bind DType.ofName?))
  | .object [("fixed", spec)] => .fixed <$> TensorSpec.ofTextJson spec
  | .object [("derived", .string "drop_last")] => .ok (.derived dropLast)
  | .object [("derived", .string "fail")] => .ok (.derived fun _ => Outcome.invalid .ruleFailed)
  | _ => .error .malformed

def inputOfJson (v : Json) : Decoded InputSlot := do
  let name ← textField v "name"
  match v.get? "default" with
  | none => return Signature.required name
  | some (.string "absent") => return Signature.optionalInput name
  | some t => return Signature.inputOr name (← Tensor.ofJson t)

def outputOfJson (v : Json) : Decoded OutputSlot := do
  return ⟨← textField v "name", ← ruleOfJson (← field v "rule")⟩

def callOfJson : Json → Decoded (String × String)
  | .array [.string child, .string method] => .ok (child, method)
  | _ => .error .malformed

def methodOfJson (v : Json) : Decoded Method := do
  return {
    name := ← textField v "name"
    inputs := ← (← listOr v "inputs").mapM inputOfJson
    outputs := ← (← listOr v "outputs").mapM outputOfJson
    memoized := ← flagOr v "memoized" false
    postBuild := ← flagOr v "post_build" true
    calls := ← (← listOr v "calls").mapM callOfJson
    body := ← bodyOfJson v }

/-! ## Components -/

/-- The kind, the name and the tag of a component that is given none. -/
def standardName : String := "script"

def componentOfJson (v : Json) : Decoded Component := do
  let kind ← match v.get? "kind" with
    | some kind => .ofOption .malformed kind.string?
    | none => .ok standardName
  let methods ← (← listField v "methods").mapM methodOfJson
  return { kind, config := (v.get? "config").getD .null, methods }

/-- A definition among the arguments of a spec. -/
def componentOfArgument (v : Json) : Outcome Component :=
  (componentOfJson v).mapError fun
    | .refused cause => cause
    | .malformed | .rejected => .invalidSpec .badDefinition

/-- Takes the definition `def`, a `name`, the specs of the `children`, and one more preprocessor as
`extra`. -/
def constructor : Constructor where
  tag := standardName
  build args resolve := do
    let component ← componentOfArgument (← args.require "def" .ok)
    let name ← args.getOr "name" Json.text standardName
    let specs ← args.getOr "children" (Json.list .ok) []
    let children ← specs.mapM fun v => resolve (.json v) .any
    let extra ← match args.raw? "extra" with
      | some v => (fun a => [a]) <$> resolve (.json v) .preprocessor
      | none => .ok []
    return .mk name component (children ++ extra)

end ComponentFlow.Script
