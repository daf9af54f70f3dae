/-
  ComponentFlow.Spec.Basic — component specs: a type tag with named arguments, written as one JSON
  object whose field `type` is the tag. A spec says what to construct; a source of an assembly is
  such a description or the assembly itself.
-/
import ComponentFlow.Component.Basic
import ComponentFlow.Json.Parser

namespace ComponentFlow

structure ComponentSpec where
  tag : String
  /-- The arguments, sorted by key. -/
  args : Json.Fields

namespace ComponentSpec

/-- The field that holds the tag. -/
def tagKey : String := "type"

def ofJson (v : Json) : Outcome ComponentSpec :=
  match v with
  | .object fields =>
    match Json.field? fields tagKey with
    | none => Outcome.invalid (.missingTag v)
    | some tag =>
      match Json.text tag with
      | .ok tag => .ok ⟨tag, fields.filter fun (key, _) => key != tagKey⟩
      | .error cause => Outcome.invalid (.unreadable cause)
  | _ => Outcome.invalid (.notObject v)

def ofText (text : String) : Outcome ComponentSpec :=
  match Json.parse? text with
  | some v => ofJson v
  | none => Outcome.invalid .notJson

/-- The arguments as one value. -/
def argsJson (s : ComponentSpec) : Json := .object s.args

/-- How deep specs can be nested in the arguments. -/
def depth (s : ComponentSpec) : Nat := s.argsJson.depth

end ComponentSpec

/-- What an assembly can be made from. -/
inductive AssemblySource where
  /-- An assembly that is passed through. -/
  | instance (a : Assembly)
  | spec (s : ComponentSpec)
  /-- The JSON form of a spec. -/
  | json (v : Json)

end ComponentFlow
