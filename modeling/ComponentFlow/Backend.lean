/-
  ComponentFlow.Backend — how a graph runs: the mode of evaluation and the kernels. A
  configuration may leave either open; the open mode is symbolic, the open kernels are the
  reference kernels.
-/
import ComponentFlow.Kernel.Catalogue

namespace ComponentFlow

structure Backend where
  mode : Mode
  kernels : Kernels

namespace Backend

/-- The text in diagnostics. -/
def debugText (b : Backend) : String :=
  "ExecutionBackend \x7b kind: " ++ b.mode.title ++ ", kernels: " ++ Text.quoted b.kernels.name
    ++ " \x7d"

/-- The backend of graphs that nothing is chosen for. -/
def standard : Backend := ⟨.standard, .reference⟩

end Backend

/-- A choice of backend, each part of which may be left open. -/
structure GraphConfig where
  backend : Option Mode
  kernels : Option String
  deriving DecidableEq, Repr

namespace GraphConfig

/-- Reads a configuration from an object, where a missing field is open, or from an array of its
two parts, where missing ones at the end are. -/
def ofJson? (v : Json) : Option GraphConfig :=
  let mode := Json.optional (Json.variant Mode.known)
  let name := Json.optional Json.text
  let build (backend kernels : Json) : Option GraphConfig := do
    some ⟨← (mode backend).toOption, ← (name kernels).toOption⟩
  match v with
  | .object fields =>
    build ((Json.field? fields "backend").getD .null) ((Json.field? fields "kernels").getD .null)
  | .array [] => build .null .null
  | .array [backend] => build backend .null
  | .array [backend, kernels] => build backend kernels
  | _ => none

def backend? (c : GraphConfig) : Outcome Backend := do
  let kernels ← match c.kernels with
    | some name => Kernels.named name
    | none => .ok .reference
  .ok ⟨c.backend.getD .standard, kernels⟩

end GraphConfig

end ComponentFlow
