/-
  ComponentFlow.Mode — how calls are evaluated. Every mode has a name of its own and a few others
  by which it can be asked for.
-/
import ComponentFlow.Text.Blank

namespace ComponentFlow

inductive Mode where
  /-- Calls are recorded, compiled by `build`, and executed many times. -/
  | symbolic
  /-- Calls run their bodies on concrete tensors. -/
  | immediate
  deriving DecidableEq, Repr

namespace Mode

def name : Mode → String
  | .symbolic => "symbolic_graph"
  | .immediate => "immediate_tensor"

/-- The name in diagnostics. -/
def title : Mode → String
  | .symbolic => "SymbolicGraph"
  | .immediate => "ImmediateTensor"

/-- Reads a mode by one of its names, in any case of ASCII letters and with blanks around it. The
error is the message. -/
def parse (raw : String) : Except String Mode :=
  match String.ofList ((Text.trim raw.toList).map Char.toLower) with
  | "symbolic" | "symbolic_graph" | "graph" | "static" => .ok .symbolic
  | "immediate" | "immediate_tensor" | "eager" => .ok .immediate
  | other => .error s!"unknown backend '{other}'"

/-- The mode that is taken when none is chosen. -/
def standard : Mode := .symbolic

/-- The modes by the names that configurations use. -/
def known : List (String × Mode) :=
  [("symbolic_graph", .symbolic), ("immediate_tensor", .immediate)]

end Mode

end ComponentFlow
