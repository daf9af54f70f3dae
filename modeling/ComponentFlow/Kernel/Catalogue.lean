/-
  ComponentFlow.Kernel.Catalogue — kernels by name: the reference kernels, the same ones under
  observation, and two that stand in for an implementation gone wrong.
-/
import ComponentFlow.Kernel.Reference

namespace ComponentFlow.Kernels

/-- Counts each evaluation in its own tally, failing ones as well, and hands it on to `inner`. What
`inner` keeps of it is not seen from outside. -/
def recording (inner : Kernels) : Kernels where
  name := "recording"
  run p operands tally :=
    let tally := tally.add p.name
    (inner.execute p operands, tally)
  steady _ _ _ _ := rfl

/-- Every primitive gives the scalar zero. -/
def scalar : Kernels := plain "scalar" fun _ _ => .ok (Tensor.scalar 0)

/-- Every primitive fails. -/
def broken : Kernels :=
  plain "broken" fun p _ => .error (.unimplemented p.name "broken kernels")

/-- All kernels that can be asked for by name, in the order of their names. -/
def catalogue : List Kernels := [broken, recording reference, reference, scalar]

def names : List String := catalogue.map Kernels.name

def find? (name : String) : Option Kernels := catalogue.find? fun k => k.name == name

/-- The kernels of that name. -/
def named (name : String) : Outcome Kernels :=
  match find? name with
  | some k => .ok k
  | none => .error (.kernel (.unimplemented "kernels"
      ("no kernels registered as '" ++ name ++ "' (available: " ++ ", ".intercalate names ++ ")")))

end ComponentFlow.Kernels
