/-
  ComponentFlow.Kernel.Tally — what was evaluated how often, by the names of the primitives.
-/

namespace ComponentFlow

/-- Numbers of evaluations by the name of the primitive. -/
abbrev Tally := List (String × Nat)

namespace Tally

def count (t : Tally) (name : String) : Nat := (t.lookup name).getD 0

def total (t : Tally) : Nat := t.foldl (fun n entry => n + entry.2) 0

/-- One more evaluation under this name. -/
def add (name : String) : Tally → Tally
  | [] => [(name, 1)]
  | (n, k) :: rest => if n = name then (n, k + 1) :: rest else (n, k) :: add name rest

end Tally

end ComponentFlow
