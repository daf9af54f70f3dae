/-
  ComponentFlow.Tensor.Shape — extents of concrete tensors and row-major strides. Rank zero is a
  scalar, which has one element.
-/

namespace ComponentFlow

structure Shape where
  dims : List Nat
  deriving DecidableEq, Repr, Inhabited

namespace Shape

def scalar : Shape := ⟨[]⟩

def rank (s : Shape) : Nat := s.dims.length

/-- The product of extents, a number of any size. Machine words count the same as long as every run of axes has no more
    elements than there are words, and wrap or stop beyond that. -/
def product (dims : List Nat) : Nat := dims.foldr (· * ·) 1

/-- The number of elements. -/
def count (s : Shape) : Nat := product s.dims

/-- How many elements lie between neighbours along each axis. -/
def stridesOf : List Nat → List Nat
  | [] => []
  | _ :: rest => product rest :: stridesOf rest

def strides (s : Shape) : List Nat := stridesOf s.dims

def text (s : Shape) : String := "[" ++ ", ".intercalate (s.dims.map toString) ++ "]"

end Shape

end ComponentFlow
