/-
  ComponentFlow.Tensor.Spec — what is known of a tensor before it exists: its element type and,
  per axis, an extent or the name of one that varies from run to run.

  `Dim.admits` relates an axis to a concrete extent and `Dim.compatible` two axes of specs; the
  latter is reflexive and symmetric but not transitive, since a named extent agrees with any other.
-/
import ComponentFlow.Tensor.DType
import ComponentFlow.Tensor.Shape

namespace ComponentFlow

/-- The extent of one axis. -/
inductive Dim where
  | fixed (extent : Nat)
  | named (symbol : String)
  deriving DecidableEq, Repr, Inhabited

namespace Dim

def extent? : Dim → Option Nat
  | .fixed n => some n
  | .named _ => none

/-- Two axes agree unless both extents are fixed and differ. -/
def compatible : Dim → Dim → Bool
  | .fixed a, .fixed b => a == b
  | _, _ => true

def admits : Dim → Nat → Bool
  | .fixed n, extent => n == extent
  | .named _, _ => true

def text : Dim → String
  | .fixed n => toString n
  | .named symbol => "?" ++ symbol

/-- All axes agree; the ranks are equal. -/
def allCompatible : List Dim → List Dim → Bool
  | [], [] => true
  | a :: as, b :: bs => a.compatible b && allCompatible as bs
  | _, _ => false

/-- All extents fit their axes; the ranks are equal. -/
def allAdmit : List Dim → List Nat → Bool
  | [], [] => true
  | d :: ds, n :: ns => d.admits n && allAdmit ds ns
  | _, _ => false

/-- A list of axes in messages. -/
def listText (dims : List Dim) : String := "[" ++ ",".intercalate (dims.map text) ++ "]"

end Dim

structure TensorSpec where
  dtype : DType
  dims : List Dim
  deriving DecidableEq, Repr, Inhabited

namespace TensorSpec

/-- The spec that only tensors of this shape satisfy. -/
def ofShape (dtype : DType) (s : Shape) : TensorSpec := ⟨dtype, s.dims.map .fixed⟩

def rank (s : TensorSpec) : Nat := s.dims.length

def withDType (s : TensorSpec) (dtype : DType) : TensorSpec := { s with dtype }

/-- The shape, when every extent is fixed. -/
def shape? (s : TensorSpec) : Option Shape := (s.dims.mapM Dim.extent?).map Shape.mk

def compatible (a b : TensorSpec) : Bool :=
  a.dtype == b.dtype && Dim.allCompatible a.dims b.dims

def text (s : TensorSpec) : String := s.dtype.name ++ Dim.listText s.dims

end TensorSpec

end ComponentFlow
