/-
  ComponentFlow.Tensor.Close — tensors that agree up to rounding: the same element type and shape,
  and elements that differ by little. An infinity is close to nothing, since its difference from
  itself is not a number.
-/
import ComponentFlow.Tensor.Basic

namespace ComponentFlow

/-- How far elements may be apart. -/
def Scalar.tolerance : Float32 := 1e-5

def Scalar.close (a b : Float32) : Bool := (a - b).abs ≤ tolerance

def Tensor.close (a b : Tensor) : Bool :=
  a.dtype == b.dtype && a.shape == b.shape
    && (a.data.toList.zip b.data.toList).all fun (x, y) => Scalar.close x y

end ComponentFlow
