/-
  ComponentFlow.Tensor.Basic — dense row-major tensors. The type keeps the length of the payload
  equal to the number of elements of the shape; `ofData` is the checked constructor, and it
  coerces the payload to the element type.
-/
import ComponentFlow.Tensor.Mismatch

namespace ComponentFlow

structure Tensor where
  dtype : DType
  shape : Shape
  data : Array Float32
  size_eq : data.size = shape.count

namespace Tensor

instance : Inhabited Tensor := ⟨⟨.f32, .scalar, #[0], rfl⟩⟩

/-- The tensor with this payload, coerced to `dtype`. -/
def ofData (dtype : DType) (shape : Shape) (data : Array Float32) : Except Mismatch Tensor :=
  if h : data.size = shape.count then
    .ok ⟨dtype, shape, data.map dtype.coerce, by simp [h]⟩
  else .error (.dataLength data.size shape)

def ofFloats (shape : Shape) (data : Array Float32) : Except Mismatch Tensor :=
  ofData .f32 shape data

def ofInts (shape : Shape) (data : Array Int) : Except Mismatch Tensor :=
  ofData .i32 shape (data.map Scalar.ofInt)

def ofBools (shape : Shape) (data : Array Bool) : Except Mismatch Tensor :=
  ofData .bool shape (data.map Scalar.ofBool)

def scalarOf (dtype : DType) (x : Float32) : Tensor := ⟨dtype, .scalar, #[x], rfl⟩

def scalar (x : Float32) : Tensor := scalarOf .f32 x

def scalarInt (n : Int) : Tensor := scalarOf .i32 (Scalar.ofInt n)

def scalarBool (b : Bool) : Tensor := scalarOf .bool (Scalar.ofBool b)

/-- Every element is `x`. -/
def full (shape : Shape) (x : Float32) : Tensor :=
  ⟨.f32, shape, Array.replicate shape.count x, by simp⟩

def zeros (shape : Shape) : Tensor := full shape 0

def ones (shape : Shape) : Tensor := full shape 1

def size (t : Tensor) : Nat := t.data.size

def isEmpty (t : Tensor) : Bool := t.size == 0

/-- Elements as integers, rounded toward zero. -/
def toInts (t : Tensor) : List Int := t.data.toList.map Scalar.toInt32

/-- Elements as booleans: whatever is not zero is true. -/
def toBools (t : Tensor) : List Bool := t.data.toList.map (· != 0)

/-- The element of a tensor that has one. -/
def item (t : Tensor) : Except Mismatch Float32 :=
  match t.data.toList with
  | [x] => .ok x
  | _ => .error (.notSingle t.shape)

/-- The same payload under another shape with as many elements. -/
def reshape (t : Tensor) (shape : Shape) : Except Mismatch Tensor :=
  if h : t.data.size = shape.count then .ok ⟨t.dtype, shape, t.data, h⟩
  else .error (.reshape t.size shape)

/-- The spec that says all of a tensor but its payload. -/
def spec (t : Tensor) : TensorSpec := .ofShape t.dtype t.shape

/-- Same type, same shape, and every element the same bits and not NaN. -/
def identical (a b : Tensor) : Bool :=
  a.dtype == b.dtype && a.shape == b.shape
    && (a.data.toList.zip b.data.toList).all fun (x, y) => Scalar.identical x y

end Tensor

/-- Whether a tensor may stand where the spec is declared. -/
def TensorSpec.admits (s : TensorSpec) (t : Tensor) : Bool :=
  t.dtype == s.dtype && Dim.allAdmit s.dims t.shape.dims

end ComponentFlow
