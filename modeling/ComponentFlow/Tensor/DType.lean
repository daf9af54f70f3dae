/-
  ComponentFlow.Tensor.DType — element types. Every payload is held in single precision; an
  integer or boolean element is the single-precision value of that integer, with 0 and 1 for
  booleans.
-/
import ComponentFlow.Scalar.Basic

namespace ComponentFlow

inductive DType where
  | f32
  | i32
  | bool
  deriving DecidableEq, Repr, Inhabited

namespace DType

def isFloat : DType → Bool
  | .f32 => true
  | _ => false

def name : DType → String
  | .f32 => "f32"
  | .i32 => "i32"
  | .bool => "bool"

def ofName? : String → Option DType
  | "f32" => some .f32
  | "i32" => some .i32
  | "bool" => some .bool
  | _ => none

/-- The payload value that stands for `x` in this type: integers drop the fraction, and every
value that is not zero, NaN included, is a true boolean. -/
def coerce : DType → Float32 → Float32
  | .f32, x => x
  | .i32, x => Scalar.trunc x
  | .bool, x => Scalar.ofBool (x != 0)

end DType

end ComponentFlow
