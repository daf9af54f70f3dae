/-
  ComponentFlow.Kernel.MatMul — the matrix product, one row at a time: a row starts at zero and
  takes in the rows of the right operand, each scaled by an entry of the left operand's row.
-/
import ComponentFlow.Kernel.Basic

namespace ComponentFlow.Kernel

/-- Adds row `j` of `b`, which has `n` columns, scaled by `scale`. -/
def addScaledRow (b : Tensor) (n j : Nat) (scale : Float32) (row : List Float32) :
    Result (List Float32) :=
  row.zipIdx.mapM fun (sum, c) => do
    let x ← read b (j * n + c)
    .ok (sum + scale * x)

/-- Row `r` of the product of `a`, which has `k` columns, and `b`, which has `n`. -/
def productRow (a b : Tensor) (k n r : Nat) : Result (List Float32) :=
  (List.range k).foldlM (fun row j => do
    let scale ← read a (r * k + j)
    addScaledRow b n j scale row) (List.replicate n 0)

def matMul (a b : Tensor) : Result (Array Float32) :=
  match a.shape.dims, b.shape.dims with
  | [m, k], [_, n] =>
    (fun rows => rows.flatten.toArray) <$> (List.range m).mapM fun r => productRow a b k n r
  | _, _ => .error (.shape (.notMatrices a.spec b.spec))

end ComponentFlow.Kernel
