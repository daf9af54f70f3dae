/-
  ComponentFlow.Proofs.Discounting — discounted sums of sequences of any rank. A step is a row of places, one for each
  multi-index of the trailing axes, and every place is summed by itself from the last step to the first. What is seen
  from a step ends with the next reset (`Kernels.discounted_sums_recur`): the sums of earlier steps, of other places and
  behind the reset never enter.
-/
import ComponentFlow.Proofs.Sequences

namespace ComponentFlow

theorem DType.coerce_float {dtype : DType} (h : dtype.isFloat = true) (v : Float32) : dtype.coerce v = v := by
  cases dtype <;> first | rfl | cases h

namespace Kernel

variable {x z y : Tensor} {steps t j : Nat} {rest : List Nat} {discount : Float32}

theorem execute_discounted (hx : x.shape.dims = steps :: rest) (hsame : x.shape = z.shape)
    (hfloat : x.dtype.isFloat = true) (discount : Float32) : execute (.discountedSum discount) [x, z] =
      .ok (.tabulated x.dtype x.shape fun i =>
        sumFrom discount (x.column rest (i % Shape.product rest)) (z.column rest (i % Shape.product rest))
          (steps - i / Shape.product rest) (i / Shape.product rest)) := by
  have hinfer : (Primitive.discountedSum discount).infer [x.spec, z.spec] = .ok (.ofShape x.dtype x.shape) :=
    Primitive.inferDiscountedSum_iff.mpr ⟨hfloat, by simp [hx], hsame, rfl⟩
  have hcount : x.shape.count = steps * Shape.product rest := by simp [Shape.count, hx]
  rw [execute_tabulated hinfer (hcount ▸ discountedSum_places hx hsame discount)]
  simp only [DType.coerce_float hfloat]

theorem column_discounted (hx : x.shape.dims = steps :: rest)
    (hy : execute (.discountedSum discount) [x, z] = .ok y) (ht : t < steps) (hj : j < Shape.product rest) :
    y.column rest j t = sumFrom discount (x.column rest j) (z.column rest j) (steps - t) t := by
  obtain ⟨hfloat, -, hsame, -⟩ := Primitive.inferDiscountedSum_iff.mp (infer_of_execute rfl hy)
  have hplace : t * Shape.product rest + j < x.shape.count := by
    rw [Shape.count, hx]
    exact row_index_lt ht hj
  obtain ⟨hdiv, hmod⟩ := place_in_row (r := t) hj
  rw [execute_discounted hx hsame hfloat] at hy
  cases hy
  rw [Tensor.column, Array.getD_eq_getD_getElem?, Tensor.getElem?_tabulated hplace, hdiv, hmod]
  rfl

end Kernel

namespace Kernels

variable {x z : Tensor} {steps : Nat} {rest : List Nat}

/-- The sum in a place of a step is the value there and, unless the step is the last or resets the place, the
    discounted sum in this place of the next step. Values that are no floats are refused. A sum is the same for other
    values and resets that agree in its place from its step on, up to the first reset. -/
theorem discounted_sums_recur (discount : Float32) (hx : x.shape.dims = steps :: rest) (hsame : x.shape = z.shape) :
    (x.dtype.isFloat = true → ∃ y, reference.execute (.discountedSum discount) [x, z] = .ok y ∧ y.spec = x.spec ∧
      ∀ t < steps, ∀ j < Shape.product rest, y.column rest j t = x.column rest j t + discount *
        (if t + 1 < steps ∧ (z.column rest j t == 0) = true then y.column rest j (t + 1) else 0)) ∧
    (x.dtype.isFloat = false → reference.execute (.discountedSum discount) [x, z] =
      .error (.shape (.notFloat (Primitive.discountedSum discount).name x.spec))) ∧
    ∀ x' z' y y' : Tensor, x'.shape = x.shape → reference.execute (.discountedSum discount) [x, z] = .ok y →
      reference.execute (.discountedSum discount) [x', z'] = .ok y' → ∀ t < steps, ∀ j < Shape.product rest,
        (∀ u, t ≤ u → u < steps → (∀ w, t ≤ w → w < u → (z.column rest j w == 0) = true) →
          x.column rest j u = x'.column rest j u ∧ z.column rest j u = z'.column rest j u) →
        y.column rest j t = y'.column rest j t := by
  refine ⟨fun hfloat => ?_, fun hfloat => ?_, ?_⟩
  · have hy : reference.execute (.discountedSum discount) [x, z] = .ok _ :=
      Kernel.execute_discounted hx hsame hfloat discount
    refine ⟨_, hy, rfl, fun t ht j hj => ?_⟩
    rw [Kernel.column_discounted hx hy ht hj, Kernel.sumFrom_step _ _ _ ht]
    by_cases hnext : t + 1 < steps ∧ (z.column rest j t == 0) = true
    · rw [if_pos hnext, if_pos hnext, Kernel.column_discounted hx hy hnext.1 hj]
    · rw [if_neg hnext, if_neg hnext]
  · have hspec : x.spec.dtype.isFloat = false := hfloat
    refine Kernel.execute_refused ?_
    simp [Primitive.infer, Primitive.inferDiscountedSum, Primitive.checkFloat, hspec, bind, Except.bind]
  · intro x' z' y y' hshape hy hy' t ht j hj hagree
    have hx' : x'.shape.dims = steps :: rest := hshape ▸ hx
    rw [Kernel.column_discounted hx hy ht hj, Kernel.column_discounted hx' hy' ht hj]
    refine Kernel.sumFrom_congr fun u hle hlt hopen => ?_
    exact hagree u hle (by omega) hopen

/-- Three steps of two places. -/
def gains : Tensor := ⟨.f32, ⟨[3, 2]⟩, #[1, 10, 2, 20, 4, 40], rfl⟩

/-- A reset of the first place at the second step. -/
def cuts : Tensor := ⟨.bool, ⟨[3, 2]⟩, #[0, 0, 1, 0, 0, 0], rfl⟩

/-- The same up to this reset. -/
def otherGains : Tensor := ⟨.f32, ⟨[3, 2]⟩, #[1, -10, 2, -20, -4, -40], rfl⟩

theorem gains_up_to_reset : ∃ y y', reference.execute (.discountedSum 0.5) [gains, cuts] = .ok y ∧
    reference.execute (.discountedSum 0.5) [otherGains, cuts] = .ok y' ∧ y.spec = .ofShape .f32 ⟨[3, 2]⟩ ∧
    y.column [2] 0 0 = 2 ∧ y.column [2] 0 0 = y'.column [2] 0 0 := by
  have hdims : gains.shape.dims = 3 :: [2] := rfl
  have hdims' : otherGains.shape.dims = 3 :: [2] := rfl
  obtain ⟨hsums, -, hlocal⟩ := discounted_sums_recur (z := cuts) 0.5 hdims rfl
  obtain ⟨hsums', -⟩ := discounted_sums_recur (z := cuts) 0.5 hdims' rfl
  obtain ⟨y, hy, hspec, hrecur⟩ := hsums rfl
  obtain ⟨y', hy', -⟩ := hsums' rfl
  have hopen : 0 + 1 < 3 ∧ (cuts.column [2] 0 0 == 0) = true := by decide +kernel
  have hreset : ¬ (1 + 1 < 3 ∧ (cuts.column [2] 0 1 == 0) = true) := by decide +kernel
  have hvalues : gains.column [2] 0 0 + 0.5 * (gains.column [2] 0 1 + 0.5 * 0) = 2 := by decide +kernel
  refine ⟨y, y', hy, hy', hspec, ?_, ?_⟩
  · rw [hrecur 0 (by decide) 0 (by decide), if_pos hopen, hrecur 1 (by decide) 0 (by decide), if_neg hreset, hvalues]
  · refine hlocal otherGains cuts y y' rfl hy hy' 0 (by decide) 0 (by decide) fun u _ hu hbefore => ?_
    have hcut : ¬ (cuts.column [2] 0 1 == 0) = true := by decide +kernel
    have hu : u = 0 ∨ u = 1 := by
      by_contra hlate
      exact hcut (hbefore 1 (by omega) (by omega))
    rcases hu with rfl | rfl
    · exact ⟨by decide +kernel, rfl⟩
    · exact ⟨by decide +kernel, rfl⟩

end Kernels

end ComponentFlow
