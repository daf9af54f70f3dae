/-
  ComponentFlow.Proofs.Sequences — the reference kernels on sequences of steps. A sequence is a vector of
  floats with an element for each step; kernels on sequences of one length give sequences of that length,
  and each element is what the elements at its step come to. Two kernels look further: shifting, at
  the next step, and discounted sums, at all later steps up to a reset (`Kernel.execute_discountedSum`).

  - `Tensor.series`: the sequence whose element at step `t` is `f t`.
  - `Kernel.sumFrom_step`, `Kernel.sumFrom_congr`: how a sum goes on, and how far it looks.
-/
import ComponentFlow.Proofs.Pointwise

namespace ComponentFlow

/-- The sequence of `n` steps whose element at step `t` is `f t`. -/
def Tensor.series (n : Nat) (f : Nat → Float32) : Tensor :=
  ⟨.f32, ⟨[n]⟩, ((List.range n).map f).toArray, by simp [Shape.count]⟩

/-- The element at step `t`. -/
def Tensor.step (x : Tensor) (t : Nat) : Float32 := x.data.getD t 0

namespace Tensor

variable {n : Nat} {f : Nat → Float32} {x : Tensor}

theorem step_series {t : Nat} (ht : t < n) : (series n f).step t = f t := by
  simp [step, series, Array.getD, ht]

theorem series_eq_tabulated : series n f = tabulated .f32 ⟨[n]⟩ f := by
  have hcount : Shape.count ⟨[n]⟩ = n := by simp [Shape.count]
  simp only [series, tabulated, hcount]

end Tensor

namespace Kernel

open Tensor (series)

variable {n : Nat} {f g : Nat → Float32} {x : Tensor}

/-- A payload with an element for each step makes a sequence. -/
theorem execute_series {p : Primitive} {ts : List Tensor}
    (hinfer : p.infer (ts.map Tensor.spec) = .ok ⟨.f32, [.fixed n]⟩)
    (hdata : compute p ts ⟨[n]⟩ = .ok ((List.range n).map f).toArray) : execute p ts = .ok (series n f) := by
  have hcount : Shape.count ⟨[n]⟩ = n := by simp [Shape.count]
  rw [Tensor.series_eq_tabulated]
  exact execute_tabulated hinfer (hcount.symm ▸ hdata)

theorem execute_stopGradient : execute .stopGradient [series n f] = .ok (series n f) :=
  execute_series rfl rfl

/-! ## One step at a time -/

theorem reads_series : Reads (series n f) ⟨[n]⟩ f := Tensor.series_eq_tabulated ▸ reads_tabulated

theorem execute_cast_series (h : x.shape.dims = [n]) : execute (.cast .f32) [x] = .ok (series n x.step) := by
  have hshape : x.shape = ⟨[n]⟩ := congrArg Shape.mk h
  rw [execute_cast, hshape, Tensor.series_eq_tabulated]
  rfl

theorem execute_binary_series (op : BinaryOp) : execute (.binary op) [series n f, series n g] =
    .ok (series n fun t => op.apply (f t) (g t)) := by
  rw [Tensor.series_eq_tabulated (f := fun t => op.apply (f t) (g t))]
  exact execute_binary op reads_series reads_series (.inl rfl) rfl

theorem execute_binary_left (op : BinaryOp) (a : Float32) : execute (.binary op) [Tensor.scalar a, series n f] =
    .ok (series n fun t => op.apply a (f t)) := by
  rw [Tensor.series_eq_tabulated (f := fun t => op.apply a (f t))]
  exact execute_binary op (reads_scalarOf .f32 a _) reads_series (.inr rfl) rfl

theorem execute_binary_right (op : BinaryOp) (a : Float32) : execute (.binary op) [series n f, Tensor.scalar a] =
    .ok (series n fun t => op.apply (f t) a) := by
  rw [Tensor.series_eq_tabulated (f := fun t => op.apply (f t) a)]
  exact execute_binary op reads_series (reads_scalarOf .f32 a _) (.inl rfl) rfl

/-! ## The next step -/

theorem execute_shiftLeft (fill : Float32) : execute (.shiftLeft fill) [series n f] =
    .ok (series n fun t => if t + 1 < n then f (t + 1) else fill) := by
  refine execute_series rfl ?_
  show shiftLeft (series n f) fill = _
  have hdims : (series n f).shape.dims = n :: [] := rfl
  unfold shiftLeft
  rw [leadingExtent_cons hdims]
  by_cases hn : n = 0
  · subst hn
    rfl
  have hsize : (series n f).size = n := by simp [Tensor.size, series]
  have hlater : readFrom (series n f) 1 = .ok ((series n f).data.extract 1 (series n f).size) :=
    if_pos (by omega)
  have hrow : rowSize (series n f) n = .ok 1 := rowSize_steps hdims hn
  have hdata : (series n f).data.extract 1 (series n f).size ++ Array.replicate 1 fill =
      ((List.range n).map fun t => if t + 1 < n then f (t + 1) else fill).toArray := by
    refine Array.ext (by simp [series, Tensor.size]; omega) fun t ht _ => ?_
    have hsizes : ((series n f).data.extract 1 (series n f).size).size = n - 1 := by simp [series, Tensor.size]
    rw [Array.getElem_append]
    by_cases hnext : t + 1 < n
    · simp [series, Tensor.size, hnext, Nat.lt_sub_of_add_lt hnext]
    · have hlast : ¬ t < n - 1 := by omega
      simp [series, Tensor.size, hnext, hlast]
  simp [hn, hrow, hlater, ← hdata, bind, Except.bind]

/-! ## All later steps -/

/-- Behind the last step there is nothing to drop. -/
theorem sumFrom_step (discount : Float32) (values resets : Nat → Float32) {t : Nat} (ht : t < n) :
    sumFrom discount values resets (n - t) t = values t + discount *
      (if t + 1 < n ∧ (resets t == 0) = true then sumFrom discount values resets (n - (t + 1)) (t + 1) else 0) := by
  have hleft : n - t = n - (t + 1) + 1 := by omega
  have hlater : (if (resets t == 0) = true then sumFrom discount values resets (n - (t + 1)) (t + 1) else 0) =
      if t + 1 < n ∧ (resets t == 0) = true then sumFrom discount values resets (n - (t + 1)) (t + 1) else 0 := by
    by_cases hnext : t + 1 < n
    · simp only [hnext, true_and]
    · have hnone : n - (t + 1) = 0 := by omega
      simp only [hnext, false_and, hnone, sumFrom, ite_self]
  rw [hleft, sumFrom, hlater]

/-- A sum depends on the steps up to the first reset. -/
theorem sumFrom_congr {discount : Float32} {values values' resets resets' : Nat → Float32} {left t : Nat}
    (h : ∀ u, t ≤ u → u < t + left → (∀ w, t ≤ w → w < u → (resets w == 0) = true) →
      values u = values' u ∧ resets u = resets' u) :
    sumFrom discount values resets left t = sumFrom discount values' resets' left t := by
  induction left generalizing t with
  | zero => rfl
  | succ left ih =>
    obtain ⟨hvalue, hreset⟩ := h t (Nat.le_refl t) (by omega) fun w hle hlt => by omega
    unfold sumFrom
    rw [← hvalue, ← hreset]
    by_cases hopen : (resets t == 0) = true
    · have hlater := ih (t := t + 1) fun u hle hlt hbefore => h u (by omega) (by omega) fun w hw hwu => by
        rcases Nat.eq_or_lt_of_le hw with rfl | hw
        · exact hopen
        · exact hbefore w hw hwu
      rw [hlater]
    · simp only [hopen, Bool.false_eq_true, if_false]

theorem execute_discountedSum (discount : Float32) : execute (.discountedSum discount) [series n f, series n g] =
    .ok (series n fun t => sumFrom discount f g (n - t) t) := by
  refine execute_series ?_ ?_
  · simp [Primitive.infer, Primitive.inferDiscountedSum, Primitive.checkFloat, Tensor.spec, TensorSpec.ofShape,
      TensorSpec.rank, series, DType.isFloat, Dim.allCompatible, Dim.compatible, bind, Except.bind]
  have hdims : (series n f).shape.dims = n :: [] := rfl
  have hplaces := discountedSum_places (z := series n g) hdims rfl discount
  have hcolumn : ∀ (h : Nat → Float32) (u : Nat), u < n → (series n h).column [] 0 u = h u := by
    intro h u hu
    simp [Tensor.column, series, Array.getD, hu]
  refine hplaces.trans (congrArg Except.ok (congrArg List.toArray ?_))
  simp only [Shape.product_nil, Nat.mul_one, Nat.div_one, Nat.mod_one]
  refine List.map_congr_left fun t ht => sumFrom_congr fun u _ hu _ => ?_
  have hu : u < n := by
    have := List.mem_range.mp ht
    omega
  exact ⟨hcolumn f u hu, hcolumn g u hu⟩

end Kernel

end ComponentFlow
