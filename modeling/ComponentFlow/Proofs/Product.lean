/-
  ComponentFlow.Proofs.Product — the matrix product, entry by entry. The kernel takes in one row of the right operand
  after the other, and so works on all sums of a row at once. Each entry only ever sees its own row of the left operand
  and its own column of the right one, and takes its terms in from the left (`Kernels.product_entries`). That the sums
  stand in one payload, where each term is added in its place, makes no difference (`Kernel.matMul_in_place`).
-/
import ComponentFlow.Proofs.InPlace
import ComponentFlow.Proofs.Pointwise
import ComponentFlow.Proofs.Words

namespace ComponentFlow

namespace Kernel

variable {a b : Tensor} {m k n : Nat}

/-! ## In one payload -/

/-- The product put together in one payload, from zeros on: row by row, term by term, and each term of a row is added
    in place to the sum of its column. -/
def productInPlace (a b : Tensor) (m k n : Nat) : Result (Array Float32) :=
  (List.range m).foldlM (fun out r =>
    (List.range k).foldlM (fun out j => do
      let scale ← read a (r * k + j)
      (List.range n).foldlM (fun out c => do
        let x ← read b (j * n + c)
        update out (r * n + c) (· + scale * x)) out) out) (Array.replicate (m * n) 0)

section InPlace

variable {σ : Type} {i : Nat}

/-- Steps that change each place of a payload by what stands there do so one after the other. -/
theorem foldlM_in_place {xs : List σ} {step : Array Float32 → σ → Result (Array Float32)}
    {f : Nat → Float32 → σ → Float32} {size : Nat}
    (hstep : ∀ s ∈ xs, ∀ out, out.size = size → Succeeds (step out s) fun out' =>
      out'.size = size ∧ ∀ i, out'[i]? = out[i]?.map (f i · s)) (out : Array Float32) (hsize : out.size = size) :
    Succeeds (xs.foldlM step out) fun out' => out'.size = size ∧ ∀ i, out'[i]? = out[i]?.map (xs.foldl (f i)) := by
  induction xs generalizing out with
  | nil => exact succeeds_ok ⟨hsize, fun i => by simp⟩
  | cons s xs ih =>
    obtain ⟨hs, hxs⟩ := List.forall_mem_cons.mp hstep
    rw [List.foldlM_cons]
    refine (hs out hsize).bind fun out' hout' => (ih hxs out' hout'.1).imp fun out'' hout'' => ⟨hout''.1, fun i => ?_⟩
    rw [hout''.2 i, hout'.2 i, Option.map_map]
    rfl

/-- Of steps that are for one number each, only one is for `c`. -/
theorem foldl_once {α : Type} {n c : Nat} (hc : c < n) (g : α → Nat → α) (x : α) :
    (List.range n).foldl (fun x d => if d = c then g x d else x) x = g x c := by
  have hone : (List.range n).filter (· == c) = [c] := by
    rw [List.filter_beq, List.count_range, if_pos hc]
    rfl
  have hfilter : ((List.range n).filter (· == c)).foldl g x =
      (List.range n).foldl (fun x d => if (d == c) = true then g x d else x) x := List.foldl_filter
  rw [hone] at hfilter
  simpa using hfilter.symm

theorem productInPlace_places (ha : a.shape.dims = [m, k]) (hb : b.shape.dims = [k, n]) :
    Succeeds (productInPlace a b m k n) fun out => out.size = m * n ∧ ∀ i, out[i]? =
      (Array.replicate (m * n) (0 : Float32))[i]?.map ((List.range m).foldl fun x r => (List.range k).foldl (fun x j =>
        (List.range n).foldl (fun x c => if r * n + c = i then x + a.entry [r, j] * b.entry [j, c] else x) x) x) := by
  refine foldlM_in_place (fun r hr => foldlM_in_place fun j hj out hsize => ?_) _ Array.size_replicate
  have hr : r < m := List.mem_range.mp hr
  have hj : j < k := List.mem_range.mp hj
  rw [read_place (Tensor.size_matrix ha ▸ row_index_lt hr hj), ← Tensor.entry_matrix ha]
  refine foldlM_in_place (fun c hc out hsize => ?_) out hsize
  have hc : c < n := List.mem_range.mp hc
  rw [read_place (Tensor.size_matrix hb ▸ row_index_lt hj hc), ← Tensor.entry_matrix hb]
  refine (update_places (hsize ▸ row_index_lt hr hc) _).imp fun out' hout' => ⟨hout'.1.trans hsize, fun i => ?_⟩
  rw [hout'.2 i]
  split <;> simp

/-- Every sum stands in a place of its own. -/
theorem foldl_in_place (hi : i < m * n) (term : Nat → Nat → Nat → Float32) (x : Float32) :
    (List.range m).foldl (fun x r => (List.range k).foldl (fun x j => (List.range n).foldl (fun x c =>
      if r * n + c = i then x + term r j c else x) x) x) x =
      (List.range k).foldl (fun x j => x + term (i / n) j (i % n)) x := by
  have hn : 0 < n := Nat.pos_of_mul_pos_left (Nat.zero_lt_of_lt hi)
  have hrow : i / n < m := (Nat.div_lt_iff_lt_mul hn).mpr hi
  have hcolumns : ∀ r j (x : Float32), (List.range n).foldl (fun x c => if r * n + c = i then x + term r j c else x) x =
      if r = i / n then x + term r j (i % n) else x := by
    intro r j x
    rw [← foldl_once (Nat.mod_lt i hn) fun x c => if r = i / n then x + term r j c else x]
    refine List.foldl_ext _ _ _ fun x c hc => ?_
    obtain ⟨hdiv, hmod⟩ := place_in_row (r := r) (List.mem_range.mp hc)
    have hplace : r * n + c = i ↔ c = i % n ∧ r = i / n := by
      constructor
      · rintro rfl
        exact ⟨hmod.symm, hdiv.symm⟩
      · rintro ⟨rfl, rfl⟩
        exact Nat.div_add_mod' i n
    simp only [hplace]
    by_cases hc : c = i % n
    · simp only [hc, true_and, if_true]
    · simp only [hc, false_and, if_false]
  have hterms : ∀ r (x : Float32), (List.range k).foldl (fun x j => if r = i / n then x + term r j (i % n) else x) x =
      if r = i / n then (List.range k).foldl (fun x j => x + term r j (i % n)) x else x := by
    intro r x
    by_cases hr : r = i / n
    · simp only [if_pos hr]
    · simp only [if_neg hr, List.foldl_fixed]
  simp only [hcolumns, hterms]
  exact foldl_once hrow (fun x r => (List.range k).foldl (fun x j => x + term r j (i % n)) x) x

/-- Adding every term in place comes to the same as working row by row. -/
theorem matMul_in_place (ha : a.shape.dims = [m, k]) (hb : b.shape.dims = [k, n]) :
    matMul a b = productInPlace a b m k n := by
  obtain ⟨out, hout, -, hplaces⟩ := productInPlace_places ha hb
  rw [matMul_places ha hb, hout]
  refine congrArg Except.ok (Array.ext_getElem? fun i => ?_)
  rw [hplaces i]
  by_cases hi : i < m * n
  · simp only [Array.getElem?_replicate, if_pos hi, Option.map_some, foldl_in_place hi]
    simp [hi, rowByColumn]
  · simp [hi]

end InPlace

/-! ## The product -/

theorem infer_matMul (ha : a.shape.dims = [m, k]) (hb : b.shape.dims = [k, n]) (hdtype : a.dtype = b.dtype) :
    Primitive.matMul.infer [a.spec, b.spec] = .ok (.ofShape a.dtype ⟨[m, n]⟩) := by
  have haspec : a.spec = ⟨a.dtype, [.fixed m, .fixed k]⟩ := by
    simp only [Tensor.spec, TensorSpec.ofShape, ha, List.map_cons, List.map_nil]
  have hbspec : b.spec = ⟨b.dtype, [.fixed k, .fixed n]⟩ := by
    simp only [Tensor.spec, TensorSpec.ofShape, hb, List.map_cons, List.map_nil]
  simp only [haspec, hbspec, Primitive.infer, Primitive.inferMatMul, Primitive.checkSameDType_then]
  exact ⟨hdtype, if_pos (by simp [Dim.compatible])⟩

theorem execute_matMul (ha : a.shape.dims = [m, k]) (hb : b.shape.dims = [k, n]) (hdtype : a.dtype = b.dtype) :
    execute .matMul [a, b] =
      .ok (.tabulated a.dtype ⟨[m, n]⟩ fun i => a.dtype.coerce (rowByColumn a b k (i / n) (i % n))) := by
  have hcount : Shape.count ⟨[m, n]⟩ = m * n := by simp [Shape.count]
  exact execute_tabulated (infer_matMul ha hb hdtype) (hcount ▸ matMul_places ha hb)

end Kernel

namespace Kernels

open Kernel (rowByColumn)

variable {a b : Tensor} {m k n : Nat}

theorem element?_product {y : Tensor} (ha : a.shape.dims = [m, k]) (hb : b.shape.dims = [k, n])
    (hy : reference.execute .matMul [a, b] = .ok y) {r c : Nat} (hr : r < m) (hc : c < n) :
    a.dtype = b.dtype ∧ y.element? [r, c] = some (a.dtype.coerce (rowByColumn a b k r c)) := by
  have hinfer : Primitive.inferMatMul a.spec b.spec = .ok y.spec := Kernel.infer_of_execute rfl hy
  rw [Primitive.inferMatMul, Primitive.checkSameDType_then] at hinfer
  have hdtype : a.dtype = b.dtype := hinfer.1
  have hrun : reference.execute .matMul [a, b] = .ok _ := Kernel.execute_matMul ha hb hdtype
  obtain ⟨hrow, hcolumn⟩ := Kernel.place_in_row (r := r) hc
  cases hy.symm.trans hrun
  refine ⟨hdtype, ?_⟩
  rw [Tensor.element?_tabulated (.cons hr (.cons hc .nil))]
  simp [hrow, hcolumn]

/-- The payload of a product is what the terms come to when each is added in its place, and has in row `r` and column
    `c` the fold of the terms from these. The kernel gives the result its shape and coerces the entries; operands of
    different types it refuses. An entry stays the same in a product of other operands that share the row and the
    column. All of them must fit into machine words, as the product does not if its operands have no elements and many
    rows and columns. -/
theorem product_entries (ha : a.shape.dims = [m, k]) (hb : b.shape.dims = [k, n])
    (hfits : ∀ s ∈ [a.shape, b.shape, ⟨[m, n]⟩], s.Fits) :
    (∀ s ∈ [a.shape, b.shape, ⟨[m, n]⟩], s.Exact) ∧
    (∃ data, Kernel.matMul a b = .ok data ∧ Kernel.productInPlace a b m k n = .ok data ∧ data.size = m * n ∧
      ∀ r < m, ∀ c < n, data[r * n + c]? = some (rowByColumn a b k r c)) ∧
    (a.dtype = b.dtype → ∃ y, reference.execute .matMul [a, b] = .ok y ∧ y.spec = .ofShape a.dtype ⟨[m, n]⟩ ∧
      ∀ r < m, ∀ c < n, y.element? [r, c] = some (a.dtype.coerce (rowByColumn a b k r c))) ∧
    (a.dtype ≠ b.dtype → reference.execute .matMul [a, b] =
      .error (.shape (.dtypesDiffer Primitive.matMul.name a.spec b.spec))) ∧
    ∀ (a' b' y y' : Tensor) (m' n' : Nat), a'.shape.dims = [m', k] → b'.shape.dims = [k, n'] →
      (∀ s ∈ [a'.shape, b'.shape, ⟨[m', n']⟩], s.Fits) → a'.dtype = a.dtype →
      reference.execute .matMul [a, b] = .ok y → reference.execute .matMul [a', b'] = .ok y' →
      ∀ r c, r < m → r < m' → c < n → c < n' → (∀ j < k, a.element? [r, j] = a'.element? [r, j]) →
        (∀ j < k, b.element? [j, c] = b'.element? [j, c]) → y.element? [r, c] = y'.element? [r, c] := by
  have hplaces := Kernel.matMul_places ha hb
  refine ⟨fun s hs => Shape.exact_of_fits (hfits s hs),
    ⟨_, hplaces, (Kernel.matMul_in_place ha hb).symm.trans hplaces, by simp, fun r hr c hc => ?_⟩,
    fun hdtype => ⟨_, Kernel.execute_matMul ha hb hdtype, rfl, fun r hr c hc => ?_⟩, fun hdtype => ?_, ?_⟩
  · obtain ⟨hrow, hcolumn⟩ := Kernel.place_in_row (r := r) hc
    simp [Kernel.row_index_lt hr hc, hrow, hcolumn]
  · exact (element?_product ha hb (Kernel.execute_matMul ha hb hdtype) hr hc).2
  · have hspecs : a.spec.dtype ≠ b.spec.dtype := hdtype
    refine Kernel.execute_refused ?_
    simp [Primitive.infer, Primitive.inferMatMul, Primitive.checkSameDType, hspecs, bind, Except.bind]
  · intro a' b' y y' m' n' ha' hb' _ hdtype hy hy' r c hr hr' hc hc' hrow hcolumn
    have hsame : rowByColumn a b k r c = rowByColumn a' b' k r c := by
      refine List.foldl_ext _ _ _ fun sum j hj => ?_
      have hj : j < k := List.mem_range.mp hj
      simp only [Tensor.entry_eq_getD, hrow j hj, hcolumn j hj]
    rw [(element?_product ha hb hy hr hc).2, (element?_product ha' hb' hy' hr' hc').2, hsame, hdtype]

def twoByThree : Tensor := ⟨.f32, ⟨[2, 3]⟩, #[1, 2, 3, 4, 5, 6], rfl⟩

def threeByTwo : Tensor := ⟨.f32, ⟨[3, 2]⟩, #[1, 0, 0, 1, 2, 2], rfl⟩

/-- The second row of it alone. -/
def secondRow : Tensor := ⟨.f32, ⟨[2, 3]⟩, #[0, 0, 0, 4, 5, 6], rfl⟩

theorem product_two_by_two : ∃ y y', reference.execute .matMul [twoByThree, threeByTwo] = .ok y ∧
    reference.execute .matMul [secondRow, threeByTwo] = .ok y' ∧ y.spec = .ofShape .f32 ⟨[2, 2]⟩ ∧
    y.element? [1, 1] = some 17 ∧ y.element? [1, 1] = y'.element? [1, 1] := by
  have ha : twoByThree.shape.dims = [2, 3] := rfl
  have ha' : secondRow.shape.dims = [2, 3] := rfl
  have hb : threeByTwo.shape.dims = [3, 2] := rfl
  have hfits : ∀ s ∈ [twoByThree.shape, threeByTwo.shape, ⟨[2, 2]⟩], s.Fits := by decide
  obtain ⟨-, -, hok, -, hlocal⟩ := product_entries ha hb hfits
  obtain ⟨-, -, hok', -⟩ := product_entries ha' hb hfits
  obtain ⟨y, hy, hspec, helements⟩ := hok rfl
  obtain ⟨y', hy', -⟩ := hok' rfl
  have hentry : DType.f32.coerce (rowByColumn twoByThree threeByTwo 3 1 1) = 17 := by decide +kernel
  refine ⟨y, y', hy, hy', hspec, (helements 1 (by decide) 1 (by decide)).trans (congrArg some hentry), ?_⟩
  exact hlocal _ _ y y' 2 2 ha' hb hfits rfl hy hy' 1 1 (by decide) (by decide) (by decide) (by decide)
    (by decide +kernel) fun _ _ => rfl

end Kernels

end ComponentFlow
