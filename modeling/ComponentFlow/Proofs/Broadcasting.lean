/-
  ComponentFlow.Proofs.Broadcasting — kernels on operands of different shapes, by multi-indices. What the kernels
  do to flat indices, with two tables of strides and an offset between them, is this rule: at a multi-index of the
  result stands what the operation makes of each operand at the same coordinates, without those of the leading axes
  that the operand lacks, and with coordinate zero on its axes of extent one.

  - `Primitive.Elementwise`, `Primitive.Combines`: the kernels that are meant, and their rule for one element.
  - `Kernels.reference_broadcasts`: the rule for whole tensors.
-/
import ComponentFlow.Proofs.Pointwise
import ComponentFlow.Proofs.Words

namespace ComponentFlow

/-! ## Results at a multi-index -/

namespace Primitive

/-- Kernels that combine operands element by element, with the element types of the operands and of the result. -/
inductive Elementwise : Primitive → List DType → DType → Prop
  | binary (op : BinaryOp) (dtype : DType) : Elementwise (.binary op) [dtype, dtype] dtype
  | compare (op : CompareOp) (dtype : DType) : Elementwise (.compare op) [dtype, dtype] .bool
  | select (dtype : DType) : Elementwise .select [.bool, dtype, dtype] dtype

/-- What such a kernel makes of one element of each operand, before the coercion to the result's type. -/
inductive Combines : Primitive → List Float32 → Float32 → Prop
  | binary (op : BinaryOp) (x y : Float32) : Combines (.binary op) [x, y] (op.apply x y)
  | compare (op : CompareOp) (x y : Float32) : Combines (.compare op) [x, y] (op.apply x y)
  | select (flag x y : Float32) : Combines .select [flag, x, y] (if flag != 0 then x else y)

end Primitive

namespace Kernels

open Shape (Within pinned)

variable {p : Primitive} {dtype : DType} {shape : Shape}

/-- The kernel succeeds with the shape, and gives in each place what it makes of the operands' elements under it. -/
theorem execute_under {ts : List Tensor} (htypes : p.Elementwise (ts.map Tensor.dtype) dtype)
    (hshapes : Shape.BroadcastTo (ts.map Tensor.shape) shape) : ∃ f : Nat → Float32,
      Kernel.execute p ts = .ok (.tabulated dtype shape fun i => dtype.coerce (f i)) ∧
      ∀ i, p.Combines (ts.map fun t => t.under shape i) (f i) := by
  have hspread : ∀ t ∈ ts, Kernel.spread t shape = .ok ((List.range shape.count).map (t.under shape)).toArray :=
    fun t ht => Kernel.spread_under (hshapes.stretches (List.mem_map_of_mem ht))
  generalize hdtypes : ts.map Tensor.dtype = dtypes at htypes
  cases htypes with
  | binary op dtype =>
    simp only [List.map_eq_cons_iff, List.map_eq_nil_iff] at hdtypes
    obtain ⟨a, _, rfl, rfl, b, _, rfl, hdtype, rfl⟩ := hdtypes
    have hdims : Primitive.broadcastDims a.spec.dims b.spec.dims = .ok (shape.dims.map .fixed) :=
      Primitive.broadcastDims_of_joins hshapes
    exact ⟨fun i => op.apply (a.under shape i) (b.under shape i),
      Kernel.execute_pairs (hspread a (by simp)) (hspread b (by simp)) rfl rfl hdims hdtype.symm,
      fun i => .binary op _ _⟩
  | compare op dtype =>
    simp only [List.map_eq_cons_iff, List.map_eq_nil_iff] at hdtypes
    obtain ⟨a, _, rfl, rfl, b, _, rfl, hdtype, rfl⟩ := hdtypes
    have hdims : Primitive.broadcastDims a.spec.dims b.spec.dims = .ok (shape.dims.map .fixed) :=
      Primitive.broadcastDims_of_joins hshapes
    exact ⟨fun i => op.apply (a.under shape i) (b.under shape i),
      Kernel.execute_pairs (hspread a (by simp)) (hspread b (by simp)) rfl rfl hdims hdtype.symm,
      fun i => .compare op _ _⟩
  | select dtype =>
    simp only [List.map_eq_cons_iff, List.map_eq_nil_iff] at hdtypes
    obtain ⟨c, _, rfl, hbool, a, _, rfl, rfl, b, _, rfl, hdtype, rfl⟩ := hdtypes
    obtain ⟨mids, hfirst, hsecond⟩ := Shape.Joins.grouped hshapes
    obtain ⟨mids, rfl⟩ : ∃ dims : List Nat, dims.reverse = mids := ⟨mids.reverse, mids.reverse_reverse⟩
    exact ⟨fun i => Scalar.choose (c.under shape i) (a.under shape i) (b.under shape i),
      Kernel.execute_choices (hspread a (by simp)) (hspread b (by simp)) (hspread c (by simp))
        (Primitive.broadcastDims_of_joins hfirst) (Primitive.broadcastDims_of_joins hsecond) hbool hdtype.symm,
      fun i => .select _ _ _⟩

/-- On operands of the right types that broadcast to a shape, the kernel succeeds with that shape; at each multi-index
    of it stands what the kernel makes of the operands' elements at that multi-index, less the leading coordinates
    that the operand has no axes for, and with zero along its axes of extent one. Each operand is as it would be if
    it were put together element by element, also where it has the shape already. The shapes must fit into machine
    words, and then no stride or place is larger than a word; operands without elements can be too long for that. -/
theorem reference_broadcasts {ts : List Tensor} (htypes : p.Elementwise (ts.map Tensor.dtype) dtype)
    (hshapes : Shape.BroadcastTo (ts.map Tensor.shape) shape) (hfits : ∀ s ∈ shape :: ts.map Tensor.shape, s.Fits) :
    (∀ s ∈ shape :: ts.map Tensor.shape, s.Exact) ∧
    (∃ r, reference.execute p ts = .ok r ∧ r.spec = .ofShape dtype shape ∧
      ∀ m, Within shape.dims m → ∃ xs y,
        List.Forall₂ (fun t x => t.element? (pinned t.shape.dims m) = some x) ts xs ∧ p.Combines xs y ∧
        r.element? m = some (dtype.coerce y)) ∧
    ∀ t ∈ ts, Kernel.spread t shape = Kernel.gather t shape := by
  obtain ⟨f, hrun, hcombines⟩ := execute_under htypes hshapes
  refine ⟨fun s hs => Shape.exact_of_fits (hfits s hs), ⟨_, hrun, rfl, fun m hm => ?_⟩,
    fun t _ => Kernel.spread_eq_gather t shape⟩
  have hoperands : List.Forall₂ (fun t x => t.element? (pinned t.shape.dims m) = some x) ts
      (ts.map fun t => t.under shape (Shape.offset shape.dims m)) :=
    List.forall₂_map_right_iff.mpr (List.forall₂_same.mpr fun t ht =>
      Tensor.element?_pinned (hshapes.stretches (List.mem_map_of_mem ht)) hm)
  exact ⟨_, _, hoperands, hcombines _, Tensor.element?_tabulated hm⟩

/-- A column of two and a row of three. -/
def column : Tensor := ⟨.f32, ⟨[2, 1]⟩, #[10, 20], rfl⟩

def row : Tensor := ⟨.f32, ⟨[3]⟩, #[1, 2, 3], rfl⟩

theorem column_less_row : ∃ r, reference.execute (.binary .sub) [column, row] = .ok r ∧
    r.spec = .ofShape .f32 ⟨[2, 3]⟩ ∧ r.element? [1, 2] = some 17 := by
  have hshapes : Shape.BroadcastTo [column.shape, row.shape] ⟨[2, 3]⟩ :=
    Shape.Joins.pair_iff.mpr ⟨.cons (.inl rfl) (.cons (.inr rfl) .nil), .cons (.inr rfl) .nil, by decide⟩
  have htypes : (Primitive.binary .sub).Elementwise ([column, row].map Tensor.dtype) .f32 := .binary .sub .f32
  have hfits : ∀ s ∈ ⟨[2, 3]⟩ :: [column, row].map Tensor.shape, s.Fits := by decide
  obtain ⟨-, ⟨r, hrun, hspec, helements⟩, -⟩ := reference_broadcasts htypes hshapes hfits
  have hm : Within [2, 3] [1, 2] := .cons (by decide) (.cons (by decide) .nil)
  obtain ⟨xs, y, hoperands, hcombines, helement⟩ := helements [1, 2] hm
  have hcolumn : column.element? (pinned column.shape.dims [1, 2]) = some 20 := by decide +kernel
  have hrow : row.element? (pinned row.shape.dims [1, 2]) = some 3 := by decide +kernel
  have hdifference : DType.f32.coerce (BinaryOp.sub.apply 20 3) = 17 := by decide +kernel
  simp only [List.forall₂_cons_left_iff, List.forall₂_nil_left_iff, hcolumn, hrow, Option.some.injEq] at hoperands
  obtain ⟨_, _, rfl, ⟨_, _, rfl, rfl, rfl⟩, rfl⟩ := hoperands
  cases hcombines
  exact ⟨r, hrun, hspec, helement.trans (congrArg some hdifference)⟩

end Kernels

end ComponentFlow
