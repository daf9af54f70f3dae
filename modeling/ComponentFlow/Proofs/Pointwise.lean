/-
  ComponentFlow.Proofs.Pointwise — the reference kernels on operands of one shape and on scalars. An operand
  with the shape is read in place, a scalar is the same in every place (`Kernel.Reads`). So the result has the
  shape, and in each place what the operation makes of the operands there.

  - `Tensor.tabulated`: the tensor whose element in place `i` is `f i`. A scalar is one as well.
-/
import ComponentFlow.Proofs.Reference

namespace ComponentFlow

/-- The tensor whose element in place `i` is `f i`. -/
def Tensor.tabulated (dtype : DType) (shape : Shape) (f : Nat → Float32) : Tensor :=
  ⟨dtype, shape, ((List.range shape.count).map f).toArray, by simp⟩

namespace Tensor

variable {dtype : DType} {shape : Shape} {f g : Nat → Float32} {i : Nat}

theorem eq_tabulated (x : Tensor) : x = tabulated x.dtype x.shape fun i => x.data.getD i 0 := by
  obtain ⟨dtype, shape, data, hsize⟩ := x
  rw [tabulated, mk.injEq]
  exact ⟨rfl, rfl, data_eq_map_range ⟨dtype, shape, data, hsize⟩⟩

theorem tabulated_congr (h : ∀ i < shape.count, f i = g i) : tabulated dtype shape f = tabulated dtype shape g := by
  have hdata : (List.range shape.count).map f = (List.range shape.count).map g :=
    List.map_congr_left fun i hi => h i (List.mem_range.mp hi)
  simp only [tabulated, hdata]

/-- A scalar is its only element. -/
theorem tabulated_scalar : tabulated dtype .scalar f = .scalarOf dtype (f 0) := rfl

theorem getElem?_tabulated (hi : i < shape.count) : (tabulated dtype shape f).data[i]? = some (f i) := by
  simp [tabulated, hi]

theorem element?_tabulated {m : List Nat} (hm : Shape.Within shape.dims m) :
    (tabulated dtype shape f).element? m = some (f (Shape.offset shape.dims m)) :=
  getElem?_tabulated (Shape.Within.offset_lt hm)

end Tensor

namespace Kernel

open Tensor (tabulated)

variable {p : Primitive} {ts : List Tensor} {x a b c : Tensor} {dtype : DType} {shape : Shape}
  {f g h : Nat → Float32}

/-- A payload given place by place makes a tensor of the inferred type. -/
theorem execute_tabulated (hinfer : p.infer (ts.map Tensor.spec) = .ok (.ofShape dtype shape))
    (hdata : compute p ts shape = .ok ((List.range shape.count).map f).toArray) :
    execute p ts = .ok (tabulated dtype shape fun i => dtype.coerce (f i)) := by
  have hsize : ((List.range shape.count).map f).toArray.size = shape.count := by simp
  have hcoerce : ((List.range shape.count).map f).toArray.map dtype.coerce =
      ((List.range shape.count).map fun i => dtype.coerce (f i)).toArray := by
    rw [List.map_toArray, List.map_map]
    rfl
  rw [execute_computed hinfer hdata hsize]
  simp only [hcoerce, tabulated]

/-! ## Operands -/

/-- Spread over the shape, the operand is `f i` in place `i`. -/
structure Reads (x : Tensor) (shape : Shape) (f : Nat → Float32) : Prop where
  fits : x.shape = shape ∨ x.shape = .scalar
  spread : spread x shape = .ok ((List.range shape.count).map f).toArray

theorem reads_tabulated : Reads (tabulated dtype shape f) shape f := ⟨.inl rfl, spread_same rfl⟩

/-- No axis has to agree, so there is no coordinate to read at. -/
theorem reads_scalarOf (dtype : DType) (v : Float32) (shape : Shape) :
    Reads (.scalarOf dtype v) shape fun _ => v :=
  ⟨.inr rfl, spread_under .nil⟩

theorem Reads.stretches (hx : Reads x shape f) : Shape.Stretches x.shape.dims.reverse shape.dims.reverse := by
  rcases hx.fits with hsame | hsame <;> rw [hsame]
  · exact Shape.stretches_refl _
  · exact .nil

/-- Axes stretch to those of the shape once one operand has them. -/
theorem Reads.broadcast (ha : Reads a shape f) (hb : Reads b shape g) (h : a.shape = shape ∨ b.shape = shape) :
    Primitive.broadcastDims a.spec.dims b.spec.dims = .ok (shape.dims.map .fixed) := by
  have hextent : ∀ {t : Tensor} (k : Nat), t.shape = shape → t.shape.dims.reverse[k]? = shape.dims.reverse[k]? :=
    fun _ hsame => by rw [hsame]
  exact Primitive.broadcastDims_of_joins (Shape.Joins.pair_iff.mpr
    ⟨ha.stretches, hb.stretches, fun k _ => h.imp (hextent k) (hextent k)⟩)

/-! ## Operations -/

theorem execute_cast (dtype : DType) (x : Tensor) : execute (.cast dtype) [x] =
    .ok (tabulated dtype x.shape fun i => dtype.coerce (x.data.getD i 0)) :=
  execute_tabulated rfl (congrArg Except.ok x.data_eq_map_range)

theorem execute_cast_tabulated (dtype' : DType) : execute (.cast dtype') [tabulated dtype shape f] =
    .ok (tabulated dtype' shape fun i => dtype'.coerce (f i)) :=
  execute_tabulated rfl rfl

section Spread

variable (ha : spread a shape = .ok ((List.range shape.count).map f).toArray)
  (hb : spread b shape = .ok ((List.range shape.count).map g).toArray)
include ha hb

theorem zipSpread_places (op : Float32 → Float32 → Float32) :
    zipSpread shape a b op = .ok ((List.range shape.count).map fun i => op (f i) (g i)).toArray := by
  have hzip : Array.zipWith op ((List.range shape.count).map f).toArray ((List.range shape.count).map g).toArray =
      ((List.range shape.count).map fun i => op (f i) (g i)).toArray :=
    Array.ext (by simp) fun i _ _ => by simp
  simp only [zipSpread, ha, hb, bind, Except.bind, hzip]

/-- Two operands of one type, combined in each place. -/
theorem execute_pairs {op : Float32 → Float32 → Float32} (hcompute : compute p [a, b] shape = zipSpread shape a b op)
    (hinfer : p.infer [a.spec, b.spec] = do
      Primitive.checkSameDType p a.spec b.spec
      let dims ← Primitive.broadcastDims a.spec.dims b.spec.dims
      .ok ⟨dtype, dims⟩)
    (hdims : Primitive.broadcastDims a.spec.dims b.spec.dims = .ok (shape.dims.map .fixed))
    (hdtype : a.dtype = b.dtype) :
    execute p [a, b] = .ok (tabulated dtype shape fun i => dtype.coerce (op (f i) (g i))) := by
  have hsame : Primitive.checkSameDType p a.spec b.spec = .ok () := if_pos hdtype
  refine execute_tabulated ?_ (hcompute.trans (zipSpread_places ha hb op))
  simp only [List.map_cons, List.map_nil, hinfer, hsame, hdims, bind, Except.bind]
  rfl

/-- A flag for each place, and two operands of one type to choose from. The flags are spread together with the first
    of these, and what that gives with the second. -/
theorem execute_choices (hc : spread c shape = .ok ((List.range shape.count).map h).toArray) {dims : List Dim}
    (hfirst : Primitive.broadcastDims c.spec.dims a.spec.dims = .ok dims)
    (hsecond : Primitive.broadcastDims dims b.spec.dims = .ok (shape.dims.map .fixed)) (hbool : c.dtype = .bool)
    (hdtype : a.dtype = b.dtype) : execute .select [c, a, b] =
      .ok (tabulated a.dtype shape fun i => a.dtype.coerce (Scalar.choose (h i) (f i) (g i))) := by
  have hcondition : c.spec.dtype = .bool := hbool
  have hspecs : a.spec.dtype = b.spec.dtype := hdtype
  refine execute_tabulated ?_ ?_
  · simp only [List.map_cons, List.map_nil, Primitive.infer, Primitive.inferSelect, Primitive.checkSameDType,
      hcondition, ne_eq, not_true_eq_false, if_false, if_pos hspecs, hfirst, hsecond, bind, Except.bind]
    rfl
  · have hzip : Array.zipWith (fun k z => k z) (Array.zipWith Scalar.choose ((List.range shape.count).map h).toArray
        ((List.range shape.count).map f).toArray) ((List.range shape.count).map g).toArray =
        ((List.range shape.count).map fun i => Scalar.choose (h i) (f i) (g i)).toArray :=
      Array.ext (by simp) fun i _ _ => by simp
    simp only [compute, zipSpread3, hc, ha, hb, bind, Except.bind, hzip]

end Spread

theorem execute_binary (op : BinaryOp) (ha : Reads a shape f) (hb : Reads b shape g)
    (h : a.shape = shape ∨ b.shape = shape) (hdtype : a.dtype = b.dtype) : execute (.binary op) [a, b] =
      .ok (tabulated a.dtype shape fun i => a.dtype.coerce (op.apply (f i) (g i))) :=
  execute_pairs ha.spread hb.spread rfl rfl (ha.broadcast hb h) hdtype

theorem execute_compare (op : CompareOp) (ha : Reads a shape f) (hb : Reads b shape g)
    (h : a.shape = shape ∨ b.shape = shape) (hdtype : a.dtype = b.dtype) : execute (.compare op) [a, b] =
      .ok (tabulated .bool shape fun i => DType.bool.coerce (op.apply (f i) (g i))) :=
  execute_pairs ha.spread hb.spread rfl rfl (ha.broadcast hb h) hdtype

/-- The operand for places that are chosen has the shape. -/
theorem execute_select (hc : Reads c shape f) (ha : Reads a shape g) (hb : Reads b shape h)
    (hbool : c.dtype = .bool) (hshape : a.shape = shape) (hdtype : a.dtype = b.dtype) : execute .select [c, a, b] =
      .ok (tabulated a.dtype shape fun i => a.dtype.coerce (Scalar.choose (f i) (g i) (h i))) := by
  have hdims : a.spec.dims = shape.dims.map .fixed := by rw [← hshape]; rfl
  have hsecond := ha.broadcast hb (.inl hshape)
  rw [hdims] at hsecond
  exact execute_choices ha.spread hb.spread hc.spread (hc.broadcast ha (.inr hshape)) hsecond hbool hdtype

/-- A sample for each place. -/
theorem execute_randomUniform (seed : UInt64) (dtype : DType) (v : Float32) (like : Tensor) :
    execute (.randomUniform seed) [.scalarOf dtype v, like] = .ok (tabulated .f32 like.shape fun i =>
      Random.uniform seed (UInt64.ofInt (Scalar.toInt64 v)) i.toUInt64) := by
  refine execute_tabulated (f := fun i => Random.uniform seed (UInt64.ofInt (Scalar.toInt64 v)) i.toUInt64) rfl ?_
  have hdata : (Array.ofFn fun i : Fin like.shape.count =>
      Random.uniform seed (UInt64.ofInt (Scalar.toInt64 v)) i.val.toUInt64) =
      ((List.range like.shape.count).map fun i =>
        Random.uniform seed (UInt64.ofInt (Scalar.toInt64 v)) i.toUInt64).toArray :=
    Array.ext (by simp) fun i _ _ => by simp
  exact congrArg Except.ok hdata

end Kernel

end ComponentFlow
