/-
  ComponentFlow.Proofs.Reference — the reference kernels realise what inference says. Inference works
  on specs and never sees a payload, the kernels count through payloads and never see a spec; both
  are right about each other.

  - `Primitive.Realised`: the inferred spec is that of a shape, and the payload computed fills it.
  - `Kernel.compute_realised`: so it is for every primitive that takes its operands, one case each.
  - `Kernel.execute_outcome`: a result with the inferred spec, or an index outside its depth.
  - `Kernels.reference_realises`: the outcomes of the reference kernels, for all operands.
-/
import ComponentFlow.Proofs.Inference
import ComponentFlow.Proofs.Order
import ComponentFlow.Proofs.Places
import Mathlib.Data.List.InsertIdx
import Mathlib.Order.Compare

namespace ComponentFlow

/-! ## Results as inferred -/

namespace Primitive

/-- Not a clip to a bound that is not a number. -/
def bounded : Primitive → Bool
  | .clip lo hi => !lo.isNaN && !hi.isNaN
  | _ => true

/-- One of the indices to expand lies outside the depth they are expanded to. -/
def Overruns (p : Primitive) (ts : List Tensor) (index : Int) (depth : Nat) : Prop :=
  p = .oneHot depth ∧ ∃ x, ts = [x] ∧ ∃ v ∈ x.data, Kernel.OutOfDepth depth v ∧ Scalar.toInt64 v = index

/-- The spec is that of a shape, and the payload computed for that shape fills it. -/
def Realised (p : Primitive) (ts : List Tensor) (s : TensorSpec) : Prop :=
  ∃ shape, s = .ofShape s.dtype shape ∧ Kernel.Fills (Kernel.compute p ts shape) shape.count

end Primitive

/-- Has the spec, as many elements as its extents multiply to, and only elements of the element
    type. -/
structure Tensor.Realises (t : Tensor) (s : TensorSpec) : Prop where
  spec : t.spec = s
  size : t.data.size = Shape.product t.shape.dims
  elements : ∀ x ∈ t.data, ∃ y, s.dtype.coerce y = x

theorem TensorSpec.shape_of_eq {s : TensorSpec} {dtype : DType} {shape : Shape} (h : s = .ofShape dtype shape) :
    s.shape? = some shape := by
  subst h
  have hdims : ∀ dims : List Nat, (dims.map Dim.fixed).mapM Dim.extent? = some dims := by
    intro dims
    induction dims with
    | nil => rfl
    | cons n dims ih =>
      rw [List.map_cons, List.mapM_cons, ih]
      rfl
  unfold shape? ofShape
  rw [hdims]
  rfl

namespace Primitive

open Kernel

theorem realised_of_fills {p : Primitive} {ts : List Tensor} (dtype : DType) (dims : List Nat)
    (h : Fills (compute p ts ⟨dims⟩) (Shape.product dims)) : p.Realised ts ⟨dtype, dims.map .fixed⟩ :=
  ⟨⟨dims⟩, rfl, h⟩

/-! ## Shapes of results -/

theorem rank_spec (t : Tensor) : t.spec.rank = t.shape.dims.length := List.length_map _

theorem reduceAxis_fixed {dims : List Nat} {axis : Nat} {split : Split} (hs : Split.ofAxis dims axis = .ok split)
    (keep : Bool) : ∃ outs : List Nat, reduceAxis (dims.map .fixed) axis keep = outs.map .fixed ∧
      Shape.product outs = split.outer * split.inner := by
  cases keep with
  | true => exact ⟨dims.set axis 1, List.map_set.symm, Split.product_set_one hs⟩
  | false => exact ⟨dims.eraseIdx axis, (List.eraseIdx_map _ _ _), Split.product_eraseIdx hs⟩

theorem reduceAll_fixed (dims : List Nat) (keep : Bool) :
    ∃ outs : List Nat, reduceAll (dims.map .fixed) keep = outs.map .fixed ∧ Shape.product outs = 1 := by
  cases keep with
  | true =>
    refine ⟨dims.map fun _ => 1, ?_, Shape.product_ones dims⟩
    simp only [reduceAll, if_true, List.map_map]
    rfl
  | false => exact ⟨[], rfl, rfl⟩

/-! ## One primitive after the other -/

variable {x a b c : Tensor} {s : TensorSpec}

theorem unary_realised {op : UnaryOp} (h : inferUnary op x.spec = .ok s) : Realised (.unary op) [x] s := by
  have hdims : s.dims = x.spec.dims := by
    cases op with
    | neg | abs | square | relu | logicalNot =>
      cases h
      rfl
    | exp | log | sqrt | tanh | sigmoid =>
      simp only [inferUnary, checkFloat_then] at h
      obtain ⟨-, ⟨⟩⟩ := h
      rfl
  obtain ⟨dtype, dims⟩ := s
  cases hdims
  refine realised_of_fills dtype x.shape.dims (succeeds_ok ?_)
  rw [Array.size_map]
  exact x.size_eq

/-- Two operands stretched to a common shape, and their elements combined in pairs. -/
theorem pairwise_realised {p : Primitive} {dtype : DType} (f : Float32 → Float32 → Float32)
    (hcompute : ∀ shape, compute p [a, b] shape = zipSpread shape a b f)
    (h : (do checkSameDType p a.spec b.spec; let dims ← broadcastDims a.spec.dims b.spec.dims; .ok ⟨dtype, dims⟩) =
      Except.ok s) : p.Realised [a, b] s := by
  simp only [checkSameDType_then, broadcastDims_then] at h
  obtain ⟨-, dims, hdims, ⟨⟩⟩ := h
  obtain ⟨outs, rfl, ha, hb⟩ := broadcast_fixed hdims
  refine realised_of_fills dtype outs ?_
  rw [hcompute]
  exact zipSpread_fills f ha hb

theorem select_realised (h : inferSelect c.spec a.spec b.spec = .ok s) : Realised .select [c, a, b] s := by
  unfold inferSelect at h
  by_cases hbool : c.spec.dtype = .bool
  · simp only [hbool, ne_eq, not_true_eq_false, if_false, checkSameDType_then, broadcastDims_then] at h
    obtain ⟨-, dims, hdims, dims', hdims', ⟨⟩⟩ := h
    obtain ⟨outs, rfl, hc, ha⟩ := broadcast_fixed hdims
    obtain ⟨outs', rfl, houts, hb⟩ := broadcast_fixed hdims'
    exact realised_of_fills a.spec.dtype outs' (zipSpread3_fills Scalar.choose (hc.trans houts) (ha.trans houts) hb)
  · simp only [hbool, ne_eq, not_false_eq_true, if_true] at h
    cases h

/-- A function of the lanes along an axis that there is. -/
theorem lanes_realised {p : Primitive} {axis : Nat} (dtype : DType) (f : List Float32 → Float32) (keep : Bool)
    (hcompute : ∀ shape, compute p [x] shape = eachLane x axis f) (haxis : axis < x.spec.rank) :
    p.Realised [x] ⟨dtype, reduceAxis x.spec.dims axis keep⟩ := by
  obtain ⟨split, hsplit⟩ := Split.ofAxis_ok (rank_spec x ▸ haxis)
  obtain ⟨outs, houts, hproduct⟩ := reduceAxis_fixed hsplit keep
  have hdims : reduceAxis x.spec.dims axis keep = outs.map .fixed := houts
  rw [hdims]
  refine realised_of_fills dtype outs ?_
  rw [hcompute, hproduct]
  exact eachLane_fills hsplit f

theorem reduce_realised {op : ReduceOp} {axis : Option Nat} {keep : Bool}
    (h : inferReduce op axis keep x.spec = .ok s) : Realised (.reduce op axis keep) [x] s := by
  unfold inferReduce at h
  cases axis with
  | none =>
    cases h
    obtain ⟨outs, houts, hproduct⟩ := reduceAll_fixed x.shape.dims keep
    have hdims : reduceAll x.spec.dims keep = outs.map .fixed := houts
    rw [hdims]
    exact realised_of_fills _ outs (succeeds_ok hproduct.symm)
  | some axis =>
    simp only [checkAxis_then] at h
    obtain ⟨haxis, ⟨⟩⟩ := h
    exact lanes_realised _ op.fold keep (fun _ => rfl) haxis

theorem softmax_realised {p : Primitive} {axis : Nat} (log : Bool)
    (hcompute : ∀ shape, compute p [x] shape = Kernel.softmax x axis log)
    (h : (do checkFloat p x.spec; checkAxis p x.spec axis; .ok x.spec) = Except.ok s) : p.Realised [x] s := by
  simp only [checkFloat_then, checkAxis_then] at h
  obtain ⟨-, haxis, ⟨⟩⟩ := h
  obtain ⟨split, hsplit⟩ := Split.ofAxis_ok (rank_spec x ▸ haxis)
  refine realised_of_fills x.dtype x.shape.dims ?_
  rw [hcompute]
  exact softmax_fills hsplit log

/-- Both operands are matrices, and the second has as many rows as the first has columns. -/
theorem matMul_realised (h : inferMatMul a.spec b.spec = .ok s) : Realised .matMul [a, b] s := by
  simp only [inferMatMul, checkSameDType_then] at h
  obtain ⟨-, h⟩ := h
  split at h
  · next dm dk dk' dn ha hb =>
    obtain ⟨m, k, hdims, rfl, rfl⟩ : ∃ m k, a.shape.dims = [m, k] ∧ .fixed m = dm ∧ .fixed k = dk := by
      simpa [Tensor.spec, TensorSpec.ofShape, List.map_eq_cons_iff, List.map_eq_nil_iff] using ha
    obtain ⟨k', n, hdims', rfl, rfl⟩ : ∃ k' n, b.shape.dims = [k', n] ∧ .fixed k' = dk' ∧ .fixed n = dn := by
      simpa [Tensor.spec, TensorSpec.ofShape, List.map_eq_cons_iff, List.map_eq_nil_iff] using hb
    split at h
    · next hcontract =>
      cases h
      obtain rfl : k = k' := beq_iff_eq.mp hcontract
      refine realised_of_fills a.spec.dtype [m, n] ?_
      have hproduct : Shape.product [m, n] = m * n := by simp
      rw [hproduct]
      exact matMul_fills hdims hdims'
    · cases h
  · cases h

theorem clip_realised {lo hi : Float32} (hbounded : bounded (.clip lo hi) = true) (hle : ¬ lo > hi) :
    Realised (.clip lo hi) [x] x.spec := by
  simp only [bounded, Bool.and_eq_true, Bool.not_eq_true'] at hbounded
  have hordered : lo ≤ hi := Scalar.le_of_not_gt hbounded.1 hbounded.2 hle
  have hclip : Kernel.clip x lo hi = .ok (x.data.map (Scalar.clamp lo hi)) := if_pos (.inl hordered)
  exact realised_of_fills x.dtype x.shape.dims ⟨_, hclip, Array.size_map.trans x.size_eq⟩

/-- The payload as it stands, under axes that make up as many elements. -/
theorem same_realised {p : Primitive} (dtype : DType) (dims : List Nat)
    (hcompute : ∀ shape, compute p [x] shape = .ok x.data) (h : Shape.product dims = x.shape.count) :
    p.Realised [x] ⟨dtype, dims.map .fixed⟩ := by
  refine realised_of_fills dtype dims ?_
  rw [hcompute]
  exact succeeds_ok (x.size_eq.trans h.symm)

theorem squeeze_realised {axis : Nat} (h : inferSqueeze axis x.spec = .ok s) : Realised (.squeeze axis) [x] s := by
  simp only [inferSqueeze, checkAxis_then] at h
  obtain ⟨haxis, h⟩ := h
  have hlt : axis < x.shape.dims.length := rank_spec x ▸ haxis
  have hextent : x.spec.dims[axis]? = some (.fixed x.shape.dims[axis]) := by
    simp [Tensor.spec, TensorSpec.ofShape, List.getElem?_eq_getElem hlt]
  rw [hextent] at h
  dsimp only at h
  split at h
  · next hone =>
    cases h
    have hdims : reduceAxis x.spec.dims axis false = (x.shape.dims.eraseIdx axis).map .fixed := List.eraseIdx_map _ _ _
    rw [hdims]
    refine same_realised x.spec.dtype _ (fun _ => rfl) ?_
    obtain ⟨split, hsplit⟩ := Split.ofAxis_ok hlt
    have hcount : split.extent = 1 := by
      rw [(Split.ofAxis_eq hsplit).2]
      simp [List.getElem?_eq_getElem hlt, hone]
    have hproduct : x.shape.count = split.outer * split.extent * split.inner := Split.product_eq hsplit
    rw [Split.product_eraseIdx hsplit, hproduct, hcount, Nat.mul_one]
  · cases h

theorem expandDims_realised {axis : Nat} (haxis : ¬ axis > x.spec.rank) :
    Realised (.expandDims axis) [x] ⟨x.spec.dtype, x.spec.dims.insertIdx axis (.fixed 1)⟩ := by
  have hle : axis ≤ x.shape.dims.length := Nat.le_of_not_lt (rank_spec x ▸ haxis)
  have hdims : x.spec.dims.insertIdx axis (.fixed 1) = (x.shape.dims.insertIdx axis 1).map .fixed :=
    (List.map_insertIdx _ _ _ _).symm
  rw [hdims]
  refine same_realised x.spec.dtype _ (fun _ => rfl) ?_
  rw [Shape.product_insertIdx hle, Nat.one_mul]
  rfl

theorem shiftLeft_realised {fill : Float32} (hrank : x.spec.rank ≠ 0) : Realised (.shiftLeft fill) [x] x.spec := by
  obtain ⟨steps, rest, hdims⟩ := List.exists_cons_of_length_pos (Nat.pos_of_ne_zero (rank_spec x ▸ hrank))
  exact realised_of_fills x.dtype x.shape.dims (shiftLeft_fills hdims fill)

/-- Fixed axes agree only when they are the same. -/
theorem inferDiscountedSum_iff {discount : Float32} : inferDiscountedSum discount a.spec b.spec = .ok s ↔
    a.dtype.isFloat = true ∧ a.shape.dims ≠ [] ∧ a.shape = b.shape ∧ a.spec = s := by
  have hagree : Dim.allCompatible a.spec.dims b.spec.dims = true ↔ a.shape = b.shape := by
    constructor
    · intro h
      exact congrArg Shape.mk (Dim.eq_of_fixed_covers (Dim.allCompatible_fixed_iff.mp h))
    · intro h
      have hdims : b.spec.dims = a.spec.dims := congrArg (fun shape : Shape => shape.dims.map Dim.fixed) h.symm
      exact hdims ▸ Dim.allCompatible_refl _
  have hrefuse : (a.spec.rank = 0 ∨ (!Dim.allCompatible a.spec.dims b.spec.dims) = true) ↔
      ¬ (a.shape.dims ≠ [] ∧ a.shape = b.shape) := by
    rw [rank_spec, List.length_eq_zero_iff, ← hagree, Bool.not_eq_true', not_and_or, not_not, Bool.not_eq_true]
  simp only [inferDiscountedSum, checkFloat_then, hrefuse]
  by_cases hfit : a.shape.dims ≠ [] ∧ a.shape = b.shape
  · rw [if_neg (not_not.mpr hfit)]
    exact and_congr_right fun _ => ⟨fun h => ⟨hfit.1, hfit.2, Except.ok.inj h⟩, fun h => congrArg Except.ok h.2.2⟩
  · rw [if_pos hfit]
    refine and_congr_right fun _ => iff_of_false ?_ fun h => hfit ⟨h.1, h.2.1⟩
    intro h
    cases h

theorem discountedSum_realised {discount : Float32} (h : inferDiscountedSum discount a.spec b.spec = .ok s) :
    Realised (.discountedSum discount) [a, b] s := by
  obtain ⟨-, hrank, hsame, rfl⟩ := inferDiscountedSum_iff.mp h
  obtain ⟨steps, rest, hdims⟩ := List.exists_cons_of_ne_nil hrank
  exact realised_of_fills a.dtype a.shape.dims (discountedSum_fills hdims hsame discount)

/-- A tensor without axes has the one element that the step is read from. -/
theorem randomUniform_realised {seed : UInt64} (hrank : a.spec.rank = 0) :
    Realised (.randomUniform seed) [a, b] (b.spec.withDType .f32) := by
  have hdims : a.shape.dims = [] := List.eq_nil_of_length_eq_zero (rank_spec a ▸ hrank)
  have hsize : a.size = 1 := a.size_eq.trans (by simp [Shape.count, hdims])
  refine realised_of_fills .f32 b.shape.dims ?_
  exact (read_succeeds (by omega)).bind fun _ _ => succeeds_ok Array.size_ofFn

/-- Expanding indices is apart: whether its payload can be computed is not settled by specs. -/
theorem compute_realised {p : Primitive} {ts : List Tensor} {s : TensorSpec} (hp : ∀ depth, p ≠ .oneHot depth)
    (hbounded : p.bounded = true) (h : p.infer (ts.map Tensor.spec) = .ok s) : p.Realised ts s := by
  generalize hspecs : ts.map Tensor.spec = specs at h
  unfold infer at h
  split at h <;> try simp only [List.map_eq_cons_iff, List.map_eq_nil_iff] at hspecs
  · next op _ =>
    obtain ⟨x, _, rfl, rfl, rfl⟩ := hspecs
    exact unary_realised h
  · next op _ _ =>
    obtain ⟨a, _, rfl, rfl, b, _, rfl, rfl, rfl⟩ := hspecs
    exact pairwise_realised op.apply (fun _ => rfl) h
  · next op _ _ =>
    obtain ⟨a, _, rfl, rfl, b, _, rfl, rfl, rfl⟩ := hspecs
    exact pairwise_realised op.apply (fun _ => rfl) h
  · obtain ⟨c, _, rfl, rfl, a, _, rfl, rfl, b, _, rfl, rfl, rfl⟩ := hspecs
    exact select_realised h
  · obtain ⟨x, _, rfl, rfl, rfl⟩ := hspecs
    exact reduce_realised h
  · obtain ⟨x, _, rfl, rfl, rfl⟩ := hspecs
    simp only [checkAxis_then] at h
    obtain ⟨haxis, ⟨⟩⟩ := h
    exact lanes_realised .i32 argMaxOf false (fun _ => rfl) haxis
  · obtain ⟨x, _, rfl, rfl, rfl⟩ := hspecs
    exact softmax_realised false (fun _ => rfl) h
  · obtain ⟨x, _, rfl, rfl, rfl⟩ := hspecs
    exact softmax_realised true (fun _ => rfl) h
  · obtain ⟨a, _, rfl, rfl, b, _, rfl, rfl, rfl⟩ := hspecs
    exact matMul_realised h
  · obtain ⟨x, _, rfl, rfl, rfl⟩ := hspecs
    split at h
    · cases h
    · next hle =>
      cases h
      exact clip_realised hbounded hle
  · next dtype _ =>
    obtain ⟨x, _, rfl, rfl, rfl⟩ := hspecs
    cases h
    exact same_realised dtype x.shape.dims (fun _ => rfl) rfl
  · obtain ⟨x, _, rfl, rfl, rfl⟩ := hspecs
    exact squeeze_realised h
  · obtain ⟨x, _, rfl, rfl, rfl⟩ := hspecs
    split at h
    · cases h
    · next haxis =>
      cases h
      exact expandDims_realised haxis
  · obtain ⟨x, _, rfl, rfl, rfl⟩ := hspecs
    cases h
    exact same_realised x.dtype x.shape.dims (fun _ => rfl) rfl
  · obtain ⟨x, _, rfl, rfl, rfl⟩ := hspecs
    split at h
    · cases h
    · next hrank =>
      cases h
      exact shiftLeft_realised hrank
  · obtain ⟨a, _, rfl, rfl, b, _, rfl, rfl, rfl⟩ := hspecs
    exact discountedSum_realised h
  · obtain ⟨a, _, rfl, rfl, b, _, rfl, rfl, rfl⟩ := hspecs
    split at h
    · cases h
    · next hrank =>
      cases h
      exact randomUniform_realised (not_not.mp hrank)
  · next depth _ => exact absurd rfl (hp depth)
  · cases h

/-- Either every index lies within the depth, or one that does not is reported. -/
theorem oneHot_realised {depth : Nat} {ts : List Tensor} {s : TensorSpec}
    (h : infer (.oneHot depth) (ts.map Tensor.spec) = .ok s) :
    Realised (.oneHot depth) ts s ∧ (∀ i d, ¬ Overruns (.oneHot depth) ts i d) ∨
      ∃ i d shape, Overruns (.oneHot depth) ts i d ∧ s = .ofShape s.dtype shape ∧
        compute (.oneHot depth) ts shape = .error (.indexOutOfDepth i d) := by
  obtain ⟨x, rfl⟩ : ∃ x, ts = [x] := by
    rcases ts with _ | ⟨x, _ | ⟨y, ts⟩⟩
    · cases h
    · exact ⟨x, rfl⟩
    · cases h
  have hdims : x.spec.dims ++ [.fixed depth] = (x.shape.dims ++ [depth]).map Dim.fixed := by
    rw [List.map_append]
    rfl
  have hcount : Shape.product (x.shape.dims ++ [depth]) = x.shape.count * depth := by simp [Shape.count]
  simp only [List.map_cons, List.map_nil, infer] at h
  split at h
  · cases h
  · cases h
    rw [hdims]
    rcases oneHot_cases x depth with ⟨hfills, hin⟩ | ⟨v, hv, hout, herror⟩
    · refine .inl ⟨realised_of_fills .f32 _ (hcount ▸ hfills), ?_⟩
      intro i d hover
      obtain ⟨hp, y, hy, v, hv, hout, -⟩ := hover
      cases hp
      cases hy
      exact hin v hv hout
    · exact .inr ⟨_, depth, ⟨x.shape.dims ++ [depth]⟩, ⟨rfl, x, rfl, v, hv, hout, rfl⟩, rfl, herror⟩

end Primitive

/-! ## Outcomes -/

namespace Kernel

variable {p : Primitive} {ts : List Tensor} {s : TensorSpec}

theorem execute_refused {cause : Mismatch} (h : p.infer (ts.map Tensor.spec) = .error cause) :
    execute p ts = .error (.shape cause) := by
  unfold execute
  rw [h]

/-- A payload that fills the inferred shape makes a tensor of the inferred spec. -/
theorem execute_computed {dtype : DType} {shape : Shape} {data : Array Float32}
    (hinfer : p.infer (ts.map Tensor.spec) = .ok (.ofShape dtype shape)) (hdata : compute p ts shape = .ok data)
    (hsize : data.size = shape.count) :
    execute p ts = .ok ⟨dtype, shape, data.map dtype.coerce, Array.size_map.trans hsize⟩ := by
  have hshape : (TensorSpec.ofShape dtype shape).shape? = some shape := TensorSpec.shape_of_eq rfl
  have hdtype : (TensorSpec.ofShape dtype shape).dtype = dtype := rfl
  simp [execute, hinfer, hshape, hdata, Tensor.ofData, hsize, hdtype, bind, Except.bind, Except.mapError]

theorem execute_realised (h : p.infer (ts.map Tensor.spec) = .ok s) (hreal : p.Realised ts s) :
    ∃ t, execute p ts = .ok t ∧ t.Realises s := by
  obtain ⟨shape, hspec, data, hdata, hsize⟩ := hreal
  have hdtype : ∀ x ∈ data.map s.dtype.coerce, ∃ y, s.dtype.coerce y = x := by
    intro x hx
    obtain ⟨y, -, hy⟩ := Array.mem_map.mp hx
    exact ⟨y, hy⟩
  exact ⟨_, execute_computed (hspec ▸ h) hdata hsize, hspec.symm, Array.size_map.trans hsize, hdtype⟩

/-- Where inference takes the operands there is a result of the inferred spec, unless an index lies
    outside its depth, which is then what is reported. -/
theorem execute_outcome (hbounded : p.bounded = true) (h : p.infer (ts.map Tensor.spec) = .ok s) :
    (∃ t, execute p ts = .ok t ∧ t.Realises s) ∧ (∀ i depth, ¬ p.Overruns ts i depth) ∨
      ∃ i depth, p.Overruns ts i depth ∧ execute p ts = .error (.indexOutOfDepth i depth) := by
  by_cases hp : ∃ depth, p = .oneHot depth
  · obtain ⟨depth, rfl⟩ := hp
    rcases Primitive.oneHot_realised h with ⟨hreal, hnone⟩ | ⟨i, d, shape, hover, hs, herror⟩
    · exact .inl ⟨execute_realised h hreal, hnone⟩
    · have hshape : s.shape? = some shape := TensorSpec.shape_of_eq hs
      refine .inr ⟨i, d, hover, ?_⟩
      simp [execute, h, hshape, herror, bind, Except.bind]
  · have hp : ∀ depth, p ≠ .oneHot depth := fun depth heq => hp ⟨depth, heq⟩
    refine .inl ⟨execute_realised h (Primitive.compute_realised hp hbounded h), ?_⟩
    intro i depth hover
    exact hp depth hover.1

/-- Whatever comes out has the spec inferred from the operands. -/
theorem infer_of_execute (hbounded : p.bounded = true) {t : Tensor} (h : execute p ts = .ok t) :
    p.infer (ts.map Tensor.spec) = .ok t.spec := by
  cases hinfer : p.infer (ts.map Tensor.spec) with
  | error cause =>
    rw [execute_refused hinfer] at h
    cases h
  | ok s =>
    rcases execute_outcome hbounded hinfer with ⟨⟨u, hu, hrealises⟩, -⟩ | ⟨i, depth, -, herror⟩
    · rw [hu] at h
      cases h
      rw [hrealises.spec]
    · rw [herror] at h
      cases h

/-- What the kernels fail for: operands that inference refuses, or an index outside its depth. -/
theorem execute_error (hbounded : p.bounded = true) {e : KernelError} (h : execute p ts = .error e) :
    (∃ cause, p.infer (ts.map Tensor.spec) = .error cause ∧ e = .shape cause) ∨
      ∃ i depth, p.Overruns ts i depth ∧ e = .indexOutOfDepth i depth := by
  cases hinfer : p.infer (ts.map Tensor.spec) with
  | error cause =>
    rw [execute_refused hinfer] at h
    cases h
    exact .inl ⟨cause, rfl, rfl⟩
  | ok s =>
    rcases execute_outcome hbounded hinfer with ⟨⟨u, hu, -⟩, -⟩ | ⟨i, depth, hover, herror⟩
    · rw [hu] at h
      cases h
    · rw [herror] at h
      cases h
      exact .inr ⟨i, depth, hover, rfl⟩

end Kernel

/-- Operands that inference refuses are refused by the kernels for the same reason. On all others
    there is a result with the inferred spec, unless an index to expand lies outside its depth, and
    then one such index is reported. No step of the computation is aborted. Sizes are numbers here, and
    machine words where operands and result fit into these. -/
theorem Kernels.reference_realises (p : Primitive) (ts : List Tensor) (hbounded : p.bounded = true) :
    (∀ cause, p.infer (ts.map Tensor.spec) = .error cause → reference.execute p ts = .error (.shape cause)) ∧
    (∀ s, p.infer (ts.map Tensor.spec) = .ok s →
      (∃ t, reference.execute p ts = .ok t ∧ t.Realises s) ∧ (∀ i depth, ¬ p.Overruns ts i depth) ∨
        ∃ i depth, p.Overruns ts i depth ∧ reference.execute p ts = .error (.indexOutOfDepth i depth)) ∧
    ∀ cause, reference.execute p ts ≠ .error (.fault cause) := by
  refine ⟨fun cause h => Kernel.execute_refused h, fun s h => Kernel.execute_outcome hbounded h, ?_⟩
  intro cause hfault
  rcases Kernel.execute_error hbounded hfault with ⟨_, -, h⟩ | ⟨_, _, -, h⟩
  · cases h
  · cases h

/-- Values without any steps, clipped to the unit interval. -/
theorem Kernels.clip_realises : (Primitive.clip 0 1).bounded = true ∧
    ∃ t, reference.execute (.clip 0 1) [Tensor.zeros ⟨[0, 3]⟩] = .ok t ∧ t.Realises ⟨.f32, [.fixed 0, .fixed 3]⟩ := by
  have hbounded : (Primitive.clip 0 1).bounded = true := by decide +kernel
  have hle : ¬ (0 : Float32) > 1 := by decide +kernel
  have hinfer : (Primitive.clip 0 1).infer [(Tensor.zeros ⟨[0, 3]⟩).spec] = .ok ⟨.f32, [.fixed 0, .fixed 3]⟩ := by
    simp only [Primitive.infer, if_neg hle]
    rfl
  refine ⟨hbounded, ?_⟩
  obtain ⟨-, hanswers, -⟩ := Kernels.reference_realises (.clip 0 1) [Tensor.zeros ⟨[0, 3]⟩] hbounded
  rcases hanswers _ hinfer with ⟨hok, -⟩ | ⟨_, _, h, -⟩
  · exact hok
  · cases h.1

end ComponentFlow
