/-
  ComponentFlow.Proofs.Lanes — kernels along an axis, lane by lane. A lane has fixed coordinates on the axes before and
  behind, and runs along the one in between. The kernels count through flat indices on both sides of the axis, whatever
  extents there are; what they give for a lane is a function of its elements (`Kernels.kernels_act_on_lanes`), and each
  element lies in one lane only.

  - `Tensor.along`: the elements of a lane in order.
  - `Shape.around`: axes, or coordinates, with or without the one in between.
  - `Shape.InLane`: where an element is in its lane.
-/
import ComponentFlow.Proofs.Largest
import ComponentFlow.Proofs.Pointwise
import ComponentFlow.Proofs.Rounding
import ComponentFlow.Proofs.Words

namespace ComponentFlow

/-! ## Coordinates -/

namespace Shape

variable {lead trail p q : List Nat}

/-- What is on both sides of an axis, with one entry for the axis if `keep` says so. -/
def around (keep : Bool) (n : Nat) (p q : List Nat) : List Nat := if keep then p ++ n :: q else p ++ q

theorem within_around (hp : Within lead p) (hq : Within trail q) (keep : Bool) :
    Within (around keep 1 lead trail) (around keep 0 p q) := by
  cases keep with
  | true => exact List.rel_append hp (.cons Nat.one_pos hq)
  | false => exact List.rel_append hp hq

theorem offset_around (hp : Within lead p) (keep : Bool) :
    offset (around keep 1 lead trail) (around keep 0 p q) = offset lead p * product trail + offset trail q := by
  cases keep with
  | true => exact (offset_append hp _ _).trans (by simp)
  | false => exact offset_append hp _ _

theorem product_around (keep : Bool) : product (around keep 1 lead trail) = product lead * product trail := by
  cases keep <;> simp [around]

theorem offset_between (hp : Within lead p) (extent k : Nat) :
    offset (lead ++ extent :: trail) (p ++ k :: q) =
      (⟨product lead, extent, product trail⟩ : Kernel.Split).index (offset lead p) k (offset trail q) := by
  rw [offset_append hp, offset_cons, product_cons, Kernel.Split.index, Nat.add_mul, Nat.mul_assoc, Nat.add_assoc]

/-- The place `i` is that of element `k` in the lane at the coordinates `p` before and `q` behind the axis. -/
structure InLane (lead : List Nat) (extent : Nat) (trail p q : List Nat) (k i : Nat) : Prop where
  before : Within lead p
  behind : Within trail q
  along : k < extent
  place : offset (lead ++ extent :: trail) (p ++ k :: q) = i

theorem InLane.within {extent k i : Nat} (h : InLane lead extent trail p q k i) :
    Within (lead ++ extent :: trail) (p ++ k :: q) := List.rel_append h.before (.cons h.along h.behind)

theorem exists_inLane {extent i : Nat} (hi : i < product (lead ++ extent :: trail)) :
    ∃ p q k, InLane lead extent trail p q k i := by
  obtain ⟨p, m, hsplit, hp, hm⟩ := (within_coordinates hi).append_inv
  cases hm with
  | @cons _ k _ q hk hq => exact ⟨p, q, k, hp, hq, hk, hsplit ▸ offset_coordinates hi⟩

/-- Lanes have no place in common. -/
theorem InLane.unique {extent k k' i : Nat} {p' q' : List Nat} (h : InLane lead extent trail p q k i)
    (h' : InLane lead extent trail p' q' k' i) : p' = p ∧ q' = q ∧ k' = k := by
  have hsame : p' ++ k' :: q' = p ++ k :: q := by
    rw [← coordinates_offset h'.within, ← coordinates_offset h.within, h'.place, h.place]
  have hlength : p'.length = p.length := (List.Forall₂.length_eq h'.before).symm.trans (List.Forall₂.length_eq h.before)
  obtain ⟨hp, hrest⟩ := List.append_inj hsame hlength
  obtain ⟨hk, hq⟩ := List.cons_eq_cons.mp hrest
  exact ⟨hp, hq, hk⟩

end Shape

open Shape (Within around offset product)

namespace Tensor

/-- The elements along an axis of this extent, at the coordinates `p` before and `q` behind it. -/
def along (x : Tensor) (extent : Nat) (p q : List Nat) : List Float32 :=
  (List.range extent).map fun k => x.entry (p ++ k :: q)

/-- The tensor of one axis with these elements. -/
def vector (dtype : DType) (xs : List Float32) : Tensor := ⟨dtype, ⟨[xs.length]⟩, xs.toArray, by simp [Shape.count]⟩

variable {x : Tensor} {extent k : Nat} {p q : List Nat} {dtype : DType} {xs : List Float32}

theorem length_along : (x.along extent p q).length = extent := by simp [along]

theorem getElem?_along (hk : k < extent) : (x.along extent p q)[k]? = some (x.entry (p ++ k :: q)) := by
  simp [along, hk]

theorem entry_vector (k : Nat) : (vector dtype xs).entry [k] = xs[k]?.getD 0 := by simp [entry, vector]

/-- A vector is its own lane. -/
theorem along_vector : (vector dtype xs).along xs.length [] [] = xs := by
  refine List.ext_getElem? fun k => ?_
  by_cases hk : k < xs.length
  · rw [getElem?_along hk, List.nil_append, entry_vector]
    simp [hk]
  · simp [along, hk]

end Tensor

/-- The softmax along an axis, or its logarithm. -/
def Primitive.softmaxAlong (log : Bool) (axis : Nat) : Primitive := if log then .logSoftmax axis else .softmax axis

/-! ## Kernels along an axis -/

namespace Kernel

section Coordinates

variable {x : Tensor} {lead trail p q : List Nat} {extent : Nat} (hdims : x.shape.dims = lead ++ extent :: trail)
include hdims

theorem ofAxis_between : Split.ofAxis x.shape.dims lead.length = .ok ⟨product lead, extent, product trail⟩ := by
  simp [Split.ofAxis, hdims]

theorem entry_between (hp : Within lead p) (k : Nat) : x.entry (p ++ k :: q) = x.data.getD
    ((⟨product lead, extent, product trail⟩ : Split).index (offset lead p) k (offset trail q)) 0 := by
  rw [Tensor.entry, hdims, Shape.offset_between hp]

theorem laneAt_between (hp : Within lead p) :
    laneAt x ⟨product lead, extent, product trail⟩ (offset lead p) (offset trail q) = x.along extent p q :=
  List.map_congr_left fun k _ => (entry_between hdims hp k).symm

/-- A function of lanes gives one element for each of them, at the coordinates beside the axis. -/
theorem execute_lanes {prim : Primitive} {dtype : DType} {f : List Float32 → Float32} (keep : Bool)
    (hinfer : prim.infer [x.spec] = .ok (.ofShape dtype ⟨around keep 1 lead trail⟩))
    (hcompute : ∀ shape, compute prim [x] shape = eachLane x lead.length f) : ∃ y, execute prim [x] = .ok y ∧
      y.spec = .ofShape dtype ⟨around keep 1 lead trail⟩ ∧ ∀ p q, Within lead p → Within trail q →
        y.element? (around keep 0 p q) = some (dtype.coerce (f (x.along extent p q))) := by
  have hplaces := eachLane_places (ofAxis_between hdims) f
  have hcount : Shape.count ⟨around keep 1 lead trail⟩ = product lead * product trail := Shape.product_around keep
  refine ⟨_, execute_tabulated hinfer (hcount ▸ (hcompute _).trans hplaces), rfl, fun p q hp hq => ?_⟩
  have hm : Within (Shape.mk (around keep 1 lead trail)).dims (around keep 0 p q) := Shape.within_around hp hq keep
  obtain ⟨hbefore, hbehind⟩ := place_in_row (r := offset lead p) hq.offset_lt
  rw [Tensor.element?_tabulated hm, Shape.offset_around hp, hbefore, hbehind, laneAt_between hdims hp]

theorem reduceAxis_around (keep : Bool) : Primitive.reduceAxis x.spec.dims lead.length keep =
    (around keep 1 lead trail).map .fixed := by
  have hset : x.shape.dims.set lead.length 1 = lead ++ 1 :: trail := by simp [hdims]
  have herase : x.shape.dims.eraseIdx lead.length = lead ++ trail := by
    rw [hdims, List.eraseIdx_append_of_length_le (Nat.le_refl _)]
    simp
  cases keep with
  | true => exact List.map_set.symm.trans (congrArg (List.map Dim.fixed) hset)
  | false => exact (List.eraseIdx_map _ _ _).trans (congrArg (List.map Dim.fixed) herase)

theorem axis_below_rank : lead.length < x.spec.rank := by
  rw [Primitive.rank_spec, hdims]
  simp

theorem execute_reduce (op : ReduceOp) (keep : Bool) : ∃ y, execute (.reduce op (some lead.length) keep) [x] = .ok y ∧
    y.spec = .ofShape (if op = .mean then .f32 else x.dtype) ⟨around keep 1 lead trail⟩ ∧
      ∀ p q, Within lead p → Within trail q → y.element? (around keep 0 p q) =
        some ((if op = .mean then DType.f32 else x.dtype).coerce (op.fold (x.along extent p q))) := by
  refine execute_lanes hdims keep ?_ fun _ => rfl
  simp only [Primitive.infer, Primitive.inferReduce, Primitive.checkAxis_then]
  exact ⟨axis_below_rank hdims, by rw [reduceAxis_around hdims]; rfl⟩

theorem execute_argMax : ∃ y, execute (.argMax lead.length) [x] = .ok y ∧ y.spec = .ofShape .i32 ⟨lead ++ trail⟩ ∧
    ∀ p q, Within lead p → Within trail q →
      y.element? (p ++ q) = some (Scalar.trunc (argMaxOf (x.along extent p q))) := by
  refine execute_lanes hdims false ?_ fun _ => rfl
  simp only [Primitive.infer, Primitive.checkAxis_then]
  exact ⟨axis_below_rank hdims, by rw [reduceAxis_around hdims]; rfl⟩

theorem infer_softmaxAlong (log : Bool) (hfloat : x.dtype.isFloat = true) :
    (Primitive.softmaxAlong log lead.length).infer [x.spec] = .ok x.spec := by
  have hcheck : (do
      Primitive.checkFloat (Primitive.softmaxAlong log lead.length) x.spec
      Primitive.checkAxis (Primitive.softmaxAlong log lead.length) x.spec lead.length
      .ok x.spec) = Except.ok x.spec :=
    Primitive.checkFloat_then.mpr ⟨hfloat, Primitive.checkAxis_then.mpr ⟨axis_below_rank hdims, rfl⟩⟩
  cases log <;> exact hcheck

theorem execute_softmaxAlong (log : Bool) (hfloat : x.dtype.isFloat = true) :
    ∃ y, execute (Primitive.softmaxAlong log lead.length) [x] = .ok y ∧ y.spec = x.spec ∧
      ∀ p q k, Within lead p → Within trail q → k < extent → y.element? (p ++ k :: q) =
        some (x.dtype.coerce (softmaxOf log (x.along extent p q) (x.entry (p ++ k :: q)))) := by
  have hcompute : compute (Primitive.softmaxAlong log lead.length) [x] x.shape = softmax x lead.length log := by
    cases log <;> rfl
  have hcount : x.shape.count = product lead * (extent * product trail) := by simp [Shape.count, hdims]
  have hplaces := hcompute.trans (softmax_places (ofAxis_between hdims) log)
  refine ⟨_, execute_tabulated (infer_softmaxAlong hdims log hfloat) (hcount ▸ hplaces), rfl,
    fun p q k hp hq hk => ?_⟩
  have hm : Within x.shape.dims (p ++ k :: q) := hdims ▸ List.rel_append hp (.cons hk hq)
  have hplace : offset x.shape.dims (p ++ k :: q) =
      offset lead p * (extent * product trail) + (k * product trail + offset trail q) := by
    rw [hdims, Shape.offset_append hp, Shape.offset_cons, Shape.product_cons]
  obtain ⟨hbefore, hinside⟩ := place_in_row (r := offset lead p) (row_index_lt hk hq.offset_lt)
  obtain ⟨halong, hbehind⟩ := place_in_row (r := k) hq.offset_lt
  rw [Tensor.element?_tabulated hm, hplace, hbefore, hinside, halong, hbehind, softmaxAt, laneAt_between hdims hp,
    ← entry_between hdims hp]

end Coordinates

/-- On a lane alone, the softmax is a function of the lane as well. -/
theorem execute_softmax_vector (log : Bool) {dtype : DType} (hfloat : dtype.isFloat = true) (lane : List Float32) :
    ∃ z, execute (Primitive.softmaxAlong log 0) [.vector dtype lane] = .ok z ∧ ∀ k < lane.length,
      z.element? [k] = some (dtype.coerce (softmaxOf log lane (lane[k]?.getD 0))) := by
  have hdims : (Tensor.vector dtype lane).shape.dims = [] ++ lane.length :: [] := rfl
  obtain ⟨z, hz, -, helements⟩ := execute_softmaxAlong hdims log hfloat
  refine ⟨z, hz, fun k hk => ?_⟩
  have helement := helements [] [] k .nil .nil hk
  rwa [Tensor.along_vector, List.nil_append, Tensor.entry_vector] at helement

end Kernel

namespace Kernels

open Kernel (LargestPlace)

variable {x : Tensor} {lead trail : List Nat} {extent : Nat}

/-- Reducing gives the fold of each lane. The largest element is searched in each lane, and its place is exact as long
    as payload values can tell places apart. A softmax gives along each lane what it gives for the lane alone; like
    this, values that are no floats are refused. Each element is in one lane, and there once. Operand and result must
    fit into machine words, and then the counts on both sides of the axis do and all places. -/
theorem kernels_act_on_lanes (hdims : x.shape.dims = lead ++ extent :: trail) (hfits : x.shape.Fits) :
    x.shape.Exact ∧
    (∀ op keep, Shape.Fits ⟨around keep 1 lead trail⟩ → Shape.Exact ⟨around keep 1 lead trail⟩ ∧
      ∃ y, reference.execute (.reduce op (some lead.length) keep) [x] = .ok y ∧
      y.spec = .ofShape (if op = .mean then .f32 else x.dtype) ⟨around keep 1 lead trail⟩ ∧
      ∀ p q, Within lead p → Within trail q → y.element? (around keep 0 p q) =
        some ((if op = .mean then DType.f32 else x.dtype).coerce (op.fold (x.along extent p q)))) ∧
    (extent ≤ 16777216 → Shape.Fits ⟨lead ++ trail⟩ → Shape.Exact ⟨lead ++ trail⟩ ∧
      ∃ y, reference.execute (.argMax lead.length) [x] = .ok y ∧
      y.spec = .ofShape .i32 ⟨lead ++ trail⟩ ∧ ∀ p q, Within lead p → Within trail q →
        ∃ place, LargestPlace (x.along extent p q) place ∧ (0 < extent → place < extent) ∧
          y.element? (p ++ q) = some (Scalar.ofNat place) ∧ Scalar.toInt32 (Scalar.ofNat place) = place) ∧
    (∀ log, x.dtype.isFloat = true → ∃ y, reference.execute (.softmaxAlong log lead.length) [x] = .ok y ∧
      y.spec = x.spec ∧ ∀ p q, Within lead p → Within trail q →
        ∃ z, reference.execute (.softmaxAlong log 0) [.vector x.dtype (x.along extent p q)] = .ok z ∧
          ∀ k < extent, y.element? (p ++ k :: q) = z.element? [k]) ∧
    (∀ log, x.dtype.isFloat = false → reference.execute (.softmaxAlong log lead.length) [x] =
      .error (.shape (.notFloat (Primitive.softmaxAlong log lead.length).name x.spec))) ∧
    ∀ i < x.size, ∃ p q k, Shape.InLane lead extent trail p q k i ∧ x.data[i]? = (x.along extent p q)[k]? ∧
      ∀ p' q' k', Shape.InLane lead extent trail p' q' k' i → p' = p ∧ q' = q ∧ k' = k := by
  refine ⟨Shape.exact_of_fits hfits, fun op keep hresult => ?_, fun hextent hresult => ?_, fun log hfloat => ?_,
    fun log hfloat => ?_, fun i hi => ?_⟩
  · exact ⟨Shape.exact_of_fits hresult, Kernel.execute_reduce hdims op keep⟩
  · obtain ⟨y, hy, hspec, helements⟩ := Kernel.execute_argMax hdims
    refine ⟨Shape.exact_of_fits hresult, y, hy, hspec, fun p q hp hq => ?_⟩
    have hlargest := Kernel.firstLargest_places (x.along extent p q)
    have hplace := hlargest.le
    have hsome := hlargest.lt
    rw [Tensor.length_along] at hplace hsome
    refine ⟨_, hlargest, hsome, ?_, Scalar.toInt32_ofNat (Nat.le_trans hplace hextent)⟩
    rw [helements p q hp hq, Kernel.argMaxOf, Scalar.trunc_ofNat (by omega)]
  · obtain ⟨y, hy, hspec, helements⟩ := Kernel.execute_softmaxAlong hdims log hfloat
    refine ⟨y, hy, hspec, fun p q hp hq => ?_⟩
    obtain ⟨z, hz, hlane⟩ := Kernel.execute_softmax_vector log hfloat (x.along extent p q)
    refine ⟨z, hz, fun k hk => ?_⟩
    rw [helements p q k hp hq hk, hlane k (Tensor.length_along.symm ▸ hk), Tensor.getElem?_along hk]
    rfl
  · refine Kernel.execute_refused ?_
    have hspec : x.spec.dtype.isFloat = false := hfloat
    cases log <;>
      simp [Primitive.softmaxAlong, Primitive.infer, Primitive.checkFloat, hspec, bind, Except.bind]
  · have hplace : i < product (lead ++ extent :: trail) := by
      rw [← hdims]
      exact Nat.lt_of_lt_of_eq hi x.size_eq
    obtain ⟨p, q, k, hlane⟩ := Shape.exists_inLane hplace
    refine ⟨p, q, k, hlane, ?_, fun p' q' k' => hlane.unique⟩
    rw [Tensor.getElem?_along hlane.along, ← Tensor.element?_within (hdims ▸ hlane.within), Tensor.element?, hdims,
      hlane.place]

def cube : Tensor := ⟨.f32, ⟨[2, 2, 2]⟩, #[1, 8, 3, 4, 5, 6, 7, 2], rfl⟩

theorem cube_along_middle_axis :
    (∃ y, reference.execute (.reduce .sum (some 1) true) [cube] = .ok y ∧ y.element? [0, 0, 1] = some 12) ∧
    (∃ y, reference.execute (.argMax 1) [cube] = .ok y ∧ y.element? [1, 0] = some 1) ∧
    ∃ y z, reference.execute (.softmax 1) [cube] = .ok y ∧
      reference.execute (.softmax 0) [.vector .f32 [8, 4]] = .ok z ∧ y.element? [0, 1, 1] = z.element? [1] := by
  have hdims : cube.shape.dims = [2] ++ 2 :: [2] := rfl
  have hzero : Within [2] [0] := .cons (by decide) .nil
  have hone : Within [2] [1] := .cons (by decide) .nil
  have hright : cube.along 2 [0] [1] = [8, 4] := by decide +kernel
  have hleft : cube.along 2 [1] [0] = [5, 7] := by decide +kernel
  have hfits : cube.shape.Fits := by decide
  obtain ⟨-, hreduce, hargMax, hsoftmax, -, -⟩ := kernels_act_on_lanes hdims hfits
  refine ⟨?_, ?_, ?_⟩
  · obtain ⟨-, y, hy, -, helements⟩ := hreduce .sum true (by decide)
    have hsum : DType.f32.coerce (ReduceOp.sum.fold [8, 4]) = 12 := by decide +kernel
    exact ⟨y, hy, (helements [0] [1] hzero hone).trans (hright ▸ congrArg some hsum)⟩
  · obtain ⟨-, y, hy, -, helements⟩ := hargMax (by decide) (by decide)
    obtain ⟨place, hlargest, hplace, helement, -⟩ := helements [1] [0] hone hzero
    rw [hleft] at hlargest
    have hlast : place = 1 := by
      cases hlargest with
      | first h _ =>
        have hnot : ¬ (7 : Float32) ≤ 5 := by decide +kernel
        have hpositive : place ≠ 0 := by
          rintro rfl
          cases h.here
          exact hnot (h.largest 7 (by simp) (by decide +kernel))
        have := hplace (by decide)
        omega
      | none hnone => exact absurd (by decide +kernel) (hnone 7 (by simp))
    subst hlast
    exact ⟨y, hy, helement⟩
  · obtain ⟨y, hy, -, helements⟩ := hsoftmax false rfl
    obtain ⟨z, hz, hlane⟩ := helements [0] [1] hzero hone
    rw [hright] at hz
    exact ⟨y, z, hy, hz, hlane 1 (by decide)⟩

end Kernels

end ComponentFlow
