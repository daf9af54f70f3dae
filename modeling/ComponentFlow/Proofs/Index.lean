/-
  ComponentFlow.Proofs.Index — elements by their coordinates. A multi-index has one coordinate for each axis,
  below its extent; the place of its element in a payload is the sum of the coordinates times the strides. With
  the first axis the most significant, multi-indices are the numerals of the places: each place below the number
  of elements has exactly one (`Shape.offset_coordinates`, `Shape.coordinates_offset`).

  - `Shape.offset_append`: the leading axes count in blocks of all the elements along the others.
  - `Tensor.element?`, `Tensor.entry`: the element at a multi-index.
  - `Shape.pinned`: where an operand that is spread over a shape has its element for a multi-index of the shape.
  - `Kernel.sourceIndex_offset`: the kernels' flat index is the offset of the pinned multi-index.
-/
import ComponentFlow.Proofs.Extent

namespace ComponentFlow

namespace Shape

variable {dims axes m : List Nat} {i : Nat}

/-- One coordinate for each axis, below its extent. -/
def Within (dims m : List Nat) : Prop := List.Forall₂ (fun n i => i < n) dims m

/-- The place of the element at a multi-index. -/
def offset (dims m : List Nat) : Nat := (List.zipWith (· * ·) m (stridesOf dims)).foldr (· + ·) 0

/-- The multi-index of a place. -/
def coordinates : List Nat → Nat → List Nat
  | [], _ => []
  | _ :: dims, i => i / product dims :: coordinates dims (i % product dims)

@[simp] theorem offset_nil (dims : List Nat) : offset dims [] = 0 := rfl

@[simp] theorem offset_cons (n : Nat) (dims : List Nat) (i : Nat) (m : List Nat) :
    offset (n :: dims) (i :: m) = i * product dims + offset dims m := rfl

theorem Within.offset_lt (h : Within dims m) : offset dims m < product dims := by
  induction h with
  | nil => exact Nat.one_pos
  | @cons n i dims m hi _ ih =>
    have hrow := Nat.mul_le_mul_right (product dims) (Nat.succ_le_of_lt hi)
    rw [Nat.succ_mul] at hrow
    rw [offset_cons, product_cons]
    omega

/-- A place that there is has no axis without extent. -/
theorem within_coordinates (h : i < product dims) : Within dims (coordinates dims i) := by
  induction dims generalizing i with
  | nil => exact .nil
  | cons n dims ih =>
    obtain ⟨-, hpos⟩ := pos_of_product_pos (Nat.zero_lt_of_lt h)
    exact .cons ((Nat.div_lt_iff_lt_mul hpos).mpr h) (ih (Nat.mod_lt i hpos))

theorem offset_coordinates (h : i < product dims) : offset dims (coordinates dims i) = i := by
  induction dims generalizing i with
  | nil => exact (Nat.lt_one_iff.mp h).symm
  | cons n dims ih =>
    obtain ⟨-, hpos⟩ := pos_of_product_pos (Nat.zero_lt_of_lt h)
    rw [coordinates, offset_cons, ih (Nat.mod_lt i hpos)]
    exact Nat.div_add_mod' i (product dims)

theorem coordinates_offset (h : Within dims m) : coordinates dims (offset dims m) = m := by
  induction h with
  | nil => rfl
  | @cons n i dims m hi hm ih =>
    have hrest : offset dims m < product dims := Within.offset_lt hm
    rw [coordinates, offset_cons, Nat.mul_comm i, Nat.mul_add_div (Nat.zero_lt_of_lt hrest), Nat.div_eq_of_lt hrest,
      Nat.add_zero, Nat.mul_add_mod, Nat.mod_eq_of_lt hrest, ih]

theorem offset_append {lead m' : List Nat} (h : Within lead m') (axes m : List Nat) :
    offset (lead ++ axes) (m' ++ m) = offset lead m' * product axes + offset axes m := by
  induction h with
  | nil => simp
  | @cons n i lead m' _ _ ih =>
    rw [List.cons_append, List.cons_append, offset_cons, ih, offset_cons, product_append, Nat.add_mul, Nat.mul_assoc,
      Nat.add_assoc]

end Shape

namespace Tensor

/-- The element at a multi-index. -/
def element? (t : Tensor) (m : List Nat) : Option Float32 := t.data[Shape.offset t.shape.dims m]?

/-- The same for a multi-index that is known to lie within the shape. -/
def entry (t : Tensor) (m : List Nat) : Float32 := t.data.getD (Shape.offset t.shape.dims m) 0

theorem element?_within {t : Tensor} {m : List Nat} (h : Shape.Within t.shape.dims m) :
    t.element? m = some (t.entry m) := by
  have hplace : Shape.offset t.shape.dims m < t.data.size := t.size_eq ▸ Shape.Within.offset_lt h
  simp [element?, entry, Array.getD, hplace]

theorem entry_eq_getD (t : Tensor) (m : List Nat) : t.entry m = (t.element? m).getD 0 :=
  Array.getD_eq_getD_getElem? ..

theorem data_eq_map_range (x : Tensor) :
    x.data = ((List.range x.shape.count).map fun i => x.data.getD i 0).toArray := by
  refine Array.ext (by simp [x.size_eq]) fun i hi _ => ?_
  simp [Array.getD, hi]

end Tensor

/-! ## Elements of operands -/

namespace Shape

variable {dims ins axes lead m : List Nat}

/-- The coordinate along an axis of an operand, zero if the extent is one. -/
def pin (n i : Nat) : Nat := if n = 1 then 0 else i

theorem pin_lt {n out i : Nat} (hn : n = 1 ∨ n = out) (hi : i < out) : pin n i < n := by
  unfold pin
  split <;> omega

theorem pin_self {n i : Nat} (hi : i < n) : pin n i = i := by
  unfold pin
  split <;> omega

/-- The multi-index of an operand's element, which has coordinates for the operand's own axes only. -/
def pinned (dims m : List Nat) : List Nat :=
  List.zipWith pin dims (m.drop (m.length - dims.length))

theorem pinned_append (h : dims.length = m.length) (m' : List Nat) :
    pinned dims (m' ++ m) = List.zipWith pin dims m := by
  have hlead : (m' ++ m).length - dims.length = m'.length := by
    rw [List.length_append]
    omega
  rw [pinned, hlead, List.drop_left]

theorem within_zip (hfit : List.Forall₂ (fun n out => n = 1 ∨ n = out) ins axes) (hm : Within axes m) :
    Within ins (List.zipWith pin ins m) := by
  induction hfit generalizing m with
  | nil => exact .nil
  | cons hn _ ih =>
    cases hm with
    | cons hi hm => exact .cons (pin_lt hn hi) (ih hm)

/-- In a shape, a multi-index of it is that of its own element. -/
theorem pinned_self (h : Within dims m) : pinned dims m = m := by
  rw [← List.nil_append m, pinned_append (List.Forall₂.length_eq h), List.nil_append]
  induction h with
  | nil => rfl
  | cons hi _ ih => rw [List.zipWith_cons_cons, pin_self hi, ih]

theorem Within.append_inv (h : Within (lead ++ axes) m) :
    ∃ m' m'', m = m' ++ m'' ∧ Within lead m' ∧ Within axes m'' := by
  induction lead generalizing m with
  | nil => exact ⟨[], m, rfl, .nil, h⟩
  | cons n lead ih =>
    cases h with
    | @cons _ i _ m hi hm =>
      obtain ⟨m', m'', rfl, hlead, haxes⟩ := ih hm
      exact ⟨i :: m', m'', rfl, .cons hi hlead, haxes⟩

end Shape

/-- The operand's element under a place of the shape. -/
def Tensor.under (t : Tensor) (shape : Shape) (i : Nat) : Float32 :=
  t.data.getD (Shape.offset t.shape.dims (Shape.pinned t.shape.dims (Shape.coordinates shape.dims i))) 0

namespace Kernel

open Shape (Within Stretches offset pin pinned)

variable {t : Tensor} {shape : Shape}

theorem drop_stridesOf (dims : List Nat) (k : Nat) : (Shape.stridesOf dims).drop k = Shape.stridesOf (dims.drop k) := by
  induction dims generalizing k with
  | nil => simp [Shape.stridesOf]
  | cons n dims ih =>
    cases k with
    | zero => rfl
    | succ k => exact ih k

theorem coordinate_row {q n i stride rest : Nat} (hi : i < n) (hrest : rest < stride) :
    coordinate ((q * n + i) * stride + rest) stride n = .ok i := by
  have hstride : 0 < stride := Nat.zero_lt_of_lt hrest
  have hdiv : ((q * n + i) * stride + rest) / stride = q * n + i := by
    rw [Nat.mul_comm, Nat.mul_add_div hstride, Nat.div_eq_of_lt hrest, Nat.add_zero]
  have hmod : (q * n + i) % n = i := by
    rw [Nat.mul_comm, Nat.mul_add_mod, Nat.mod_eq_of_lt hi]
  rw [coordinate, if_neg (by omega), hdiv, hmod]

/-- In whatever block of the leading axes the place lies, each axis gives its coordinate there. -/
theorem sourceIndex_offset {ins axes m : List Nat} (hfit : List.Forall₂ (fun n out => n = 1 ∨ n = out) ins axes)
    (hm : Within axes m) (q : Nat) :
    sourceIndex (q * Shape.product axes + offset axes m) ins (Shape.stridesOf ins) axes (Shape.stridesOf axes) =
      .ok (offset ins (List.zipWith pin ins m)) := by
  induction hfit generalizing m q with
  | nil =>
    cases hm
    rfl
  | @cons n out ins axes hn _ ih =>
    cases hm with
    | @cons _ i _ m hi hm =>
      have hflat : q * Shape.product (out :: axes) + offset (out :: axes) (i :: m) =
          (q * out + i) * Shape.product axes + offset axes m := by
        rw [Shape.product_cons, Shape.offset_cons, Nat.add_mul, Nat.mul_assoc, Nat.add_assoc]
      have hcoordinate := coordinate_row (q := q) hi (Within.offset_lt hm)
      rw [hflat]
      simp only [Shape.stridesOf, sourceIndex, ih hm, hcoordinate, bind, Except.bind, List.zipWith_cons_cons,
        Shape.offset_cons, pin]
      by_cases hone : n = 1
      · simp only [if_pos hone, Nat.zero_mul, Nat.zero_add]
      · simp only [if_neg hone]

/-- The operand's multi-index under one of the shape, and the flat index that the kernels compute for it. -/
theorem pinned_element (h : Stretches t.shape.dims.reverse shape.dims.reverse) {m : List Nat}
    (hm : Within shape.dims m) : Within t.shape.dims (pinned t.shape.dims m) ∧
      sourceIndex (offset shape.dims m) t.shape.dims t.shape.strides
        (shape.dims.drop (shape.rank - t.shape.rank)) (shape.strides.drop (shape.rank - t.shape.rank)) =
          .ok (offset t.shape.dims (pinned t.shape.dims m)) := by
  obtain ⟨lead, axes, hdims, hfit⟩ := h.last_axes
  have hoffset : shape.rank - t.shape.rank = lead.length := by
    have hlength := hfit.length_eq
    simp only [Shape.rank, hdims, List.length_append]
    omega
  rw [hdims] at hm
  obtain ⟨m', m'', rfl, hlead, haxes⟩ := hm.append_inv
  have hpinned : pinned t.shape.dims (m' ++ m'') = List.zipWith pin t.shape.dims m'' :=
    Shape.pinned_append (hfit.length_eq.trans (List.Forall₂.length_eq haxes)) m'
  rw [hpinned]
  refine ⟨Shape.within_zip hfit haxes, ?_⟩
  simp only [Shape.strides, drop_stridesOf, hoffset, hdims, List.drop_left, Shape.offset_append hlead]
  exact sourceIndex_offset hfit haxes _

end Kernel

/-- Under the place of a multi-index stands the operand's element at the pinned one. -/
theorem Tensor.element?_pinned {t : Tensor} {shape : Shape}
    (h : Shape.Stretches t.shape.dims.reverse shape.dims.reverse) {m : List Nat} (hm : Shape.Within shape.dims m) :
    t.element? (Shape.pinned t.shape.dims m) = some (t.under shape (Shape.offset shape.dims m)) := by
  rw [under, Shape.coordinates_offset hm]
  exact element?_within (Kernel.pinned_element h hm).1

end ComponentFlow
