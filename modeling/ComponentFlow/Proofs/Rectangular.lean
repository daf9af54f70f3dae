/-
  ComponentFlow.Proofs.Rectangular — which arguments are read as tensors. The shape is taken along the first
  elements and the payload is all leaves from left to right; of the rest of the shape only the number of
  leaves is checked. So a rectangular array is read as it stands, and an array that is nowhere longer than
  along its first elements is read only if it is rectangular (`Arguments.tensor_counted`); but an array of
  uneven rows is read as well, where long rows make up for short ones (`Arguments.uneven_read`).
-/
import ComponentFlow.Proofs.Effect
import ComponentFlow.Proofs.Payload
import ComponentFlow.Spec.Arguments

namespace ComponentFlow

/-! ## Arrays of numbers -/

namespace Json

/-- A number or a truth value, and the element that it stands for. -/
inductive Leaf : Json → Float32 → Prop
  | int (n : Int) : Leaf (.int n) (Scalar.narrow (Float.ofInt n))
  | float (x : Float) : Leaf (.float x) (Scalar.narrow x)
  | bool (b : Bool) : Leaf (.bool b) (Scalar.ofBool b)

/-- Leaves in arrays nested in any way, and their elements from left to right. -/
inductive Numeric : Json → List Float32 → Prop
  | leaf {v : Json} {x : Float32} : Leaf v x → Numeric v [x]
  | array {items : List Json} {rows : List (List Float32)} :
      List.Forall₂ Numeric items rows → Numeric (.array items) rows.flatten

/-- A leaf, or an array of rectangular values of one shape. An array without elements has extent zero. -/
inductive Rectangular : List Nat → Json → Prop
  | leaf {v : Json} {x : Float32} : Leaf v x → Rectangular [] v
  | empty : Rectangular [0] (.array [])
  | array {items : List Json} {dims : List Nat} : items ≠ [] → (∀ v ∈ items, Rectangular dims v) →
      Rectangular (items.length :: dims) (.array items)

/-- Each leaf stands in as many arrays as there are extents, and no array is longer than its extent. -/
inductive Within : List Nat → Json → Prop
  | leaf {v : Json} {x : Float32} : Leaf v x → Within [] v
  | array {items : List Json} {n : Nat} {dims : List Nat} : items.length ≤ n → (∀ v ∈ items, Within dims v) →
      Within (n :: dims) (.array items)

variable {v : Json} {dims : List Nat} {xs : List Float32}

theorem Leaf.numeric {x : Float32} (h : Leaf v x) (hxs : Numeric v xs) : xs = [x] := by
  cases hxs with
  | leaf h' => cases h <;> cases h' <;> rfl
  | array _ => cases h

theorem Rectangular.numeric (h : Rectangular dims v) : ∃ xs, Numeric v xs ∧ xs.length = Shape.product dims := by
  induction h with
  | leaf h => exact ⟨_, .leaf h, rfl⟩
  | empty => exact ⟨_, .array .nil, rfl⟩
  | @array items dims _ _ ih =>
    obtain ⟨rows, hrows⟩ := forall₂_exists ih
    refine ⟨_, .array (hrows.imp fun _ _ h => h.1), ?_⟩
    have hlengths : ∀ row ∈ rows, row.length = Shape.product dims := fun row hrow => by
      obtain ⟨_, -, -, hlength⟩ := forall₂_of_mem hrows.flip hrow
      exact hlength
    rw [Kernel.length_flatten_rows hlengths, ← hrows.length_eq, Shape.product_cons]

/-- Rows that are not too long come to the full number of elements only if none is too short. -/
theorem length_flatten_le {rows : List (List Float32)} {p : Nat} (h : ∀ row ∈ rows, row.length ≤ p) :
    rows.flatten.length ≤ rows.length * p ∧
      (rows.flatten.length = rows.length * p → ∀ row ∈ rows, row.length = p) := by
  induction rows with
  | nil => simp
  | cons row rows ih =>
    obtain ⟨hrow, hrows⟩ := List.forall_mem_cons.mp h
    obtain ⟨hle, heq⟩ := ih hrows
    rw [List.flatten_cons, List.length_append, List.length_cons, Nat.succ_mul]
    refine ⟨by omega, fun hfull => List.forall_mem_cons.mpr ⟨by omega, heq (by omega)⟩⟩

theorem Within.rows {items : List Json} {rows : List (List Float32)} (hrows : List.Forall₂ Numeric items rows)
    (ih : ∀ v ∈ items, ∀ xs, Numeric v xs → xs.length ≤ Shape.product dims) :
    ∀ row ∈ rows, row.length ≤ Shape.product dims := fun row hrow => by
  obtain ⟨w, hw, hnumeric⟩ := forall₂_of_mem hrows.flip hrow
  exact ih w hw row hnumeric

theorem Within.length_le (h : Within dims v) (hxs : Numeric v xs) : xs.length ≤ Shape.product dims := by
  induction h generalizing xs with
  | leaf h =>
    rw [h.numeric hxs]
    exact Nat.le_refl _
  | @array items n dims hlength _ ih =>
    cases hxs with
    | leaf h => cases h
    | array hrows =>
      have hle := (length_flatten_le (Within.rows hrows fun v hv xs => ih v hv)).1
      rw [← hrows.length_eq] at hle
      exact Nat.le_trans hle (Nat.mul_le_mul_right _ hlength)

/-- With as many leaves as the extents allow for, nothing is missing anywhere. -/
theorem Within.rectangular (h : Within dims v) (hxs : Numeric v xs) (hfull : xs.length = Shape.product dims)
    (hpos : 0 < xs.length) : Rectangular dims v := by
  induction h generalizing xs with
  | leaf h => exact .leaf h
  | @array items n dims hlength hitems ih =>
    cases hxs with
    | leaf h => cases h
    | @array _ rows hrows =>
      have hshort := Within.rows hrows fun v hv xs => (hitems v hv).length_le
      obtain ⟨hle, heven⟩ := length_flatten_le hshort
      rw [← hrows.length_eq] at hle heven
      obtain ⟨hn, hp⟩ := Shape.pos_of_product_pos (hfull ▸ hpos)
      rw [Shape.product_cons] at hfull
      have hsame : items.length = n := by
        have hmul := Nat.mul_le_mul_right (Shape.product dims) hlength
        exact Nat.eq_of_mul_eq_mul_right hp (by omega)
      subst hsame
      refine .array (List.ne_nil_of_length_pos hn) fun w hw => ?_
      obtain ⟨row, hrow, hnumeric⟩ := forall₂_of_mem hrows hw
      have hcount := heven hfull row hrow
      exact ih w hw hnumeric hcount (hcount ▸ hp)

end Json

/-! ## Reading a tensor -/

namespace Arguments

open Json

variable {a : Arguments} {key : String} {v : Json} {t : Tensor} {dims : List Nat}

mutual

theorem leaves_ok (v : Json) : ∀ xs, leaves v = .ok xs ↔ Numeric v xs := by
  intro xs
  have hleaf : ∀ {w x}, Leaf w x → ((Except.ok [x] : Except ArgumentError _) = .ok xs ↔ Numeric w xs) := by
    intro w x h
    refine ⟨fun hok => ?_, fun hxs => congrArg _ (h.numeric hxs).symm⟩
    cases hok
    exact .leaf h
  cases v with
  | int n => exact hleaf (.int n)
  | float x => exact hleaf (.float x)
  | bool b => exact hleaf (.bool b)
  | array items =>
    rw [leaves, leavesOfAll_ok items]
    constructor
    · rintro ⟨rows, hrows, rfl⟩
      exact .array hrows
    · intro h
      cases h with
      | leaf h => cases h
      | array hrows => exact ⟨_, hrows, rfl⟩
  | null | string | object =>
    simp only [leaves, reduceCtorEq, false_iff]
    intro h
    cases h with
    | leaf h => cases h

theorem leavesOfAll_ok (items : List Json) :
    ∀ xs, leavesOfAll items = .ok xs ↔ ∃ rows, List.Forall₂ Numeric items rows ∧ xs = rows.flatten := by
  intro xs
  cases items with
  | nil =>
    rw [leavesOfAll]
    constructor
    · intro h
      cases h
      exact ⟨[], .nil, rfl⟩
    · rintro ⟨rows, hrows, rfl⟩
      cases hrows
      rfl
  | cons v rest =>
    have hv := leaves_ok v
    have hrest := leavesOfAll_ok rest
    rw [leavesOfAll]
    rcases hfirst : leaves v with e | first
    · refine ⟨fun h => (nomatch h), ?_⟩
      rintro ⟨rows, hrows, rfl⟩
      cases hrows with
      | cons hrow _ => cases hfirst.symm.trans ((hv _).mpr hrow)
    · rcases hothers : leavesOfAll rest with e | others
      · refine ⟨fun h => (nomatch h), ?_⟩
        rintro ⟨rows, hrows, rfl⟩
        cases hrows with
        | cons _ hrows => cases hothers.symm.trans ((hrest _).mpr ⟨_, hrows, rfl⟩)
      · constructor
        · intro h
          cases h
          obtain ⟨rows, hrows, rfl⟩ := (hrest _).mp hothers
          exact ⟨first :: rows, .cons ((hv _).mp hfirst) hrows, rfl⟩
        · rintro ⟨rows, hrows, rfl⟩
          cases hrows with
          | @cons _ row _ rows hrow hrows =>
            cases hfirst.symm.trans ((hv _).mpr hrow)
            cases hothers.symm.trans ((hrest _).mpr ⟨_, hrows, rfl⟩)
            rfl

end

theorem tensorOf_ok : tensorOf v = .ok t ↔ Numeric v t.data.toList ∧ t.dtype = .f32 ∧ t.shape = ⟨probeDims v⟩ := by
  have hcoerce : ∀ data : Array Float32, data.map (DType.coerce .f32) = data := fun data => Array.map_id data
  unfold tensorOf Tensor.ofFloats Tensor.ofData
  rcases hleaves : leaves v with e | xs
  · refine ⟨fun h => (nomatch h), fun h => ?_⟩
    cases hleaves.symm.trans ((leaves_ok v _).mpr h.1)
  · simp only [hcoerce]
    by_cases hcount : xs.toArray.size = Shape.count ⟨probeDims v⟩
    · simp only [bind, Except.bind, dif_pos hcount, Except.ok.injEq]
      constructor
      · rintro rfl
        exact ⟨(leaves_ok v xs).mp hleaves, rfl, rfl⟩
      · obtain ⟨dtype, shape, data, hsize⟩ := t
        rintro ⟨hnumeric, rfl, rfl⟩
        cases hleaves.symm.trans ((leaves_ok v _).mpr hnumeric)
        rfl
    · simp only [bind, Except.bind, dif_neg hcount, reduceCtorEq, false_iff]
      rintro ⟨hnumeric, -, hshape⟩
      cases hleaves.symm.trans ((leaves_ok v _).mpr hnumeric)
      exact hcount (hshape ▸ t.size_eq)

theorem tensor_ok (h : a.raw? key = some v) : a.tensor key = .ok (some t) ↔ tensorOf v = .ok t := by
  unfold tensor
  rw [h]
  dsimp only
  rcases tensorOf v with cause | t' <;> simp [Outcome.invalid]

theorem probeDims_of_rectangular (h : Rectangular dims v) : probeDims v = dims := by
  induction h with
  | leaf h => cases h <;> rfl
  | empty => rfl
  | @array items dims hne _ ih =>
    obtain ⟨first, rest, rfl⟩ := List.exists_cons_of_ne_nil hne
    rw [probeDims, probeFirst, ih first List.mem_cons_self]

/-- What becomes of an argument. It is read exactly if it is made of numbers and truth values in arrays nested in
    any way, and has as many of them as the extents along the first elements multiply to; these extents are the shape
    then, and the leaves from left to right the payload. So whatever is rectangular is read as it stands; of what is
    read, that is rectangular which has elements and is nowhere longer or deeper than along its first elements; and
    what is not read is an error that names the argument. The extents are meant to multiply to a machine word: if they
    wrapped, an array with elements missing from most of its rows could be taken for a whole one. -/
theorem tensor_counted (h : a.raw? key = some v) :
    (∀ t, a.tensor key = .ok (some t) ↔ Numeric v t.data.toList ∧ t.dtype = .f32 ∧ t.shape = ⟨probeDims v⟩) ∧
    (∀ dims, Rectangular dims v → ∃ t, a.tensor key = .ok (some t) ∧ t.shape = ⟨dims⟩) ∧
    (∀ t, a.tensor key = .ok (some t) → Within t.shape.dims v → t.isEmpty = false → Rectangular t.shape.dims v) ∧
    ((¬ ∃ t, a.tensor key = .ok (some t)) →
      ∃ cause, a.tensor key = Outcome.invalid (.argument a.tag key cause)) := by
  have hread : ∀ t, a.tensor key = .ok (some t) ↔
      Numeric v t.data.toList ∧ t.dtype = .f32 ∧ t.shape = ⟨probeDims v⟩ := fun t => (tensor_ok h).trans tensorOf_ok
  refine ⟨hread, fun dims hdims => ?_, fun t ht hwithin hsome => ?_, fun hnone => ?_⟩
  · obtain ⟨xs, hxs, hlength⟩ := hdims.numeric
    have hprobe := probeDims_of_rectangular hdims
    refine ⟨⟨.f32, ⟨dims⟩, xs.toArray, hlength⟩, (hread _).mpr ⟨hxs, rfl, ?_⟩, rfl⟩
    rw [hprobe]
  · obtain ⟨hnumeric, -, -⟩ := (hread t).mp ht
    have hlength : t.data.toList.length = Shape.product t.shape.dims := t.size_eq
    refine hwithin.rectangular hnumeric hlength ?_
    have hsize : t.size ≠ 0 := by simpa [Tensor.isEmpty] using hsome
    exact Nat.pos_of_ne_zero hsize
  · rcases hv : tensorOf v with cause | t
    · refine ⟨cause, ?_⟩
      unfold tensor
      simp only [h, hv]
    · exact absurd ⟨t, (tensor_ok h).mpr hv⟩ hnone

/-- The arguments of a constant with this value. -/
def constant (value : Json) : Arguments := ⟨"const", [("value", value)]⟩

def matrix : Json := .array [.array [.int 1, .int 2], .array [.bool true, .int (-4)]]

theorem matrix_read : (constant matrix).raw? "value" = some matrix ∧
    ∃ t, (constant matrix).tensor "value" = .ok (some t) ∧ t.shape = ⟨[2, 2]⟩ := by
  have harray : ∀ (items : List Json) (dims : List Nat), items ≠ [] → (∀ v ∈ items, Rectangular dims v) →
      Rectangular (items.length :: dims) (.array items) := fun _ _ => .array
  have hints : Rectangular [2] (.array [.int 1, .int 2]) :=
    harray [.int 1, .int 2] [] (List.cons_ne_nil _ _) (by simpa using ⟨.leaf (.int 1), .leaf (.int 2)⟩)
  have hmixed : Rectangular [2] (.array [.bool true, .int (-4)]) :=
    harray [.bool true, .int (-4)] [] (List.cons_ne_nil _ _) (by simpa using ⟨.leaf (.bool true), .leaf (.int (-4))⟩)
  have hmatrix : Rectangular [2, 2] matrix :=
    harray [_, _] [2] (List.cons_ne_nil _ _) (by simpa using ⟨hints, hmixed⟩)
  have hraw : (constant matrix).raw? "value" = some matrix := rfl
  obtain ⟨-, hrectangular, -, -⟩ := tensor_counted hraw
  exact ⟨hraw, hrectangular _ hmatrix⟩

/-- A row of one element and a row of three, behind a row of two. -/
def uneven : Json := .array [.array [.int 1, .int 2], .array [.int 3], .array [.int 4, .int 5, .int 6]]

/-- Uneven rows are read as three rows of two, although they have no shape. -/
theorem uneven_read : (∃ t, (constant uneven).tensor "value" = .ok (some t) ∧ t.shape = ⟨[3, 2]⟩) ∧
    ∀ dims, ¬ Rectangular dims uneven := by
  constructor
  · have hread : ((constant uneven).tensor "value").toOption.join.map Tensor.shape = some ⟨[3, 2]⟩ := by
      decide +kernel
    obtain ⟨t, ht, hshape⟩ := Option.map_eq_some_iff.mp hread
    exact ⟨t, Outcome.toOption_ok.mp (Option.join_eq_some_iff.mp ht), hshape⟩
  · intro dims h
    have hrow : ∀ {dims row}, Rectangular dims row → probeDims row = dims := probeDims_of_rectangular
    cases h with
    | leaf h => cases h
    | array _ hrows =>
      have hfirst := hrow (hrows (.array [.int 1, .int 2]) (by simp))
      have hsecond := hrow (hrows (.array [.int 3]) (by simp))
      cases hfirst.trans hsecond.symm

end Arguments

end ComponentFlow
