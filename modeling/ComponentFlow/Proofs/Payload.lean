/-
  ComponentFlow.Proofs.Payload — putting payloads together. Every kernel reads its operands by indices of
  its own and lists what comes out, place by place or row by row; on operands that inference accepts the
  reads lie inside a payload, and as many elements come out as the result's shape has.

  - `flatten_places`: rows of one length, one after the other, place by place.
  - `spread_under`: an operand spread over a shape that it stretches to, one element under each place.
  - `spread_eq_gather`: that an operand of the shape is taken as it is makes no difference.
  - `oneHot_cases`: one row for each index, unless an index lies outside the depth.
-/
import ComponentFlow.Kernel.Reference
import ComponentFlow.Proofs.Index

namespace ComponentFlow.Kernel

variable {α β : Type}

/-! ## Computations that succeed -/

/-- Succeeds, with a result that has the property. -/
def Succeeds (r : Result α) (P : α → Prop) : Prop := ∃ a, r = .ok a ∧ P a

/-- Succeeds with a payload of `n` elements. -/
abbrev Fills (r : Result (Array Float32)) (n : Nat) : Prop := Succeeds r fun data => data.size = n

theorem succeeds_ok {a : α} {P : α → Prop} (h : P a) : Succeeds (.ok a) P := ⟨a, rfl, h⟩

theorem Succeeds.bind {r : Result α} {f : α → Result β} {P : α → Prop} {Q : β → Prop} (h : Succeeds r P)
    (hf : ∀ a, P a → Succeeds (f a) Q) : Succeeds (r >>= f) Q := by
  obtain ⟨a, rfl, ha⟩ := h
  exact hf a ha

theorem Succeeds.map {r : Result α} {f : α → β} {P : α → Prop} {Q : β → Prop} (h : Succeeds r P)
    (hf : ∀ a, P a → Q (f a)) : Succeeds (f <$> r) Q := by
  obtain ⟨a, rfl, ha⟩ := h
  exact ⟨f a, rfl, hf a ha⟩

theorem Succeeds.imp {r : Result α} {P Q : α → Prop} (h : Succeeds r P) (hPQ : ∀ a, P a → Q a) : Succeeds r Q := by
  obtain ⟨a, hr, ha⟩ := h
  exact ⟨a, hr, hPQ a ha⟩

theorem succeeds_mapM {f : α → Result β} {P : β → Prop} {xs : List α} (h : ∀ x ∈ xs, Succeeds (f x) P) :
    Succeeds (xs.mapM f) fun ys => ys.length = xs.length ∧ ∀ y ∈ ys, P y := by
  induction xs with
  | nil => exact succeeds_ok ⟨rfl, by simp⟩
  | cons x xs ih =>
    obtain ⟨hx, hxs⟩ := List.forall_mem_cons.mp h
    rw [List.mapM_cons]
    refine hx.bind fun y hy => (ih hxs).bind fun ys hys => succeeds_ok ⟨?_, ?_⟩
    · rw [List.length_cons, List.length_cons, hys.1]
    · exact List.forall_mem_cons.mpr ⟨hy, hys.2⟩

/-- Either every element has a result, or all fails with the failure of one of them. -/
theorem mapM_cases (f : α → Result β) (P : β → Prop) (xs : List α)
    (h : ∀ x ∈ xs, Succeeds (f x) P ∨ ∃ e, f x = .error e) :
    (Succeeds (xs.mapM f) fun ys => ys.length = xs.length ∧ ∀ y ∈ ys, P y) ∧ (∀ x ∈ xs, Succeeds (f x) P) ∨
      ∃ x ∈ xs, ∃ e, f x = .error e ∧ xs.mapM f = .error e := by
  induction xs with
  | nil => exact .inl ⟨succeeds_ok ⟨rfl, by simp⟩, by simp⟩
  | cons x xs ih =>
    obtain ⟨hx, hxs⟩ := List.forall_mem_cons.mp h
    rcases hx with hx | ⟨e, hx⟩
    · rcases ih hxs with ⟨-, hall⟩ | ⟨x', hmem, e, he, hmapM⟩
      · have hcons : ∀ y ∈ x :: xs, Succeeds (f y) P := List.forall_mem_cons.mpr ⟨hx, hall⟩
        exact .inl ⟨succeeds_mapM hcons, hcons⟩
      · obtain ⟨y, hy, -⟩ := hx
        refine .inr ⟨x', List.mem_cons_of_mem _ hmem, e, he, ?_⟩
        rw [List.mapM_cons, hy, hmapM]
        rfl
    · refine .inr ⟨x, List.mem_cons_self, e, hx, ?_⟩
      rw [List.mapM_cons, hx]
      rfl

theorem mapM_congr {f g : α → Result β} {xs : List α} (h : ∀ x ∈ xs, f x = g x) : xs.mapM f = xs.mapM g := by
  induction xs with
  | nil => rfl
  | cons x xs ih =>
    obtain ⟨hx, hxs⟩ := List.forall_mem_cons.mp h
    rw [List.mapM_cons, List.mapM_cons, hx, ih hxs]

theorem foldlM_congr {f g : β → α → Result β} {xs : List α} (h : ∀ x ∈ xs, ∀ b, f b x = g b x) (b : β) :
    xs.foldlM f b = xs.foldlM g b := by
  induction xs generalizing b with
  | nil => rfl
  | cons x xs ih =>
    obtain ⟨hx, hxs⟩ := List.forall_mem_cons.mp h
    rw [List.foldlM_cons, List.foldlM_cons, hx]
    exact congrArg _ (funext fun b' => ih hxs b')

theorem mapM_places {f : α → Result β} {g : α → β} {xs : List α} (h : ∀ x ∈ xs, f x = .ok (g x)) :
    xs.mapM f = .ok (xs.map g) :=
  (mapM_congr h).trans List.mapM_pure

theorem length_of_mapM {f : α → Result β} {xs : List α} {ys : List β} (h : xs.mapM f = .ok ys) :
    ys.length = xs.length := by
  induction xs generalizing ys with
  | nil =>
    cases h
    rfl
  | cons x xs ih =>
    rw [List.mapM_cons] at h
    rcases hx : f x with e | y
    · rw [hx] at h
      cases h
    rcases hxs : xs.mapM f with e | rest
    · rw [hx, hxs] at h
      cases h
    rw [hx, hxs] at h
    cases h
    exact congrArg (· + 1) (ih hxs)

/-! ## Reading and listing -/

theorem read_succeeds {t : Tensor} {i : Nat} (h : i < t.size) : Succeeds (read t i) fun _ => True := by
  refine ⟨t.data[i], ?_, trivial⟩
  unfold read
  rw [Array.getElem?_eq_getElem h]

theorem read_place {t : Tensor} {i : Nat} (h : i < t.size) : read t i = .ok (t.data.getD i 0) := by
  have hi : i < t.data.size := h
  simp [read, Array.getD, hi]

theorem zipIdx_places (n : Nat) (f : Nat → α) :
    ((List.range n).map f).zipIdx = (List.range n).map fun i => (f i, i) := by
  refine List.ext_getElem (by simp) fun i _ _ => ?_
  simp

theorem place_in_row {r c n : Nat} (hc : c < n) : (r * n + c) / n = r ∧ (r * n + c) % n = c := by
  have hn : 0 < n := Nat.zero_lt_of_lt hc
  rw [Nat.mul_comm r n, Nat.mul_add_div hn, Nat.div_eq_of_lt hc, Nat.mul_add_mod, Nat.mod_eq_of_lt hc]
  exact ⟨rfl, rfl⟩

/-- Rows of one length, one after the other, place by place. -/
theorem flatten_places (m n : Nat) (f : Nat → Nat → α) :
    ((List.range m).map fun r => (List.range n).map (f r)).flatten =
      (List.range (m * n)).map fun i => f (i / n) (i % n) := by
  induction m with
  | zero => simp
  | succ m ih =>
    have hlast : (List.range n).map (f m) = (List.range n).map fun c => f ((m * n + c) / n) ((m * n + c) % n) := by
      refine List.map_congr_left fun c hc => ?_
      obtain ⟨hrow, hcolumn⟩ := place_in_row (r := m) (List.mem_range.mp hc)
      rw [hrow, hcolumn]
    rw [List.range_succ, List.map_append, List.flatten_append, ih, Nat.succ_mul, List.range_add, List.map_append,
      List.map_map, List.map_singleton, List.flatten_singleton, hlast]
    rfl

theorem length_flatten_rows {rows : List (List α)} {n : Nat} (h : ∀ row ∈ rows, row.length = n) :
    rows.flatten.length = rows.length * n := by
  induction rows with
  | nil => simp
  | cons row rows ih =>
    obtain ⟨hrow, hrows⟩ := List.forall_mem_cons.mp h
    rw [List.flatten_cons, List.length_append, hrow, ih hrows, List.length_cons, Nat.succ_mul]
    omega

/-- Rows of one length, one after the other. -/
theorem flatten_fills {r : Result (List (List Float32))} {m n : Nat}
    (h : Succeeds r fun rows => rows.length = m ∧ ∀ row ∈ rows, row.length = n) :
    Fills ((fun rows => rows.flatten.toArray) <$> r) (m * n) := by
  refine h.map fun rows hrows => ?_
  rw [List.size_toArray, length_flatten_rows hrows.2, hrows.1]

theorem tabulate_congr {n : Nat} {f g : Nat → Result Float32} (h : ∀ i < n, f i = g i) : tabulate n f = tabulate n g :=
  congrArg (List.toArray <$> ·) (mapM_congr fun i hi => h i (List.mem_range.mp hi))

theorem tabulate_places (n : Nat) (f : Nat → Float32) :
    tabulate n (fun i => .ok (f i)) = .ok ((List.range n).map f).toArray := by
  have hrun : (List.range n).mapM (fun i => (.ok (f i) : Result Float32)) = .ok ((List.range n).map f) :=
    List.mapM_pure
  rw [tabulate, hrun]
  rfl

theorem size_of_tabulate {n : Nat} {f : Nat → Result Float32} {data : Array Float32} (h : tabulate n f = .ok data) :
    data.size = n := by
  unfold tabulate at h
  rcases hrun : (List.range n).mapM f with e | xs
  · rw [hrun] at h
    cases h
  · rw [hrun] at h
    cases h
    exact (length_of_mapM hrun).trans List.length_range

theorem tabulate2_places {outer inner : Nat} {f : Nat → Nat → Result Float32} {g : Nat → Nat → Float32}
    (h : ∀ o < outer, ∀ i < inner, f o i = .ok (g o i)) :
    tabulate2 outer inner f = .ok ((List.range (outer * inner)).map fun i => g (i / inner) (i % inner)).toArray := by
  have hrows : (List.range outer).mapM (fun o => (List.range inner).mapM (f o)) =
      .ok ((List.range outer).map fun o => (List.range inner).map (g o)) :=
    mapM_places fun o ho => mapM_places fun i hi => h o (List.mem_range.mp ho) i (List.mem_range.mp hi)
  unfold tabulate2
  rw [hrows, ← flatten_places]
  rfl

/-! ## Elements -/

/-- An operand of the shape itself stays as it is. -/
theorem spread_same {t : Tensor} {dims : List Nat} (h : t.shape.dims = dims) : spread t ⟨dims⟩ = .ok t.data :=
  if_pos (congrArg Shape.mk h)

section Spreading

open Shape (Within Stretches offset pinned coordinates)

variable {t : Tensor} {shape : Shape}

/-- The payload of an operand put together element by element, whatever its shape. -/
def gather (t : Tensor) (shape : Shape) : Result (Array Float32) :=
  tabulate shape.count fun flat => do
    read t (← sourceIndex flat t.shape.dims t.shape.strides (shape.dims.drop (shape.rank - t.shape.rank))
      (shape.strides.drop (shape.rank - t.shape.rank)))

theorem gather_under (h : Stretches t.shape.dims.reverse shape.dims.reverse) :
    gather t shape = .ok ((List.range shape.count).map (t.under shape)).toArray := by
  refine (tabulate_congr fun flat hflat => ?_).trans (tabulate_places shape.count (t.under shape))
  have hm : Within shape.dims (coordinates shape.dims flat) := Shape.within_coordinates hflat
  obtain ⟨hwithin, hindex⟩ := pinned_element h hm
  rw [Shape.offset_coordinates hflat] at hindex
  have hsize : offset t.shape.dims (pinned t.shape.dims (coordinates shape.dims flat)) < t.data.size :=
    t.size_eq ▸ Within.offset_lt hwithin
  rw [hindex]
  simp [read, Tensor.under, Array.getD, hsize, bind, Except.bind]

/-- The operand of the shape itself would be put together as it is. -/
theorem spread_eq_gather (t : Tensor) (shape : Shape) : spread t shape = gather t shape := by
  by_cases hsame : t.shape = shape
  · subst hsame
    have hunder : ∀ i < t.shape.count, t.under t.shape i = t.data.getD i 0 := by
      intro i hi
      rw [Tensor.under, Shape.pinned_self (Shape.within_coordinates hi), Shape.offset_coordinates hi]
    have hplaces : (List.range t.shape.count).map (t.under t.shape) =
        (List.range t.shape.count).map fun i => t.data.getD i 0 :=
      List.map_congr_left fun i hi => hunder i (List.mem_range.mp hi)
    rw [gather_under (Shape.stretches_refl _), hplaces, ← t.data_eq_map_range, spread, if_pos rfl]
  · exact if_neg hsame

theorem spread_under (h : Stretches t.shape.dims.reverse shape.dims.reverse) :
    spread t shape = .ok ((List.range shape.count).map (t.under shape)).toArray :=
  (spread_eq_gather t shape).trans (gather_under h)

theorem spread_fills (h : Stretches t.shape.dims.reverse shape.dims.reverse) : Fills (spread t shape) shape.count :=
  ⟨_, spread_under h, by simp⟩

end Spreading

theorem zipSpread_fills {a b : Tensor} {shape : Shape} (f : Float32 → Float32 → Float32)
    (ha : Shape.Stretches a.shape.dims.reverse shape.dims.reverse)
    (hb : Shape.Stretches b.shape.dims.reverse shape.dims.reverse) : Fills (zipSpread shape a b f) shape.count := by
  refine (spread_fills ha).bind fun xs hxs => (spread_fills hb).bind fun ys hys => succeeds_ok ?_
  rw [Array.size_zipWith, hxs, hys, Nat.min_self]

theorem zipSpread3_fills {a b c : Tensor} {shape : Shape} (f : Float32 → Float32 → Float32 → Float32)
    (ha : Shape.Stretches a.shape.dims.reverse shape.dims.reverse)
    (hb : Shape.Stretches b.shape.dims.reverse shape.dims.reverse)
    (hc : Shape.Stretches c.shape.dims.reverse shape.dims.reverse) : Fills (zipSpread3 shape a b c f) shape.count := by
  refine (spread_fills ha).bind fun xs hxs => (spread_fills hb).bind fun ys hys => ?_
  refine (spread_fills hc).bind fun zs hzs => succeeds_ok ?_
  rw [Array.size_zipWith, Array.size_zipWith, hxs, hys, hzs, Nat.min_self, Nat.min_self]

/-! ## Indices -/

/-- An index that no row of `depth` elements has. -/
def OutOfDepth (depth : Nat) (x : Float32) : Prop := Scalar.toInt64 x < 0 ∨ Scalar.toInt64 x ≥ depth

theorem oneHotRow_cases (depth : Nat) (x : Float32) :
    (Succeeds (oneHotRow depth x) fun row => row.length = depth) ∧ ¬ OutOfDepth depth x ∨
      OutOfDepth depth x ∧ oneHotRow depth x = .error (.indexOutOfDepth (Scalar.toInt64 x) depth) := by
  unfold oneHotRow OutOfDepth
  by_cases hout : Scalar.toInt64 x < 0 ∨ Scalar.toInt64 x ≥ depth
  · exact .inr ⟨hout, if_pos hout⟩
  · refine .inl ⟨?_, hout⟩
    rw [if_neg hout]
    exact succeeds_ok (by rw [List.length_map, List.length_range])

theorem oneHot_cases (t : Tensor) (depth : Nat) :
    Fills (oneHot t depth) (t.shape.count * depth) ∧ (∀ x ∈ t.data, ¬ OutOfDepth depth x) ∨
      ∃ x ∈ t.data, OutOfDepth depth x ∧ oneHot t depth = .error (.indexOutOfDepth (Scalar.toInt64 x) depth) := by
  have hrows : ∀ x ∈ t.data.toList, (Succeeds (oneHotRow depth x) fun row => row.length = depth) ∨
      ∃ e, oneHotRow depth x = .error e := by
    intro x _
    rcases oneHotRow_cases depth x with ⟨hrow, -⟩ | ⟨-, hrow⟩
    · exact .inl hrow
    · exact .inr ⟨_, hrow⟩
  unfold oneHot
  rcases mapM_cases _ _ _ hrows with ⟨hall, hin⟩ | ⟨x, hmem, e, hx, hmapM⟩
  · refine .inl ⟨?_, fun x hx hout => ?_⟩
    · refine flatten_fills (hall.imp fun rows h => ⟨?_, h.2⟩)
      rw [h.1, Array.length_toList, t.size_eq]
    · obtain ⟨row, hrow, -⟩ := hin x (Array.mem_toList_iff.mpr hx)
      rcases oneHotRow_cases depth x with ⟨-, hnot⟩ | ⟨-, herror⟩
      · exact hnot hout
      · rw [hrow] at herror
        cases herror
  · rcases oneHotRow_cases depth x with ⟨⟨row, hrow, -⟩, -⟩ | ⟨hout, herror⟩
    · rw [hx] at hrow
      cases hrow
    · refine .inr ⟨x, Array.mem_toList_iff.mp hmem, hout, ?_⟩
      obtain rfl : e = .indexOutOfDepth (Scalar.toInt64 x) depth := Except.error.inj (hx.symm.trans herror)
      rw [hmapM]
      rfl

end ComponentFlow.Kernel
