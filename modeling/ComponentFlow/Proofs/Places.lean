/-
  ComponentFlow.Proofs.Places — what the kernels along axes compute, place by place. Every one of them walks over its
  operands by indices of its own; on operands that fit each read lies inside a payload, nothing is divided by zero, and a
  formula says what stands in each place of the result. So as many elements come out as the result's shape has.

  - `Kernel.eachLane_places`, `Kernel.softmax_places`: along an axis, also one without extent.
  - `Kernel.matMul_places`: the rows of a product.
  - `Kernel.discountedSum_places`: sums from the last step to the first, in each place of a step by itself.
-/
import ComponentFlow.Proofs.Payload

namespace ComponentFlow

namespace Tensor

variable {a : Tensor} {m n : Nat}

theorem entry_matrix (h : a.shape.dims = [m, n]) (r c : Nat) : a.entry [r, c] = a.data.getD (r * n + c) 0 := by
  simp [entry, h]

theorem size_matrix (h : a.shape.dims = [m, n]) : a.size = m * n := a.size_eq.trans (by simp [Shape.count, h])

/-- The elements in place `j` of each step, where `rest` are the axes of a step. -/
def column (x : Tensor) (rest : List Nat) (j : Nat) : Nat → Float32 :=
  fun t => x.data.getD (t * Shape.product rest + j) 0

end Tensor

namespace Kernel

/-! ## Axes -/

section Axis

variable {x : Tensor} {axis : Nat} {s : Split}

/-- The lane at the places `o` before and `i` behind the axis. -/
def laneAt (x : Tensor) (s : Split) (o i : Nat) : List Float32 :=
  (List.range s.extent).map fun k => x.data.getD (s.index o k i) 0

/-- The softmax at place `k` of a lane, or its logarithm. -/
def softmaxAt (x : Tensor) (s : Split) (log : Bool) (o k i : Nat) : Float32 :=
  softmaxOf log (laneAt x s o i) (x.data.getD (s.index o k i) 0)

/-- The part of a softmax that one place before the axis makes. -/
def softmaxRow (t : Tensor) (s : Split) (log : Bool) (o : Nat) : Result (List Float32) := do
  let lanes ← (List.range s.inner).mapM fun i => lane t s o i
  let steps ← (List.range s.extent).mapM fun k =>
    lanes.zipIdx.mapM fun (l, i) => softmaxOf log l <$> read t (s.index o k i)
  .ok steps.flatten

variable (hs : Split.ofAxis x.shape.dims axis = .ok s)
include hs

theorem lane_index_lt {o k i : Nat} (ho : o < s.outer) (hk : k < s.extent) (hi : i < s.inner) :
    s.index o k i < x.size := by
  have hsize : x.size = s.outer * s.extent * s.inner := x.size_eq.trans (Split.product_eq hs)
  rw [hsize]
  exact Split.index_lt ho hk hi

theorem lane_places {o i : Nat} (ho : o < s.outer) (hi : i < s.inner) : lane x s o i = .ok (laneAt x s o i) :=
  mapM_places fun _ hk => read_place (lane_index_lt hs ho (List.mem_range.mp hk) hi)

theorem eachLane_places (f : List Float32 → Float32) : eachLane x axis f =
    .ok ((List.range (s.outer * s.inner)).map fun j => f (laneAt x s (j / s.inner) (j % s.inner))).toArray := by
  have hlanes : ∀ o < s.outer, ∀ i < s.inner, f <$> lane x s o i = .ok (f (laneAt x s o i)) := by
    intro o ho i hi
    rw [lane_places hs ho hi]
    rfl
  unfold eachLane
  rw [hs]
  exact tabulate2_places hlanes

theorem softmaxRow_places (log : Bool) {o : Nat} (ho : o < s.outer) : softmaxRow x s log o =
    .ok ((List.range (s.extent * s.inner)).map fun j => softmaxAt x s log o (j / s.inner) (j % s.inner)) := by
  have hlanes : ((List.range s.inner).mapM fun i => lane x s o i) = .ok ((List.range s.inner).map (laneAt x s o)) :=
    mapM_places fun i hi => lane_places hs ho (List.mem_range.mp hi)
  have hsteps : ((List.range s.extent).mapM fun k => ((List.range s.inner).map (laneAt x s o)).zipIdx.mapM fun l =>
      softmaxOf log l.1 <$> read x (s.index o k l.2)) =
      .ok ((List.range s.extent).map fun k => (List.range s.inner).map (softmaxAt x s log o k)) := by
    refine mapM_places fun k hk => ?_
    rw [zipIdx_places, List.mapM_map]
    refine mapM_places fun i hi => ?_
    have hread := read_place (lane_index_lt hs ho (List.mem_range.mp hk) (List.mem_range.mp hi))
    simp only [Function.comp_apply, hread]
    rfl
  unfold softmaxRow
  rw [hlanes, ← flatten_places]
  exact congrArg (· >>= fun steps : List (List Float32) => Except.ok steps.flatten) hsteps

theorem softmax_places (log : Bool) : softmax x axis log =
    .ok ((List.range (s.outer * (s.extent * s.inner))).map fun j =>
      softmaxAt x s log (j / (s.extent * s.inner)) (j % (s.extent * s.inner) / s.inner)
        (j % (s.extent * s.inner) % s.inner)).toArray := by
  have hrows : (List.range s.outer).mapM (softmaxRow x s log) = .ok ((List.range s.outer).map fun o =>
      (List.range (s.extent * s.inner)).map fun j => softmaxAt x s log o (j / s.inner) (j % s.inner)) :=
    mapM_places fun o ho => softmaxRow_places hs log (List.mem_range.mp ho)
  have hflat := flatten_places s.outer (s.extent * s.inner) fun o j => softmaxAt x s log o (j / s.inner) (j % s.inner)
  unfold softmax
  rw [hs, ← hflat]
  exact congrArg ((fun rows : List (List Float32) => rows.flatten.toArray) <$> ·) hrows

theorem eachLane_fills (f : List Float32 → Float32) : Fills (eachLane x axis f) (s.outer * s.inner) :=
  ⟨_, eachLane_places hs f, by simp⟩

theorem softmax_fills (log : Bool) : Fills (softmax x axis log) x.shape.count := by
  have hcount : x.shape.count = s.outer * (s.extent * s.inner) := by
    rw [← Nat.mul_assoc]
    exact Split.product_eq hs
  exact ⟨_, softmax_places hs log, by simp [hcount]⟩

end Axis

/-! ## Rows -/

section Rows

variable {a b : Tensor} {m k n : Nat}

theorem row_index_lt {r m c n : Nat} (hr : r < m) (hc : c < n) : r * n + c < m * n := by
  have := Nat.mul_le_mul_right n (Nat.succ_le_of_lt hr)
  rw [Nat.succ_mul] at this
  omega

/-- The entry of a product in row `r` and column `c`, for `k` terms. -/
def rowByColumn (a b : Tensor) (k r c : Nat) : Float32 :=
  (List.range k).foldl (fun sum j => sum + a.entry [r, j] * b.entry [j, c]) 0

/-- What changes every place of a row by itself, time after time, does to each place what it does there. -/
theorem foldlM_places {α : Type} {js : List Nat} {step : List α → Nat → Result (List α)} {f : Nat → α → Nat → α}
    (hstep : ∀ j ∈ js, ∀ g : Nat → α, step ((List.range n).map g) j = .ok ((List.range n).map fun c => f c (g c) j))
    (g : Nat → α) :
    js.foldlM step ((List.range n).map g) = .ok ((List.range n).map fun c => js.foldl (f c) (g c)) := by
  induction js generalizing g with
  | nil => rfl
  | cons j js ih =>
    obtain ⟨hj, hjs⟩ := List.forall_mem_cons.mp hstep
    rw [List.foldlM_cons, hj]
    exact ih hjs fun c => f c (g c) j

theorem addScaledRow_places (hb : b.shape.dims = [k, n]) {j : Nat} (hj : j < k) (scale : Float32) (g : Nat → Float32) :
    addScaledRow b n j scale ((List.range n).map g) =
      .ok ((List.range n).map fun c => g c + scale * b.entry [j, c]) := by
  unfold addScaledRow
  rw [zipIdx_places, List.mapM_map]
  refine mapM_places fun c hc => ?_
  have hread : read b (j * n + c) = .ok (b.entry [j, c]) := by
    rw [Tensor.entry_matrix hb]
    exact read_place (Tensor.size_matrix hb ▸ row_index_lt hj (List.mem_range.mp hc))
  simp only [Function.comp_apply, hread, bind, Except.bind]

theorem productRow_places (ha : a.shape.dims = [m, k]) (hb : b.shape.dims = [k, n]) {r : Nat} (hr : r < m) :
    productRow a b k n r = .ok ((List.range n).map (rowByColumn a b k r)) := by
  have hzeros : List.replicate n (0 : Float32) = (List.range n).map fun _ => 0 := by simp
  unfold productRow
  rw [hzeros]
  refine foldlM_places (f := fun c sum j => sum + a.entry [r, j] * b.entry [j, c]) (fun j hj g => ?_) fun _ => 0
  have hj : j < k := List.mem_range.mp hj
  have hread : read a (r * k + j) = .ok (a.entry [r, j]) := by
    rw [Tensor.entry_matrix ha]
    exact read_place (Tensor.size_matrix ha ▸ row_index_lt hr hj)
  rw [hread]
  exact addScaledRow_places hb hj _ g

theorem matMul_places (ha : a.shape.dims = [m, k]) (hb : b.shape.dims = [k, n]) : matMul a b =
    .ok ((List.range (m * n)).map fun i => rowByColumn a b k (i / n) (i % n)).toArray := by
  have hrows : (List.range m).mapM (productRow a b k n) =
      .ok ((List.range m).map fun r => (List.range n).map (rowByColumn a b k r)) :=
    mapM_places fun r hr => productRow_places ha hb (List.mem_range.mp hr)
  unfold matMul
  rw [ha, hb, ← flatten_places]
  simp only [hrows]
  rfl

theorem matMul_fills (ha : a.shape.dims = [m, k]) (hb : b.shape.dims = [k, n]) : Fills (matMul a b) (m * n) :=
  ⟨_, matMul_places ha hb, by simp⟩

end Rows

/-! ## Steps -/

section Steps

variable {t x z : Tensor} {steps : Nat} {rest : List Nat}

theorem leadingExtent_cons (h : t.shape.dims = steps :: rest) : leadingExtent t = .ok steps := by
  unfold leadingExtent
  rw [h]

theorem size_of_steps (h : t.shape.dims = steps :: rest) : t.size = steps * Shape.product rest :=
  t.size_eq.trans (by simp [Shape.count, h])

theorem rowSize_steps (h : t.shape.dims = steps :: rest) (hsteps : steps ≠ 0) :
    rowSize t steps = .ok (Shape.product rest) := by
  unfold rowSize
  rw [if_neg hsteps, size_of_steps h, Nat.mul_div_cancel_left _ (Nat.pos_of_ne_zero hsteps)]

theorem shiftLeft_fills (h : t.shape.dims = steps :: rest) (fill : Float32) :
    Fills (shiftLeft t fill) t.shape.count := by
  unfold shiftLeft
  rw [leadingExtent_cons h]
  have hcount : t.shape.count = steps * Shape.product rest := by simp [Shape.count, h]
  by_cases hsteps : steps = 0
  · refine ⟨#[], by simp [hsteps, bind, Except.bind], ?_⟩
    rw [hcount, hsteps, Nat.zero_mul]
    rfl
  · have hrow : Shape.product rest ≤ t.size := by
      rw [size_of_steps h]
      exact Nat.le_mul_of_pos_left _ (Nat.pos_of_ne_zero hsteps)
    have hlater : readFrom t (Shape.product rest) = .ok (t.data.extract (Shape.product rest) t.size) := if_pos hrow
    refine ⟨t.data.extract (Shape.product rest) t.size ++ Array.replicate (Shape.product rest) fill, ?_, ?_⟩
    · simp [hsteps, rowSize_steps h hsteps, hlater, bind, Except.bind]
    · have hsize : t.size = t.shape.count := t.size_eq
      have hdata : t.data.size = t.size := rfl
      simp only [Array.size_append, Array.size_extract, Array.size_replicate, hdata]
      omega

/-- The sum at step `t`, where `left` steps are left. A reset drops what comes later. -/
def sumFrom (discount : Float32) (values resets : Nat → Float32) : Nat → Nat → Float32
  | 0, _ => 0
  | left + 1, t =>
    values t + discount * (if resets t == 0 then sumFrom discount values resets left (t + 1) else 0)

theorem discountedStep_columns (hx : x.size = steps * Shape.product rest) (hz : z.size = steps * Shape.product rest)
    (discount : Float32) {t : Nat} (ht : t < steps) (later : Nat → Float32) :
    discountedStep x z discount t (Shape.product rest) ((List.range (Shape.product rest)).map later) =
      .ok ((List.range (Shape.product rest)).map fun j =>
        x.column rest j t + discount * (if z.column rest j t == 0 then later j else 0)) := by
  unfold discountedStep
  rw [zipIdx_places, List.mapM_map]
  refine mapM_places fun j hj => ?_
  have hplace := row_index_lt ht (List.mem_range.mp hj)
  simp only [Function.comp_apply, read_place (hx ▸ hplace), read_place (hz ▸ hplace), bind, Except.bind]
  rfl

theorem discountedSteps_columns (hx : x.size = steps * Shape.product rest) (hz : z.size = steps * Shape.product rest)
    (discount : Float32) {left : Nat} (hleft : left ≤ steps) :
    discountedSteps x z discount steps (Shape.product rest) left =
      .ok ((List.range left).map fun i => (List.range (Shape.product rest)).map fun j =>
          sumFrom discount (x.column rest j) (z.column rest j) (left - i) (steps - left + i),
        (List.range (Shape.product rest)).map fun j =>
          sumFrom discount (x.column rest j) (z.column rest j) left (steps - left)) := by
  induction left with
  | zero =>
    have hzeros : List.replicate (Shape.product rest) (0 : Float32) =
        (List.range (Shape.product rest)).map fun _ => 0 := by simp
    exact congrArg (fun zeros => Except.ok ([], zeros)) hzeros
  | succ left ih =>
    have hcurrent := discountedStep_columns hx hz discount (t := steps - (left + 1)) (by omega) fun j =>
      sumFrom discount (x.column rest j) (z.column rest j) left (steps - left)
    have hrows : ∀ i, steps - (left + 1) + (i + 1) = steps - left + i := by omega
    unfold discountedSteps
    rw [ih (by omega)]
    simp only [bind, Except.bind, hcurrent, List.range_succ_eq_map, List.map_cons, List.map_map, Function.comp_def,
      Nat.succ_eq_add_one, Nat.add_sub_add_right, hrows, Nat.sub_zero, Nat.add_zero, sumFrom]

/-- Each column is summed by itself, whatever there is of other columns. -/
theorem discountedSum_places (hx : x.shape.dims = steps :: rest) (hsame : x.shape = z.shape) (discount : Float32) :
    discountedSum x z discount = .ok ((List.range (steps * Shape.product rest)).map fun i =>
      sumFrom discount (x.column rest (i % Shape.product rest)) (z.column rest (i % Shape.product rest))
        (steps - i / Shape.product rest) (i / Shape.product rest)).toArray := by
  unfold discountedSum
  rw [if_neg (not_not.mpr hsame), leadingExtent_cons hx]
  by_cases hsteps : steps = 0
  · subst hsteps
    simp [bind, Except.bind]
  have hrow : rowSize x steps = .ok (Shape.product rest) := rowSize_steps hx hsteps
  have hrun := discountedSteps_columns (size_of_steps hx) (size_of_steps (hsame ▸ hx)) discount (Nat.le_refl steps)
  have hflat := flatten_places steps (Shape.product rest) fun t j =>
    sumFrom discount (x.column rest j) (z.column rest j) (steps - t) t
  simp [hsteps, hrow, hrun, hflat, bind, Except.bind]

theorem discountedSum_fills (hx : x.shape.dims = steps :: rest) (hsame : x.shape = z.shape) (discount : Float32) :
    Fills (discountedSum x z discount) x.shape.count :=
  ⟨_, discountedSum_places hx hsame discount, by simp [Shape.count, hx]⟩

end Steps

end Kernel

end ComponentFlow
