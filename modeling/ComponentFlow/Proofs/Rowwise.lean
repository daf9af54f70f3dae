/-
  ComponentFlow.Proofs.Rowwise — kernels on batches put one behind the other. The leading axis of a batch counts
  its rows. A kernel that makes each row of its result from one row of the batch, and from operands that
  are the same for all rows, does so wherever the row stands: the offset of a row is a multiple of the
  elements of one row, and whatever is read of a row lies inside it. So its result on two batches, one
  behind the other, is its results on both, one behind the other (`Kernel.execute_stacked`).

  - `Tensor.Stacks`: a batch that holds the rows of one batch and then those of another.
  - `AllOrNone`: computations that fail together, or succeed with results that are related.
-/
import ComponentFlow.Proofs.Answer

namespace ComponentFlow

/-- The rows of `z` are the `m` rows of `x` and then the `q` rows of `y`; each has the axes `rest`. -/
structure Tensor.Stacks (m q : Nat) (rest : List Nat) (x y z : Tensor) : Prop where
  upper : x.shape.dims = m :: rest
  lower : y.shape.dims = q :: rest
  both : z.shape.dims = (m + q) :: rest
  dtype_upper : x.dtype = z.dtype
  dtype_lower : y.dtype = z.dtype
  data : z.data = x.data ++ y.data

/-- Three tensors of which the last holds the rows of the first two. -/
inductive Value.Stacks (m q : Nat) (rest : List Nat) : Value → Value → Value → Prop
  | tensors {x y z : Tensor} : Tensor.Stacks m q rest x y z → Stacks m q rest (.tensor x) (.tensor y) (.tensor z)

/-! ## Failing together -/

/-- Three computations that all fail, or all succeed with results that are related. -/
inductive AllOrNone {ε α : Type} (R : α → α → α → Prop) : Except ε α → Except ε α → Except ε α → Prop
  | none (e e' e'' : ε) : AllOrNone R (.error e) (.error e') (.error e'')
  | all {a b c : α} : R a b c → AllOrNone R (.ok a) (.ok b) (.ok c)

namespace AllOrNone

variable {ε α β : Type} {R S : α → α → α → Prop} {T : β → β → β → Prop} {x y z : Except ε α}

theorem imp (h : AllOrNone R x y z) (hRS : ∀ {a b c}, R a b c → S a b c) : AllOrNone S x y z := by
  cases h with
  | none e e' e'' => exact .none e e' e''
  | all h => exact .all (hRS h)

theorem bind {f g k : α → Except ε β} (h : AllOrNone R x y z)
    (hnext : ∀ {a b c}, R a b c → AllOrNone T (f a) (g b) (k c)) : AllOrNone T (x >>= f) (y >>= g) (z >>= k) := by
  cases h with
  | none e e' e'' => exact .none e e' e''
  | all h => exact hnext h

/-- Results may be held against something that holds of all three of them or of none. -/
theorem restrict (h : AllOrNone R x y z) {ε' : Type} {x' y' z' : Except ε' β} {f : α → β} {P Q U : α → Prop}
    (hx : ∀ o, x' = .ok o ↔ ∃ a, x = .ok a ∧ P a ∧ o = f a) (hy : ∀ o, y' = .ok o ↔ ∃ b, y = .ok b ∧ Q b ∧ o = f b)
    (hz : ∀ o, z' = .ok o ↔ ∃ c, z = .ok c ∧ U c ∧ o = f c) (hsame : ∀ {a b c}, R a b c → (P a ↔ U c) ∧ (Q b ↔ U c))
    (hT : ∀ {a b c}, R a b c → T (f a) (f b) (f c)) : AllOrNone T x' y' z' := by
  have hfailed : ∀ {r : Except ε' β}, (∀ o, r ≠ .ok o) → ∃ e, r = .error e := by
    intro r hr
    cases r with
    | error e => exact ⟨e, rfl⟩
    | ok o => exact absurd rfl (hr o)
  have hnone : (∀ o, x' ≠ .ok o) → (∀ o, y' ≠ .ok o) → (∀ o, z' ≠ .ok o) → AllOrNone T x' y' z' := by
    intro hx hy hz
    obtain ⟨e, rfl⟩ := hfailed hx
    obtain ⟨e', rfl⟩ := hfailed hy
    obtain ⟨e'', rfl⟩ := hfailed hz
    exact .none e e' e''
  cases h with
  | none =>
    refine hnone (fun o ho => ?_) (fun o ho => ?_) fun o ho => ?_
    · obtain ⟨_, ⟨⟩, -⟩ := (hx o).mp ho
    · obtain ⟨_, ⟨⟩, -⟩ := (hy o).mp ho
    · obtain ⟨_, ⟨⟩, -⟩ := (hz o).mp ho
  | @all a b c habc =>
    obtain ⟨hac, hbc⟩ := hsame habc
    by_cases hc : U c
    · rw [(hx _).mpr ⟨a, rfl, hac.mpr hc, rfl⟩, (hy _).mpr ⟨b, rfl, hbc.mpr hc, rfl⟩, (hz _).mpr ⟨c, rfl, hc, rfl⟩]
      exact .all (hT habc)
    · refine hnone (fun o ho => ?_) (fun o ho => ?_) fun o ho => ?_
      · obtain ⟨_, ⟨⟩, ha, -⟩ := (hx o).mp ho
        exact hc (hac.mp ha)
      · obtain ⟨_, ⟨⟩, hb, -⟩ := (hy o).mp ho
        exact hc (hbc.mp hb)
      · obtain ⟨_, ⟨⟩, hc', -⟩ := (hz o).mp ho
        exact hc hc'

theorem ok_iff (h : AllOrNone R x y z) : (∃ c, z = .ok c) ↔ (∃ a, x = .ok a) ∧ ∃ b, y = .ok b := by
  cases h <;> simp

end AllOrNone

namespace Kernel

/-! ## Rows -/

section Rows

variable {β : Type} {m q : Nat} {f g k : Nat → Result β}

/-- What is made of each of `m + q` places is what is made of the first `m` and then of the others. -/
theorem range_stacked (hupper : ∀ r < m, k r = f r) (hlower : ∀ r < q, k (m + r) = g r) :
    (List.range (m + q)).mapM k = (do
      let a ← (List.range m).mapM f
      let b ← (List.range q).mapM g
      return a ++ b) := by
  have hfirst : (List.range m).mapM k = (List.range m).mapM f :=
    mapM_congr fun r hr => hupper r (List.mem_range.mp hr)
  have hsecond : (List.range q).mapM (k ∘ (m + ·)) = (List.range q).mapM g :=
    mapM_congr fun r hr => hlower r (List.mem_range.mp hr)
  rw [List.range_add, List.mapM_append, List.mapM_map, hfirst, hsecond]

/-- The same, put into a payload. -/
theorem gather_stacked {toArray : List β → Array Float32} (hgather : ∀ a b, toArray (a ++ b) = toArray a ++ toArray b)
    (hupper : ∀ r < m, k r = f r) (hlower : ∀ r < q, k (m + r) = g r) :
    toArray <$> (List.range (m + q)).mapM k = (do
      let a ← toArray <$> (List.range m).mapM f
      let b ← toArray <$> (List.range q).mapM g
      return a ++ b) := by
  rw [range_stacked hupper hlower]
  rcases (List.range m).mapM f with e | a
  · rfl
  rcases (List.range q).mapM g with e | b
  · rfl
  exact congrArg Except.ok (hgather a b)

theorem rows_append (a b : List (List Float32)) :
    (a ++ b).flatten.toArray = a.flatten.toArray ++ b.flatten.toArray := by
  rw [List.flatten_append, List.append_toArray]

end Rows

/-! ## Reading rows -/

section Reading

variable {m q : Nat} {rest : List Nat} {x y z : Tensor} (h : Tensor.Stacks m q rest x y z)
include h

theorem read_upper {r j : Nat} (hr : r < m) (hj : j < Shape.product rest) :
    read z (r * Shape.product rest + j) = read x (r * Shape.product rest + j) := by
  have hsize : x.data.size = m * Shape.product rest := size_of_steps h.upper
  have hlt : r * Shape.product rest + j < x.data.size := hsize ▸ row_index_lt hr hj
  unfold read
  rw [h.data, Array.getElem?_append_left hlt, Array.getElem?_eq_getElem hlt]

theorem read_lower {r j : Nat} (hr : r < q) (hj : j < Shape.product rest) :
    read z ((m + r) * Shape.product rest + j) = read y (r * Shape.product rest + j) := by
  have hupper : x.data.size = m * Shape.product rest := size_of_steps h.upper
  have hlower : y.data.size = q * Shape.product rest := size_of_steps h.lower
  have hlt : r * Shape.product rest + j < y.data.size := hlower ▸ row_index_lt hr hj
  have hindex : (m + r) * Shape.product rest + j = x.data.size + (r * Shape.product rest + j) := by
    rw [hupper, Nat.add_mul, Nat.add_assoc]
  unfold read
  rw [h.data, hindex, Array.getElem?_append_right (Nat.le_add_right _ _), Nat.add_sub_cancel_left,
    Array.getElem?_eq_getElem hlt]

end Reading

/-! ## Matrices -/

theorem productRow_congr {a a' b : Tensor} {k n r r' : Nat} (h : ∀ j < k, read a (r * k + j) = read a' (r' * k + j)) :
    productRow a b k n r = productRow a' b k n r' :=
  foldlM_congr (fun j hj row => by rw [h j (List.mem_range.mp hj)]) _

theorem matMul_stacked {m q k l n : Nat} {x y z w : Tensor} (h : Tensor.Stacks m q [k] x y z)
    (hw : w.shape.dims = [l, n]) : matMul z w = (do
      let a ← matMul x w
      let b ← matMul y w
      return a ++ b) := by
  have hk : Shape.product [k] = k := Nat.mul_one k
  unfold matMul
  rw [h.upper, h.lower, h.both, hw]
  refine gather_stacked rows_append (fun r hr => productRow_congr fun j hj => ?_)
    fun r hr => productRow_congr fun j hj => ?_
  · simpa only [hk] using read_upper h hr (hk.symm ▸ hj)
  · simpa only [hk] using read_lower h hr (hk.symm ▸ hj)

/-! ## Lanes -/

section Lanes

variable {m q d : Nat} {rest : List Nat} {x y z : Tensor}

theorem ofAxis_one (m d : Nat) (rest : List Nat) :
    Split.ofAxis (m :: d :: rest) 1 = .ok ⟨m, d, Shape.product rest⟩ := by
  simp [Split.ofAxis]

/-- Lanes along the second axis stay inside their row. -/
theorem index_in_row {s : Split} {o k i : Nat} (hk : k < s.extent) (hi : i < s.inner) :
    s.index o k i = o * (s.extent * s.inner) + (k * s.inner + i) ∧ k * s.inner + i < s.extent * s.inner := by
  refine ⟨?_, row_index_lt hk hi⟩
  unfold Split.index
  rw [Nat.add_mul, Nat.mul_assoc, Nat.add_assoc]

theorem lane_congr {t t' : Tensor} {s s' : Split} (hextent : s.extent = s'.extent) {o o' i : Nat}
    (h : ∀ k < s.extent, read t (s.index o k i) = read t' (s'.index o' k i)) :
    lane t s o i = lane t' s' o' i := by
  unfold lane
  rw [← hextent]
  exact mapM_congr fun k hk => h k (List.mem_range.mp hk)

variable (h : Tensor.Stacks m q (d :: rest) x y z)
include h

theorem read_lane_upper {r k i : Nat} (hr : r < m) (hk : k < d) (hi : i < Shape.product rest) :
    read z ((⟨m + q, d, Shape.product rest⟩ : Split).index r k i) =
      read x ((⟨m, d, Shape.product rest⟩ : Split).index r k i) := by
  obtain ⟨hindex, hlt⟩ := index_in_row (s := ⟨m + q, d, Shape.product rest⟩) (o := r) hk hi
  exact hindex ▸ (index_in_row (s := ⟨m, d, Shape.product rest⟩) (o := r) hk hi).1 ▸ read_upper h hr hlt

theorem read_lane_lower {r k i : Nat} (hr : r < q) (hk : k < d) (hi : i < Shape.product rest) :
    read z ((⟨m + q, d, Shape.product rest⟩ : Split).index (m + r) k i) =
      read y ((⟨q, d, Shape.product rest⟩ : Split).index r k i) := by
  obtain ⟨hindex, hlt⟩ := index_in_row (s := ⟨m + q, d, Shape.product rest⟩) (o := m + r) hk hi
  exact hindex ▸ (index_in_row (s := ⟨q, d, Shape.product rest⟩) (o := r) hk hi).1 ▸ read_lower h hr hlt

theorem eachLane_stacked (f : List Float32 → Float32) : eachLane z 1 f = (do
    let a ← eachLane x 1 f
    let b ← eachLane y 1 f
    return a ++ b) := by
  unfold eachLane tabulate2
  rw [h.upper, h.lower, h.both, ofAxis_one, ofAxis_one, ofAxis_one]
  refine gather_stacked rows_append (fun r hr => mapM_congr fun i hi => ?_) fun r hr => mapM_congr fun i hi => ?_
  · exact congrArg _ (lane_congr rfl fun k hk => read_lane_upper h hr hk (List.mem_range.mp hi))
  · exact congrArg _ (lane_congr rfl fun k hk => read_lane_lower h hr hk (List.mem_range.mp hi))

omit h in
theorem softmaxRow_congr {t t' : Tensor} {s s' : Split} (hextent : s.extent = s'.extent) (hinner : s.inner = s'.inner)
    {o o' : Nat} {log : Bool}
    (h : ∀ k < s.extent, ∀ i < s.inner, read t (s.index o k i) = read t' (s'.index o' k i)) :
    softmaxRow t s log o = softmaxRow t' s' log o' := by
  have hlanes : ((List.range s.inner).mapM fun i => lane t s o i) =
      (List.range s'.inner).mapM fun i => lane t' s' o' i := by
    rw [← hinner]
    exact mapM_congr fun i hi => lane_congr hextent fun k hk => h k hk i (List.mem_range.mp hi)
  unfold softmaxRow
  rw [hlanes]
  rcases hrun : (List.range s'.inner).mapM fun i => lane t' s' o' i with e | lanes
  · rfl
  have hlength : lanes.length = s'.inner := (length_of_mapM hrun).trans List.length_range
  have hsteps : ((List.range s.extent).mapM fun k =>
      lanes.zipIdx.mapM fun p => softmaxOf log p.1 <$> read t (s.index o k p.2)) =
      (List.range s'.extent).mapM fun k =>
        lanes.zipIdx.mapM fun p => softmaxOf log p.1 <$> read t' (s'.index o' k p.2) := by
    rw [← hextent]
    refine mapM_congr fun k hk => mapM_congr fun p hp => ?_
    have hi : p.2 < s.inner := by
      have := (List.mem_zipIdx hp).2.1
      omega
    exact congrArg (softmaxOf log p.1 <$> ·) (h k (List.mem_range.mp hk) p.2 hi)
  exact congrArg (· >>= fun steps : List (List Float32) => Except.ok steps.flatten) hsteps

theorem softmax_stacked (log : Bool) : softmax z 1 log = (do
    let a ← softmax x 1 log
    let b ← softmax y 1 log
    return a ++ b) := by
  unfold softmax
  rw [h.upper, h.lower, h.both, ofAxis_one, ofAxis_one, ofAxis_one]
  refine gather_stacked rows_append (fun r hr => ?_) fun r hr => ?_
  · exact softmaxRow_congr rfl rfl fun k hk i hi => read_lane_upper h hr hk hi
  · exact softmaxRow_congr rfl rfl fun k hk i hi => read_lane_lower h hr hk hi

end Lanes

/-! ## A bias -/

/-- A bias is spread over the rows by dropping what comes before an element's row. -/
theorem spread_bias {b : Tensor} {u : Nat} (hb : b.shape.dims = [u]) (m : Nat) :
    spread b ⟨[m, u]⟩ = tabulate (m * u) fun flat => read b (flat % u) := by
  have hshape : b.shape ≠ ⟨[m, u]⟩ := by
    intro heq
    rw [heq] at hb
    simp at hb
  have hcount : Shape.count ⟨[m, u]⟩ = m * u := congrArg (m * ·) (Nat.mul_one u)
  unfold spread
  rw [if_neg hshape, hcount]
  refine tabulate_congr fun flat hflat => ?_
  have hu : u ≠ 0 := by
    rintro rfl
    cases hflat
  have hindex : sourceIndex flat [u] [1] [u] [1] = .ok (flat % u) := by
    by_cases hone : u = 1
    · simp [sourceIndex, hone, Nat.mod_one, bind, Except.bind]
    · simp [sourceIndex, coordinate, hone, hu, bind, Except.bind]
  simp only [Shape.rank, hb, Shape.strides, Shape.stridesOf, List.length_cons, List.length_nil, Shape.product_cons,
    Shape.product_nil, Nat.reduceAdd, Nat.reduceSub, List.drop_succ_cons, List.drop_zero, hindex]
  rfl

theorem zipSpread_stacked {m q u : Nat} {x y z b : Tensor} (h : Tensor.Stacks m q [u] x y z)
    (hb : b.shape.dims = [u]) (f : Float32 → Float32 → Float32) : zipSpread ⟨[m + q, u]⟩ z b f = (do
      let s ← zipSpread ⟨[m, u]⟩ x b f
      let t ← zipSpread ⟨[q, u]⟩ y b f
      return s ++ t) := by
  have hbias : tabulate ((m + q) * u) (fun flat => read b (flat % u)) = (do
      let s ← tabulate (m * u) fun flat => read b (flat % u)
      let t ← tabulate (q * u) fun flat => read b (flat % u)
      return s ++ t) := by
    rw [Nat.add_mul]
    refine gather_stacked (fun s t => (List.append_toArray s t).symm) (fun _ _ => rfl) fun flat _ => ?_
    rw [Nat.mul_add_mod']
  have hsize : x.data.size = m * u := by
    have hcount := size_of_steps h.upper
    rwa [Shape.product_cons, Shape.product_nil, Nat.mul_one] at hcount
  unfold zipSpread
  rw [spread_same h.upper, spread_same h.lower, spread_same h.both, spread_bias hb, spread_bias hb, spread_bias hb,
    hbias]
  rcases hs : tabulate (m * u) fun flat => read b (flat % u) with e | s
  · rfl
  rcases tabulate (q * u) fun flat => read b (flat % u) with e | t
  · rfl
  have hsame : x.data.size = s.size := hsize.trans (size_of_tabulate hs).symm
  show Except.ok (Array.zipWith f z.data (s ++ t)) = Except.ok (Array.zipWith f x.data s ++ Array.zipWith f y.data t)
  rw [h.data, Array.zipWith_append hsame]

/-! ## Evaluating -/

section Evaluating

variable {m q : Nat} {rest : List Nat} {x y z : Tensor} {p : Primitive} {others : List Tensor}

/-- The spec of a batch of `n` rows. -/
def rowsSpec (dtype : DType) (rest : List Nat) (n : Nat) : TensorSpec := .ofShape dtype ⟨n :: rest⟩

/-- What inference says does not depend on the number of rows: it refuses all batches, or it gives a spec of as many
    rows. -/
inductive Uniform (p : Primitive) (dtype : DType) (rest : List Nat) (others : List TensorSpec) (rest' : List Nat) :
    Prop
  | refused : (∀ n s, p.infer (rowsSpec dtype rest n :: others) ≠ .ok s) → Uniform p dtype rest others rest'
  | rows (dtype' : DType) : (∀ n, p.infer (rowsSpec dtype rest n :: others) = .ok (rowsSpec dtype' rest' n)) →
      Uniform p dtype rest others rest'

/-- A kernel whose payload for two batches, one behind the other, is that of both. -/
theorem execute_stacked {rest' : List Nat} (h : Tensor.Stacks m q rest x y z) (hp : p.bounded = true)
    (hdepth : ∀ depth, p ≠ .oneHot depth) (hinfer : Uniform p z.dtype rest (others.map Tensor.spec) rest')
    (hcompute : compute p (z :: others) ⟨(m + q) :: rest'⟩ = (do
      let a ← compute p (x :: others) ⟨m :: rest'⟩
      let b ← compute p (y :: others) ⟨q :: rest'⟩
      return a ++ b)) :
    AllOrNone (Tensor.Stacks m q rest') (execute p (x :: others)) (execute p (y :: others))
      (execute p (z :: others)) := by
  have hspecs : x.spec = rowsSpec z.dtype rest m ∧ y.spec = rowsSpec z.dtype rest q ∧
      z.spec = rowsSpec z.dtype rest (m + q) := by
    simp only [Tensor.spec, rowsSpec, TensorSpec.ofShape, h.upper, h.lower, h.both, h.dtype_upper, h.dtype_lower,
      and_self]
  obtain ⟨hx, hy, hz⟩ := hspecs
  cases hinfer with
  | refused hrefused =>
    have hnone : ∀ t n, t.spec = rowsSpec z.dtype rest n → ∃ e, execute p (t :: others) = .error e := by
      intro t n ht
      rcases hrun : p.infer ((t :: others).map Tensor.spec) with cause | s
      · exact ⟨_, execute_refused hrun⟩
      · rw [List.map_cons, ht] at hrun
        exact absurd hrun (hrefused n s)
    obtain ⟨e, he⟩ := hnone x m hx
    obtain ⟨e', he'⟩ := hnone y q hy
    obtain ⟨e'', he''⟩ := hnone z (m + q) hz
    rw [he, he', he'']
    exact .none e e' e''
  | rows dtype' hrows =>
    have hall : ∀ t n, t.spec = rowsSpec z.dtype rest n → ∃ data, compute p (t :: others) ⟨n :: rest'⟩ = .ok data ∧
        ∃ hsize, execute p (t :: others) = .ok ⟨dtype', ⟨n :: rest'⟩, data.map dtype'.coerce, hsize⟩ := by
      intro t n ht
      have hrun : p.infer ((t :: others).map Tensor.spec) = .ok (.ofShape dtype' ⟨n :: rest'⟩) := by
        rw [List.map_cons, ht]
        exact hrows n
      obtain ⟨shape, hshape, data, hdata, hsize⟩ := Primitive.compute_realised hdepth hp hrun
      obtain rfl : (⟨n :: rest'⟩ : Shape) = shape :=
        Option.some.inj ((TensorSpec.shape_of_eq rfl).symm.trans (TensorSpec.shape_of_eq hshape))
      exact ⟨data, hdata, _, execute_computed hrun hdata hsize⟩
    obtain ⟨a, ha, _, hxrun⟩ := hall x m hx
    obtain ⟨b, hb, _, hyrun⟩ := hall y q hy
    obtain ⟨c, hc, _, hzrun⟩ := hall z (m + q) hz
    have hdata : c = a ++ b := by
      rw [ha, hb, hc] at hcompute
      exact Except.ok.inj hcompute
    rw [hxrun, hyrun, hzrun]
    exact .all ⟨rfl, rfl, rfl, rfl, rfl, (congrArg (Array.map dtype'.coerce) hdata).trans Array.map_append⟩

/-! ## Primitives that work on rows -/

theorem matMul_rowwise {k l n : Nat} {w : Tensor} (h : Tensor.Stacks m q [k] x y z) (hw : w.shape.dims = [l, n]) :
    AllOrNone (Tensor.Stacks m q [n]) (execute .matMul [x, w]) (execute .matMul [y, w])
      (execute .matMul [z, w]) := by
  have hspec : w.spec = ⟨w.dtype, [.fixed l, .fixed n]⟩ := by
    simp only [Tensor.spec, TensorSpec.ofShape, hw, List.map_cons, List.map_nil]
  refine execute_stacked h rfl (by simp) ?_ (matMul_stacked h hw)
  by_cases hfit : z.dtype = w.dtype ∧ k = l
  · obtain ⟨hdtype, rfl⟩ := hfit
    refine .rows z.dtype fun r => ?_
    simp [hspec, Primitive.infer, Primitive.inferMatMul, Primitive.checkSameDType, rowsSpec, TensorSpec.ofShape, hdtype,
      Dim.compatible, bind, Except.bind]
  · refine .refused fun r s hs => hfit ?_
    simp only [List.map_cons, List.map_nil, hspec, Primitive.infer, Primitive.inferMatMul, rowsSpec, TensorSpec.ofShape,
      Primitive.checkSameDType_then, Dim.compatible] at hs
    refine ⟨hs.1, by_contra fun hk => ?_⟩
    simp [hk] at hs

theorem bias_rowwise {n : Nat} {b : Tensor} (h : Tensor.Stacks m q [n] x y z) (hb : b.shape.dims = [n])
    (op : BinaryOp) : AllOrNone (Tensor.Stacks m q [n]) (execute (.binary op) [x, b]) (execute (.binary op) [y, b])
      (execute (.binary op) [z, b]) := by
  have hspec : b.spec = ⟨b.dtype, [.fixed n]⟩ := by
    simp only [Tensor.spec, TensorSpec.ofShape, hb, List.map_cons, List.map_nil]
  have hdims : ∀ r, Primitive.broadcastDims [.fixed r, .fixed n] [.fixed n] = .ok [.fixed r, .fixed n] := by
    intro r
    have hn : (Dim.fixed n).broadcast (.fixed n) = some (.fixed n) := by
      simp only [Dim.broadcast]
      split <;> simp
    simp [Primitive.broadcastDims, Primitive.broadcastReversed, hn]
  refine execute_stacked h rfl (by simp) ?_ (zipSpread_stacked h hb op.apply)
  by_cases hdtype : z.dtype = b.dtype
  · refine .rows z.dtype fun r => ?_
    simp [hspec, Primitive.infer, Primitive.checkSameDType, rowsSpec, TensorSpec.ofShape, hdtype, hdims, bind,
      Except.bind]
  · refine .refused fun r s hs => hdtype ?_
    simp only [List.map_cons, List.map_nil, hspec, Primitive.infer, rowsSpec, TensorSpec.ofShape,
      Primitive.checkSameDType_then] at hs
    exact hs.1

theorem unary_rowwise (h : Tensor.Stacks m q rest x y z) (op : UnaryOp) :
    AllOrNone (Tensor.Stacks m q rest) (execute (.unary op) [x]) (execute (.unary op) [y])
      (execute (.unary op) [z]) := by
  refine execute_stacked h rfl (by simp) ?_ ?_
  · have hinfer : (∃ dtype, ∀ dims, Primitive.inferUnary op ⟨z.dtype, dims⟩ = .ok ⟨dtype, dims⟩) ∨
        ∀ dims s, Primitive.inferUnary op ⟨z.dtype, dims⟩ ≠ .ok s := by
      cases op with
      | logicalNot => exact .inl ⟨.bool, fun _ => rfl⟩
      | neg | abs | square | relu => exact .inl ⟨z.dtype, fun _ => rfl⟩
      | exp | log | sqrt | tanh | sigmoid =>
        by_cases hfloat : z.dtype.isFloat = true
        · exact .inl ⟨z.dtype, fun _ => by simp [Primitive.inferUnary, Primitive.checkFloat, hfloat, bind, Except.bind]⟩
        · exact .inr fun _ _ => by simp [Primitive.inferUnary, Primitive.checkFloat, hfloat, bind, Except.bind]
    rcases hinfer with ⟨dtype, hinfer⟩ | hinfer
    · exact .rows dtype fun _ => hinfer _
    · exact .refused fun _ => hinfer _
  · show Except.ok (z.data.map op.apply) = Except.ok (x.data.map op.apply ++ y.data.map op.apply)
    rw [h.data, Array.map_append]

/-- A softmax along the second axis, or its logarithm. -/
theorem softmax_rowwise {d : Nat} (h : Tensor.Stacks m q (d :: rest) x y z) (log : Bool)
    (hp : p = if log then .logSoftmax 1 else .softmax 1) :
    AllOrNone (Tensor.Stacks m q (d :: rest)) (execute p [x]) (execute p [y]) (execute p [z]) := by
  have hinfer : ∀ s, p.infer [s] = (do
      Primitive.checkFloat p s
      Primitive.checkAxis p s 1
      .ok s) := by
    cases log <;> exact hp ▸ fun _ => rfl
  refine execute_stacked h (by cases log <;> exact hp ▸ rfl) (by cases log <;> simp [hp]) ?_ ?_
  · by_cases hfloat : z.dtype.isFloat = true
    · refine .rows z.dtype fun r => ?_
      simp [hinfer, Primitive.checkFloat, Primitive.checkAxis, hfloat, rowsSpec, TensorSpec.ofShape, TensorSpec.rank,
        bind, Except.bind]
    · refine .refused fun r s => ?_
      simp [hinfer, Primitive.checkFloat, hfloat, rowsSpec, TensorSpec.ofShape, bind, Except.bind]
  · have hcompute := softmax_stacked h log
    cases log <;> exact hp ▸ hcompute

theorem argMax_rowwise {d : Nat} (h : Tensor.Stacks m q (d :: rest) x y z) :
    AllOrNone (Tensor.Stacks m q rest) (execute (.argMax 1) [x]) (execute (.argMax 1) [y])
      (execute (.argMax 1) [z]) := by
  refine execute_stacked h rfl (by simp) (.rows .i32 fun r => ?_) (eachLane_stacked h argMaxOf)
  simp [Primitive.infer, Primitive.checkAxis, Primitive.reduceAxis, rowsSpec, TensorSpec.ofShape, TensorSpec.rank, bind,
    Except.bind]

end Evaluating

end Kernel

end ComponentFlow
