/-
  ComponentFlow.Proofs.InPlace — payloads that are filled in place. Kernels on machines start with zeros and put each
  value where it belongs, in loops of their own order; the kernels here list the values. As every value that is put down
  is the final one, and every place that needs one gets it, both come to the same (`Kernel.softmax_in_place`,
  `Kernel.discountedSum_in_place`, `Kernel.oneHot_in_place`). No place outside the payload is ever written, since such
  a step would fail (`Kernel.update`).

  - `Kernel.Written`: which places have their final value.
  - `Kernel.written_foldlM`: a loop in which each step writes places of its own.
-/
import ComponentFlow.Proofs.Places

namespace ComponentFlow.Kernel

/-! ## Writing -/

/-- Element `i` of a payload in the making. -/
def readBack (out : Array Float32) (i : Nat) : Result Float32 :=
  match out[i]? with
  | some x => .ok x
  | none => .error (.fault (.indexOutOfRange out.size i))

/-- Changes element `i` of a payload, which must be there. -/
def update (out : Array Float32) (i : Nat) (f : Float32 → Float32) : Result (Array Float32) :=
  if i < out.size then .ok (out.modify i f) else .error (.fault (.indexOutOfRange out.size i))

/-- Puts a value in the place of element `i`, which must be there. -/
def write (out : Array Float32) (i : Nat) (x : Float32) : Result (Array Float32) := update out i fun _ => x

/-- Of this many places, those that are done have their final value. -/
structure Written (final : Nat → Float32) (size : Nat) (done : Nat → Prop) (out : Array Float32) : Prop where
  size_eq : out.size = size
  value : ∀ {i}, i < size → done i → out[i]? = some (final i)

section Writing

variable {σ β : Type} {final : Nat → Float32} {size i : Nat} {done done' : Nat → Prop} {out : Array Float32}
  {xs : List σ} {step : Array Float32 → σ → Result (Array Float32)} {places : σ → Nat → Prop}

theorem Written.imp (h : Written final size done out) (himp : ∀ i < size, done' i → done i) :
    Written final size done' out :=
  ⟨h.size_eq, fun hi hdone => h.value hi (himp _ hi hdone)⟩

/-- Places that need no value are done from the start. -/
theorem written_zeros (final : Nat → Float32) (size : Nat) :
    Written final size (fun i => final i = 0) (Array.replicate size 0) :=
  ⟨Array.size_replicate, fun hi hzero => by simp [hi, hzero]⟩

theorem Written.complete (h : Written final size done out) (hall : ∀ i < size, done i) :
    out = ((List.range size).map final).toArray := by
  refine Array.ext (by simp [h.size_eq]) fun i hi _ => ?_
  have hvalue := h.value (h.size_eq ▸ hi) (hall i (h.size_eq ▸ hi))
  rw [Array.getElem?_eq_getElem hi] at hvalue
  simpa using hvalue

theorem Written.readBack (h : Written final size done out) (hi : i < size) (hdone : done i) :
    readBack out i = .ok (final i) := by
  unfold Kernel.readBack
  rw [h.value hi hdone]

theorem update_places (hi : i < out.size) (f : Float32 → Float32) : Succeeds (update out i f) fun out' =>
    out'.size = out.size ∧ ∀ j, out'[j]? = if i = j then out[j]?.map f else out[j]? :=
  ⟨out.modify i f, if_pos hi, Array.size_modify, fun _ => Array.getElem?_modify⟩

theorem written_write (h : Written final size done out) (hi : i < size) :
    Succeeds (write out i (final i)) (Written final size fun j => done j ∨ j = i) := by
  refine (update_places (h.size_eq.symm ▸ hi) _).imp fun out' hout' => ⟨hout'.1.trans h.size_eq, ?_⟩
  intro j hj hdone
  rw [hout'.2]
  by_cases hij : i = j
  · subst hij
    have hsome : ∃ x, out[i]? = some x := ⟨_, Array.getElem?_eq_getElem (h.size_eq.symm ▸ hi)⟩
    obtain ⟨x, hx⟩ := hsome
    rw [if_pos rfl, hx]
    rfl
  · rw [if_neg hij]
    exact h.value hj (hdone.resolve_right fun hji => hij hji.symm)

/-- What is done before a loop stays done, and each step adds places of its own. -/
theorem written_foldlM (hstep : ∀ s ∈ xs, ∀ done' out, (∀ i, done i → done' i) → Written final size done' out →
      Succeeds (step out s) (Written final size fun i => done' i ∨ places s i))
    (h : Written final size done out) :
    Succeeds (xs.foldlM step out) (Written final size fun i => done i ∨ ∃ s ∈ xs, places s i) := by
  induction xs generalizing done out with
  | nil => exact succeeds_ok (h.imp fun i _ hi => by simpa using hi)
  | cons s xs ih =>
    obtain ⟨hs, hxs⟩ := List.forall_mem_cons.mp hstep
    rw [List.foldlM_cons]
    refine (hs done out (fun _ hi => hi) h).bind fun out' hout' => ?_
    have hrest := ih (fun s hs done' out hle => hxs s hs done' out fun i hi => hle i (.inl hi)) hout'
    refine hrest.imp fun out'' hout'' => hout''.imp fun i _ hi => ?_
    simpa [or_assoc] using hi

/-- A listing of rows that may fail, and a loop that writes them, fail alike. -/
theorem written_rows {row : σ → Result β} {g : σ → β}
    (hstep : ∀ s ∈ xs, (row s = .ok (g s) ∧ ∀ done out, Written final size done out →
        Succeeds (step out s) (Written final size fun i => done i ∨ places s i)) ∨
      ∃ e, row s = .error e ∧ ∀ out, step out s = .error e)
    (h : Written final size done out) :
    (xs.mapM row = .ok (xs.map g) ∧
      Succeeds (xs.foldlM step out) (Written final size fun i => done i ∨ ∃ s ∈ xs, places s i)) ∨
      ∃ e, xs.mapM row = .error e ∧ xs.foldlM step out = .error e := by
  induction xs generalizing done out with
  | nil => exact .inl ⟨rfl, succeeds_ok (h.imp fun i _ hi => by simpa using hi)⟩
  | cons s xs ih =>
    obtain ⟨hs, hxs⟩ := List.forall_mem_cons.mp hstep
    rcases hs with ⟨hrow, hwrite⟩ | ⟨e, hrow, herror⟩
    · obtain ⟨out', hout', hwritten⟩ := hwrite done out h
      rcases ih hxs hwritten with ⟨hrows, hrun⟩ | ⟨e, hrows, hrun⟩
      · refine .inl ⟨by simp [List.mapM_cons, hrow, hrows, bind, Except.bind, pure, Except.pure], ?_⟩
        rw [List.foldlM_cons, hout']
        refine hrun.imp fun out'' hout'' => hout''.imp fun i _ hi => ?_
        simpa [or_assoc] using hi
      · refine .inr ⟨e, by simp [List.mapM_cons, hrow, hrows, bind, Except.bind], ?_⟩
        rw [List.foldlM_cons, hout']
        exact hrun
    · refine .inr ⟨e, by simp [List.mapM_cons, hrow, bind, Except.bind], ?_⟩
      rw [List.foldlM_cons, herror]
      rfl

end Writing

/-! ## The softmax -/

/-- The softmax written lane by lane, each value in the place of its element. -/
def softmaxInPlace (t : Tensor) (axis : Nat) (log : Bool) : Result (Array Float32) := do
  let s ← Split.ofAxis t.shape.dims axis
  (List.range s.outer).foldlM (fun out o =>
    (List.range s.inner).foldlM (fun out i => do
      let xs ← lane t s o i
      (List.range s.extent).foldlM (fun out k => do
        let x ← read t (s.index o k i)
        write out (s.index o k i) (softmaxOf log xs x)) out) out) (Array.replicate t.size 0)

section Softmax

variable {x : Tensor} {axis : Nat} {s : Split} {log : Bool}

theorem index_row (s : Split) (o k i : Nat) : s.index o k i = o * (s.extent * s.inner) + (k * s.inner + i) := by
  rw [Split.index, Nat.add_mul, Nat.mul_assoc, Nat.add_assoc]

/-- Every place is that of an element of a lane. -/
theorem exists_index {j : Nat} (hj : j < s.outer * (s.extent * s.inner)) :
    ∃ o < s.outer, ∃ i < s.inner, ∃ k < s.extent, j = s.index o k i := by
  have hrow : 0 < s.extent * s.inner := Nat.pos_of_mul_pos_left (Nat.zero_lt_of_lt hj)
  have hinner : 0 < s.inner := Nat.pos_of_mul_pos_left hrow
  refine ⟨j / (s.extent * s.inner), (Nat.div_lt_iff_lt_mul hrow).mpr hj, j % (s.extent * s.inner) % s.inner,
    Nat.mod_lt _ hinner, j % (s.extent * s.inner) / s.inner, ?_, ?_⟩
  · exact (Nat.div_lt_iff_lt_mul hinner).mpr (Nat.mod_lt _ hrow)
  · rw [index_row, Nat.div_add_mod', Nat.div_add_mod']

/-- The softmax in place `j`. -/
def softmaxPlace (x : Tensor) (s : Split) (log : Bool) (j : Nat) : Float32 :=
  softmaxAt x s log (j / (s.extent * s.inner)) (j % (s.extent * s.inner) / s.inner)
    (j % (s.extent * s.inner) % s.inner)

theorem softmaxPlace_index {o k i : Nat} (hk : k < s.extent) (hi : i < s.inner) :
    softmaxPlace x s log (s.index o k i) = softmaxAt x s log o k i := by
  obtain ⟨houter, hrest⟩ := place_in_row (r := o) (row_index_lt hk hi)
  obtain ⟨halong, hinner⟩ := place_in_row (r := k) hi
  rw [softmaxPlace, index_row, houter, hrest, halong, hinner]

theorem softmaxInPlace_written (hs : Split.ofAxis x.shape.dims axis = .ok s) (log : Bool) :
    Succeeds (softmaxInPlace x axis log) (Written (softmaxPlace x s log) x.size fun j => softmaxPlace x s log j = 0 ∨
      ∃ o ∈ List.range s.outer, ∃ i ∈ List.range s.inner, ∃ k ∈ List.range s.extent, j = s.index o k i) := by
  unfold softmaxInPlace
  rw [hs]
  refine written_foldlM (fun o ho done out _ hout => ?_) (written_zeros _ x.size)
  refine written_foldlM (fun i hi done out _ hout => ?_) hout
  have ho : o < s.outer := List.mem_range.mp ho
  have hi : i < s.inner := List.mem_range.mp hi
  rw [lane_places hs ho hi]
  refine written_foldlM (fun k hk done out _ hout => ?_) hout
  have hk : k < s.extent := List.mem_range.mp hk
  have hplace : s.index o k i < x.size := lane_index_lt hs ho hk hi
  rw [read_place hplace]
  have hwrite := written_write hout hplace
  rwa [softmaxPlace_index hk hi] at hwrite

/-- Written lane by lane, the softmax is what it is listed as. -/
theorem softmax_in_place (x : Tensor) (axis : Nat) (log : Bool) : softmax x axis log = softmaxInPlace x axis log := by
  rcases hs : Split.ofAxis x.shape.dims axis with e | s
  · unfold softmax softmaxInPlace
    rw [hs]
    rfl
  have hsize : x.size = s.outer * (s.extent * s.inner) := by
    rw [← Nat.mul_assoc]
    exact x.size_eq.trans (Split.product_eq hs)
  obtain ⟨out, hout, hwritten⟩ := softmaxInPlace_written hs log
  rw [softmax_places hs, hout, ← hsize]
  refine congrArg Except.ok (hwritten.complete fun j hj => .inr ?_).symm
  obtain ⟨o, ho, i, hi, k, hk, hindex⟩ := exists_index (hsize ▸ hj)
  exact ⟨o, List.mem_range.mpr ho, i, List.mem_range.mpr hi, k, List.mem_range.mpr hk, hindex⟩

end Softmax

/-! ## Discounted sums -/

/-- What is carried to step `t`, read back from the next step if there is one and no reset. -/
def carryBack (z : Tensor) (steps row t j : Nat) (out : Array Float32) : Result Float32 :=
  if t + 1 < steps then do
    let reset ← read z (t * row + j)
    if reset == 0 then readBack out (t * row + j + row) else .ok 0
  else .ok 0

/-- The sums of step `t`, each in its place. -/
def discountedStepInPlace (x z : Tensor) (discount : Float32) (steps row t : Nat) (out : Array Float32) :
    Result (Array Float32) :=
  (List.range row).foldlM (fun out j => do
    let later ← carryBack z steps row t j out
    let value ← read x (t * row + j)
    write out (t * row + j) (value + discount * later)) out

/-- The sums written from the last step to the first. -/
def discountedSumInPlace (x z : Tensor) (discount : Float32) : Result (Array Float32) :=
  if x.shape ≠ z.shape then .error (.resetShape z.shape x.shape)
  else do
    let steps ← leadingExtent x
    if steps = 0 then .ok #[]
    else
      let row ← rowSize x steps
      (List.range steps).reverse.foldlM (fun out t => discountedStepInPlace x z discount steps row t out)
        (Array.replicate x.size 0)

section Steps

variable {x z : Tensor} {steps t j : Nat} {rest : List Nat} {discount : Float32} {out : Array Float32}

/-- The sum in place `i`. -/
def discountedPlace (x z : Tensor) (discount : Float32) (steps : Nat) (rest : List Nat) (i : Nat) : Float32 :=
  sumFrom discount (x.column rest (i % Shape.product rest)) (z.column rest (i % Shape.product rest))
    (steps - i / Shape.product rest) (i / Shape.product rest)

theorem discountedPlace_step (hj : j < Shape.product rest) :
    discountedPlace x z discount steps rest (t * Shape.product rest + j) =
      sumFrom discount (x.column rest j) (z.column rest j) (steps - t) t := by
  obtain ⟨hstep, hplace⟩ := place_in_row (r := t) hj
  rw [discountedPlace, hstep, hplace]

variable {done : Nat → Prop} (hx : x.size = steps * Shape.product rest) (hz : z.size = steps * Shape.product rest)
  (ht : t < steps)
include hz ht

theorem carryBack_written (hj : j < Shape.product rest) (hlater : ∀ i, (t + 1) * Shape.product rest ≤ i → done i)
    (hout : Written (discountedPlace x z discount steps rest) (steps * Shape.product rest) done out) :
    carryBack z steps (Shape.product rest) t j out = .ok (if z.column rest j t == 0 then
      sumFrom discount (x.column rest j) (z.column rest j) (steps - (t + 1)) (t + 1) else 0) := by
  unfold carryBack
  by_cases hnext : t + 1 < steps
  · have hplace : (t + 1) * Shape.product rest + j < steps * Shape.product rest := row_index_lt hnext hj
    have hback := hout.readBack hplace (hlater _ (Nat.le_add_right _ _))
    rw [discountedPlace_step hj, Nat.succ_mul, Nat.add_right_comm] at hback
    rw [if_pos hnext, read_place (hz ▸ row_index_lt ht hj), hback]
    exact (apply_ite Except.ok _ _ _).symm
  · have hnone : steps - (t + 1) = 0 := by omega
    rw [if_neg hnext, hnone]
    simp only [sumFrom, ite_self]

include hx

/-- With the later steps in place, a step comes to be in place as well. -/
theorem discountedStepInPlace_written
    (hout : Written (discountedPlace x z discount steps rest) (steps * Shape.product rest)
      (fun i => (t + 1) * Shape.product rest ≤ i) out) :
    Succeeds (discountedStepInPlace x z discount steps (Shape.product rest) t out)
      (Written (discountedPlace x z discount steps rest) (steps * Shape.product rest)
        fun i => t * Shape.product rest ≤ i) := by
  have hrow : Succeeds (discountedStepInPlace x z discount steps (Shape.product rest) t out)
      (Written (discountedPlace x z discount steps rest) (steps * Shape.product rest) fun i =>
        (t + 1) * Shape.product rest ≤ i ∨ ∃ j ∈ List.range (Shape.product rest), i = t * Shape.product rest + j) := by
    refine written_foldlM (fun j hj done out hdone hout => ?_) hout
    have hj : j < Shape.product rest := List.mem_range.mp hj
    have hplace : t * Shape.product rest + j < steps * Shape.product rest := row_index_lt ht hj
    have hwrite := written_write hout hplace
    have hleft : steps - t = steps - (t + 1) + 1 := by omega
    rw [discountedPlace_step hj, hleft, sumFrom] at hwrite
    rw [carryBack_written hz ht hj hdone hout, read_place (hx ▸ hplace)]
    exact hwrite
  refine hrow.imp fun out hout => hout.imp fun i _ hi => ?_
  by_cases hlater : (t + 1) * Shape.product rest ≤ i
  · exact .inl hlater
  · rw [Nat.succ_mul] at hlater
    exact .inr ⟨i - t * Shape.product rest, List.mem_range.mpr (by omega), by omega⟩

omit ht in
/-- So all steps come to be in place, the last one first. -/
theorem discountedSteps_written (ht : t ≤ steps)
    (hout : Written (discountedPlace x z discount steps rest) (steps * Shape.product rest)
      (fun i => t * Shape.product rest ≤ i) out) :
    Succeeds ((List.range t).reverse.foldlM
        (fun out t => discountedStepInPlace x z discount steps (Shape.product rest) t out) out)
      (Written (discountedPlace x z discount steps rest) (steps * Shape.product rest) fun _ => True) := by
  induction t generalizing out with
  | zero => exact succeeds_ok (hout.imp fun i _ _ => by simp)
  | succ t ih =>
    rw [List.range_succ, List.reverse_append, List.reverse_singleton, List.singleton_append, List.foldlM_cons]
    exact (discountedStepInPlace_written hx hz ht hout).bind fun out' hout' => ih (Nat.le_of_lt ht) hout'

end Steps

/-- Written step by step, discounted sums are what they are listed as. -/
theorem discountedSum_in_place (x z : Tensor) (discount : Float32) :
    discountedSum x z discount = discountedSumInPlace x z discount := by
  by_cases hsame : x.shape = z.shape
  · rcases hdims : x.shape.dims with _ | ⟨steps, rest⟩
    · simp [discountedSum, discountedSumInPlace, leadingExtent, hsame, hsame ▸ hdims, bind, Except.bind]
    rw [discountedSum_places hdims hsame]
    unfold discountedSumInPlace
    rw [if_neg (not_not.mpr hsame), leadingExtent_cons hdims]
    by_cases hsteps : steps = 0
    · subst hsteps
      simp [bind, Except.bind]
    have hx : x.size = steps * Shape.product rest := size_of_steps hdims
    have hz : z.size = steps * Shape.product rest := size_of_steps (hsame ▸ hdims)
    have hzeros : Written (discountedPlace x z discount steps rest) (steps * Shape.product rest)
        (fun i => steps * Shape.product rest ≤ i) (Array.replicate x.size 0) :=
      ⟨Array.size_replicate.trans hx, fun hi hle => absurd hi (Nat.not_lt.mpr hle)⟩
    obtain ⟨out, hout, hwritten⟩ := discountedSteps_written hx hz (Nat.le_refl steps) hzeros
    simp only [bind, Except.bind, if_neg hsteps, rowSize_steps hdims hsteps, hout]
    exact congrArg Except.ok (hwritten.complete fun _ _ => trivial).symm
  · simp [discountedSum, discountedSumInPlace, hsame]

/-! ## Indices -/

/-- Sets the place of an index to one in row `r`. -/
def setOne (depth : Nat) (out : Array Float32) (x : Float32) (r : Nat) : Result (Array Float32) :=
  let index := Scalar.toInt64 x
  if index < 0 ∨ index ≥ depth then .error (.indexOutOfDepth index depth)
  else write out (r * depth + index.toNat) 1

/-- Rows of zeros in which the places of the indices are set to one, one index after the other. -/
def oneHotInPlace (t : Tensor) (depth : Nat) : Result (Array Float32) :=
  t.data.toList.zipIdx.foldlM (fun out (x, r) => setOne depth out x r) (Array.replicate (t.size * depth) 0)

section Indices

variable {t : Tensor} {depth : Nat}

/-- The index of row `r`. -/
def hotIndex (t : Tensor) (r : Nat) : Nat := (Scalar.toInt64 (t.data.getD r 0)).toNat

/-- A one in each row where its index is. -/
def oneHotPlace (t : Tensor) (depth : Nat) (i : Nat) : Float32 :=
  Scalar.ofBool (i % depth == hotIndex t (i / depth))

theorem oneHotPlace_index {r k : Nat} (hk : k < depth) :
    oneHotPlace t depth (r * depth + k) = Scalar.ofBool (k == hotIndex t r) := by
  obtain ⟨hrow, hplace⟩ := place_in_row (r := r) hk
  rw [oneHotPlace, hrow, hplace]

/-- A row is listed and its one is written, or both fail for its index. -/
theorem oneHotRow_written {r : Nat} (hr : r < t.size) :
    (oneHotRow depth (t.data.getD r 0) = .ok ((List.range depth).map fun k => Scalar.ofBool (k == hotIndex t r)) ∧
      ∀ done out, Written (oneHotPlace t depth) (t.size * depth) done out →
        Succeeds (setOne depth out (t.data.getD r 0) r) (Written (oneHotPlace t depth) (t.size * depth) fun i =>
          done i ∨ i = r * depth + hotIndex t r)) ∨
      ∃ e, oneHotRow depth (t.data.getD r 0) = .error e ∧ ∀ out, setOne depth out (t.data.getD r 0) r = .error e := by
  by_cases hout : Scalar.toInt64 (t.data.getD r 0) < 0 ∨ Scalar.toInt64 (t.data.getD r 0) ≥ depth
  · exact .inr ⟨_, if_pos hout, fun _ => if_pos hout⟩
  · refine .inl ⟨if_neg hout, fun done out hwritten => ?_⟩
    have hindex : hotIndex t r < depth := by
      unfold hotIndex
      omega
    have hwrite := written_write hwritten (row_index_lt hr hindex)
    rw [oneHotPlace_index hindex, beq_self_eq_true] at hwrite
    unfold setOne
    rwa [if_neg hout]

end Indices

/-- Set one by one, the ones stand where they are listed, and the first index that is out of range is the one that is
    reported. -/
theorem oneHot_in_place (t : Tensor) (depth : Nat) : oneHot t depth = oneHotInPlace t depth := by
  have hdata : t.data.toList = (List.range t.size).map fun r => t.data.getD r 0 := by
    conv => lhs; rw [t.data_eq_map_range, ← t.size_eq]
    rfl
  have hzeros := written_zeros (oneHotPlace t depth) (t.size * depth)
  unfold oneHot oneHotInPlace
  rw [hdata, zipIdx_places, List.mapM_map, List.foldlM_map]
  rcases written_rows (fun r hr => oneHotRow_written (List.mem_range.mp hr)) hzeros with
    ⟨hrows, out, hrun, hwritten⟩ | ⟨e, hrows, hrun⟩
  · have hall : ∀ i < t.size * depth, oneHotPlace t depth i = 0 ∨
        ∃ r ∈ List.range t.size, i = r * depth + hotIndex t r := by
      intro i hi
      have hdepth : 0 < depth := Nat.pos_of_mul_pos_left (Nat.zero_lt_of_lt hi)
      by_cases hhot : i % depth = hotIndex t (i / depth)
      · refine .inr ⟨i / depth, List.mem_range.mpr ((Nat.div_lt_iff_lt_mul hdepth).mpr hi), ?_⟩
        rw [← hhot, Nat.div_add_mod']
      · exact .inl (by rw [oneHotPlace, beq_false_of_ne hhot]; rfl)
    have hflat := flatten_places t.size depth fun r k => Scalar.ofBool (k == hotIndex t r)
    rw [hrun, hwritten.complete hall]
    refine (congrArg ((fun rows : List (List Float32) => rows.flatten.toArray) <$> ·) hrows).trans ?_
    exact congrArg (fun xs : List Float32 => Except.ok xs.toArray) hflat
  · rw [hrun]
    exact congrArg ((fun rows : List (List Float32) => rows.flatten.toArray) <$> ·) hrows

end ComponentFlow.Kernel
