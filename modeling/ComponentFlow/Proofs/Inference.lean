/-
  ComponentFlow.Proofs.Inference — inference on specs that say less. Where operands with specs `ts`
  have a result, operands whose specs cover `ts` have one too, and its spec covers the first one's
  (`infer_covers`). So inference before anything runs never refuses operands that fit once their
  tensors are known, and never promises more than holds then (`infer_on_specs_covers_tensors`).
-/
import ComponentFlow.Primitive.Infer
import ComponentFlow.Proofs.Covering

namespace ComponentFlow

/-! ## Broadcasting -/

/-- A named axis resolved to the fixed one beside it still covers: the concrete axis was that
    extent, or one and stretched to it. -/
theorem Dim.broadcast_covers {a b x y z : Dim} (ha : a.Covers x) (hb : b.Covers y)
    (hz : x.broadcast y = some z) : ∃ c, a.broadcast b = some c ∧ c.Covers z := by
  cases a with
  | fixed m =>
    have hx : x = .fixed m := ha
    subst hx
    cases b with
    | fixed n =>
      have hy : y = .fixed n := hb
      subst hy
      exact ⟨z, hz, covers_refl z⟩
    | named s =>
      by_cases hm : m = 1
      · exact ⟨.named s, by simp [broadcast, hm], trivial⟩
      · refine ⟨.fixed m, by simp [broadcast, hm], ?_⟩
        cases y with
        | named u => simpa [broadcast, hm, Covers, eq_comm] using hz
        | fixed n =>
          simp only [broadcast, hm, if_false] at hz
          split at hz
          · simpa [Covers] using hz.symm
          · split at hz
            · simpa [Covers] using hz.symm
            · cases hz
  | named s =>
    cases b with
    | named u => exact ⟨.named s, rfl, trivial⟩
    | fixed n =>
      have hy : y = .fixed n := hb
      subst hy
      by_cases hn : n = 1
      · exact ⟨.named s, by simp [broadcast, hn], trivial⟩
      · refine ⟨.fixed n, by simp [broadcast, hn], ?_⟩
        cases x with
        | named u => simpa [broadcast, hn, Covers, eq_comm] using hz
        | fixed m =>
          simp only [broadcast, hn, if_false] at hz
          split at hz
          · simpa [Covers] using hz.symm
          · split at hz
            · next h => simpa [Covers, h] using hz.symm
            · cases hz

namespace Primitive

theorem broadcastReversed_covers {as bs xs ys zs : List Dim} (ha : Dim.AllCover as xs) (hb : Dim.AllCover bs ys)
    (hz : broadcastReversed xs ys = some zs) : ∃ cs, broadcastReversed as bs = some cs ∧ Dim.AllCover cs zs := by
  induction ha generalizing bs ys zs with
  | nil =>
    cases hz
    exact ⟨bs, rfl, hb⟩
  | cons hax ha ih =>
    cases hb with
    | nil =>
      cases hz
      exact ⟨_, rfl, .cons hax ha⟩
    | cons hby hb =>
      simp only [broadcastReversed, Option.bind_eq_bind, Option.bind_eq_some_iff] at hz
      obtain ⟨z, hz, zs', hzs, ⟨⟩⟩ := hz
      obtain ⟨c, hc, hcz⟩ := Dim.broadcast_covers hax hby hz
      obtain ⟨cs, hcs, hczs⟩ := ih hb hzs
      exact ⟨c :: cs, by simp [broadcastReversed, hc, hcs], .cons hcz hczs⟩

theorem broadcastDims_covers {as bs xs ys zs : List Dim} (ha : Dim.AllCover as xs) (hb : Dim.AllCover bs ys)
    (hz : broadcastDims xs ys = .ok zs) : ∃ cs, broadcastDims as bs = .ok cs ∧ Dim.AllCover cs zs := by
  unfold broadcastDims at hz
  split at hz
  · next ds hds =>
    cases hz
    obtain ⟨cs, hcs, hcover⟩ := broadcastReversed_covers (List.rel_reverse ha) (List.rel_reverse hb) hds
    exact ⟨cs.reverse, by simp [broadcastDims, hcs], List.rel_reverse hcover⟩
  · cases hz

/-! ## Axes -/

theorem reduceAxis_covers {as xs : List Dim} (h : Dim.AllCover as xs) (axis : Nat) (keep : Bool) :
    Dim.AllCover (reduceAxis as axis keep) (reduceAxis xs axis keep) := by
  induction h generalizing axis with
  | nil => cases keep <;> exact .nil
  | cons hax ha ih =>
    cases axis with
    | zero => cases keep; exact ha; exact .cons (Dim.covers_refl _) ha
    | succ axis =>
      have := ih axis
      cases keep
      · exact .cons hax this
      · exact .cons hax this

theorem reduceAll_covers {as xs : List Dim} (h : Dim.AllCover as xs) (keep : Bool) :
    Dim.AllCover (reduceAll as keep) (reduceAll xs keep) := by
  cases keep with
  | false => exact .nil
  | true => exact List.rel_map (fun _ _ _ => Dim.covers_refl _) h

theorem insertAxis_covers {as xs : List Dim} (h : Dim.AllCover as xs) (axis : Nat) (d : Dim) :
    Dim.AllCover (as.insertIdx axis d) (xs.insertIdx axis d) := by
  induction axis generalizing as xs with
  | zero => exact .cons (Dim.covers_refl d) h
  | succ axis ih =>
    cases h with
    | nil => exact .nil
    | cons hax ha => exact .cons hax (ih ha)

/-! ## Inference -/

section Checks

variable {α : Type} {p : Primitive} {a b x : TensorSpec} {axis : Nat} {f : Unit → Except Mismatch α} {c : α}

theorem checkAxis_then : (checkAxis p x axis >>= f) = .ok c ↔ axis < x.rank ∧ f () = .ok c := by
  unfold checkAxis
  by_cases h : axis < x.rank <;> simp [h, bind, Except.bind]

theorem checkFloat_then : (checkFloat p x >>= f) = .ok c ↔ x.dtype.isFloat = true ∧ f () = .ok c := by
  unfold checkFloat
  by_cases h : x.dtype.isFloat = true <;> simp [h, bind, Except.bind]

theorem checkSameDType_then : (checkSameDType p a b >>= f) = .ok c ↔ a.dtype = b.dtype ∧ f () = .ok c := by
  unfold checkSameDType
  by_cases h : a.dtype = b.dtype <;> simp [h, bind, Except.bind]

theorem broadcastDims_then {as bs : List Dim} {f : List Dim → Except Mismatch α} :
    (broadcastDims as bs >>= f) = .ok c ↔ ∃ ds, broadcastDims as bs = .ok ds ∧ f ds = .ok c := by
  cases broadcastDims as bs <;> simp [bind, Except.bind]

end Checks

variable {a b d x y z c : TensorSpec}

theorem inferUnary_covers (op : UnaryOp) (ha : a.Covers x) (hc : inferUnary op x = .ok c) :
    ∃ s, inferUnary op a = .ok s ∧ s.Covers c := by
  cases op with
  | logicalNot =>
    cases hc
    exact ⟨_, rfl, TensorSpec.covers_withDType ha _⟩
  | neg | abs | square | relu =>
    cases hc
    exact ⟨a, rfl, ha⟩
  | exp | log | sqrt | tanh | sigmoid =>
    simp only [inferUnary, checkFloat_then] at hc ⊢
    obtain ⟨hfloat, ⟨⟩⟩ := hc
    exact ⟨a, ⟨ha.1 ▸ hfloat, rfl⟩, ha⟩

/-- Two operands of one element type, stretched to each other. -/
theorem inferSpread_covers (p : Primitive) (dtype : TensorSpec → DType) (ha : a.Covers x) (hb : b.Covers y)
    (hdtype : dtype a = dtype x)
    (hc : (do checkSameDType p x y; let dims ← broadcastDims x.dims y.dims; .ok ⟨dtype x, dims⟩) = Except.ok c) :
    ∃ s : TensorSpec,
      (do checkSameDType p a b; let dims ← broadcastDims a.dims b.dims; .ok ⟨dtype a, dims⟩) = Except.ok s
        ∧ s.Covers c := by
  simp only [checkSameDType_then, broadcastDims_then] at hc ⊢
  obtain ⟨hsame, ds, hds, ⟨⟩⟩ := hc
  obtain ⟨cs, hcs, hcover⟩ := broadcastDims_covers ha.2 hb.2 hds
  exact ⟨⟨dtype a, cs⟩, ⟨ha.1.trans (hsame.trans hb.1.symm), cs, hcs, rfl⟩, hdtype, hcover⟩

theorem inferSelect_covers (ha : a.Covers x) (hb : b.Covers y) (hd : d.Covers z) (hc : inferSelect x y z = .ok c) :
    ∃ s, inferSelect a b d = .ok s ∧ s.Covers c := by
  unfold inferSelect at hc ⊢
  rw [ha.1]
  by_cases hbool : x.dtype = .bool
  · simp only [hbool, ne_eq, not_true_eq_false, if_false, checkSameDType_then, broadcastDims_then] at hc ⊢
    obtain ⟨hsame, ds, hds, es, hes, ⟨⟩⟩ := hc
    obtain ⟨ds', hds', hcover⟩ := broadcastDims_covers ha.2 hb.2 hds
    obtain ⟨es', hes', hcover'⟩ := broadcastDims_covers hcover hd.2 hes
    exact ⟨⟨b.dtype, es'⟩, ⟨hb.1.trans (hsame.trans hd.1.symm), ds', hds', es', hes', rfl⟩, hb.1, hcover'⟩
  · simp only [hbool, ne_eq, not_false_eq_true, if_true] at hc
    cases hc

theorem inferReduce_covers (op : ReduceOp) (axis : Option Nat) (keep : Bool) (ha : a.Covers x)
    (hc : inferReduce op axis keep x = .ok c) : ∃ s, inferReduce op axis keep a = .ok s ∧ s.Covers c := by
  unfold inferReduce at hc ⊢
  rw [ha.1]
  cases axis with
  | none =>
    cases hc
    exact ⟨_, rfl, rfl, reduceAll_covers ha.2 keep⟩
  | some axis =>
    simp only [checkAxis_then] at hc ⊢
    obtain ⟨haxis, ⟨⟩⟩ := hc
    exact ⟨_, ⟨ha.rank_eq ▸ haxis, rfl⟩, rfl, reduceAxis_covers ha.2 axis keep⟩

theorem inferMatMul_covers (ha : a.Covers x) (hb : b.Covers y) (hc : inferMatMul x y = .ok c) :
    ∃ s, inferMatMul a b = .ok s ∧ s.Covers c := by
  obtain ⟨adt, as⟩ := a
  obtain ⟨bdt, bs⟩ := b
  obtain ⟨xdt, xs⟩ := x
  obtain ⟨ydt, ys⟩ := y
  obtain ⟨rfl, has⟩ := ha
  obtain ⟨rfl, hbs⟩ := hb
  simp only [inferMatMul, checkSameDType_then] at hc ⊢
  obtain ⟨hsame, hc⟩ := hc
  split at hc
  · next m k k' n =>
    obtain ⟨m₀, k₀, hm, hk, rfl⟩ : ∃ m₀ k₀, m₀.Covers m ∧ k₀.Covers k ∧ as = [m₀, k₀] := by
      rcases has with _ | ⟨hm, _ | ⟨hk, _ | _⟩⟩
      exact ⟨_, _, hm, hk, rfl⟩
    obtain ⟨k₁, n₁, hk', hn, rfl⟩ : ∃ k₁ n₁, k₁.Covers k' ∧ n₁.Covers n ∧ bs = [k₁, n₁] := by
      rcases hbs with _ | ⟨hk', _ | ⟨hn, _ | _⟩⟩
      exact ⟨_, _, hk', hn, rfl⟩
    split at hc
    · next hcontract =>
      cases hc
      refine ⟨⟨adt, [m₀, n₁]⟩, ⟨hsame, ?_⟩, rfl, .cons hm (.cons hn .nil)⟩
      simp [Dim.compatible_mono hk hk' hcontract]
    · cases hc
  · cases hc

/-- An axis that may vary is taken to be one. -/
theorem inferSqueeze_covers (axis : Nat) (ha : a.Covers x) (hc : inferSqueeze axis x = .ok c) :
    ∃ s, inferSqueeze axis a = .ok s ∧ s.Covers c := by
  simp only [inferSqueeze, checkAxis_then] at hc ⊢
  obtain ⟨haxis, hc⟩ := hc
  have hcover : TensorSpec.Covers ⟨a.dtype, reduceAxis a.dims axis false⟩ ⟨x.dtype, reduceAxis x.dims axis false⟩ :=
    ⟨ha.1, reduceAxis_covers ha.2 axis false⟩
  have hresult : c = ⟨x.dtype, reduceAxis x.dims axis false⟩ := by
    split at hc
    · split at hc
      · exact (Except.ok.inj hc).symm
      · cases hc
    · exact (Except.ok.inj hc).symm
  refine ⟨_, ⟨ha.rank_eq ▸ haxis, ?_⟩, hresult ▸ hcover⟩
  split
  · next extent hextent =>
    rw [Dim.fixed_at_of_allCover ha.2 hextent] at hc
    by_cases hone : extent = 1
    · exact if_pos hone
    · simp only [if_neg hone] at hc
      cases hc
  · rfl

theorem inferDiscountedSum_covers (discount : Float32) (ha : a.Covers x) (hb : b.Covers y)
    (hc : inferDiscountedSum discount x y = .ok c) : ∃ s, inferDiscountedSum discount a b = .ok s ∧ s.Covers c := by
  simp only [inferDiscountedSum, checkFloat_then] at hc ⊢
  obtain ⟨hfloat, hc⟩ := hc
  by_cases hdiffer : x.rank = 0 ∨ (!Dim.allCompatible x.dims y.dims) = true
  · rw [if_pos hdiffer] at hc
    cases hc
  · rw [if_neg hdiffer] at hc
    cases hc
    simp only [not_or, Bool.not_eq_true, Bool.not_eq_false'] at hdiffer
    refine ⟨a, ⟨ha.1 ▸ hfloat, if_neg ?_⟩, ha⟩
    simp only [not_or, Bool.not_eq_true, Bool.not_eq_false']
    exact ⟨ha.rank_eq ▸ hdiffer.1, Dim.allCompatible_mono ha.2 hb.2 hdiffer.2⟩

/-- An axis of floats that keeps its extent. -/
theorem inferAlong_covers (p : Primitive) (axis : Nat) (ha : a.Covers x)
    (hc : (do checkFloat p x; checkAxis p x axis; .ok x) = Except.ok c) :
    ∃ s, (do checkFloat p a; checkAxis p a axis; .ok a) = Except.ok s ∧ s.Covers c := by
  simp only [checkFloat_then, checkAxis_then] at hc ⊢
  obtain ⟨hfloat, haxis, ⟨⟩⟩ := hc
  exact ⟨a, ⟨ha.1 ▸ hfloat, ha.rank_eq ▸ haxis, rfl⟩, ha⟩

/-- A refusal that less knowledge does not bring about. -/
theorem guarded_covers {refuse refuse' : Prop} [Decidable refuse] [Decidable refuse'] {e e' : Mismatch}
    (hrefuse : refuse → refuse') (hab : a.Covers b) (hc : (if refuse' then .error e' else .ok b) = Except.ok c) :
    ∃ s, (if refuse then .error e else .ok a) = Except.ok s ∧ s.Covers c := by
  by_cases h : refuse'
  · rw [if_pos h] at hc
    cases hc
  · rw [if_neg h] at hc
    cases hc
    exact ⟨a, if_neg fun hr => h (hrefuse hr), hab⟩

/-- Inference is monotone: it neither refuses operands of which less is known, nor says more of
    the result. -/
theorem infer_covers {p : Primitive} {ss ts : List TensorSpec} (h : List.Forall₂ TensorSpec.Covers ss ts)
    (hc : p.infer ts = .ok c) : ∃ s, p.infer ss = .ok s ∧ s.Covers c := by
  unfold infer at hc
  split at hc <;> try simp only [List.forall₂_cons_right_iff, List.forall₂_nil_right_iff] at h
  · next op x =>
    obtain ⟨a, _, ha, rfl, rfl⟩ := h
    exact inferUnary_covers op ha hc
  · next op x y =>
    obtain ⟨a, _, ha, ⟨b, _, hb, rfl, rfl⟩, rfl⟩ := h
    exact inferSpread_covers (.binary op) TensorSpec.dtype ha hb ha.1 hc
  · next op x y =>
    obtain ⟨a, _, ha, ⟨b, _, hb, rfl, rfl⟩, rfl⟩ := h
    exact inferSpread_covers (.compare op) (fun _ => .bool) ha hb rfl hc
  · obtain ⟨a, _, ha, ⟨b, _, hb, ⟨d, _, hd, rfl, rfl⟩, rfl⟩, rfl⟩ := h
    exact inferSelect_covers ha hb hd hc
  · next op axis keep x =>
    obtain ⟨a, _, ha, rfl, rfl⟩ := h
    exact inferReduce_covers op axis keep ha hc
  · next axis x =>
    obtain ⟨a, _, ha, rfl, rfl⟩ := h
    simp only [checkAxis_then] at hc
    obtain ⟨haxis, ⟨⟩⟩ := hc
    refine ⟨⟨.i32, reduceAxis a.dims axis false⟩, ?_, rfl, reduceAxis_covers ha.2 axis false⟩
    simp only [infer, checkAxis_then]
    exact ⟨ha.rank_eq ▸ haxis, trivial⟩
  · next axis x =>
    obtain ⟨a, _, ha, rfl, rfl⟩ := h
    exact inferAlong_covers (.softmax axis) axis ha hc
  · next axis x =>
    obtain ⟨a, _, ha, rfl, rfl⟩ := h
    exact inferAlong_covers (.logSoftmax axis) axis ha hc
  · obtain ⟨a, _, ha, ⟨b, _, hb, rfl, rfl⟩, rfl⟩ := h
    exact inferMatMul_covers ha hb hc
  · next lo hi x =>
    obtain ⟨a, _, ha, rfl, rfl⟩ := h
    exact guarded_covers id ha hc
  · next dtype x =>
    obtain ⟨a, _, ha, rfl, rfl⟩ := h
    cases hc
    exact ⟨_, rfl, TensorSpec.covers_withDType ha dtype⟩
  · next axis x =>
    obtain ⟨a, _, ha, rfl, rfl⟩ := h
    exact inferSqueeze_covers axis ha hc
  · next axis x =>
    obtain ⟨a, _, ha, rfl, rfl⟩ := h
    have hcover : TensorSpec.Covers ⟨a.dtype, a.dims.insertIdx axis (.fixed 1)⟩
        ⟨x.dtype, x.dims.insertIdx axis (.fixed 1)⟩ := ⟨ha.1, insertAxis_covers ha.2 axis (.fixed 1)⟩
    exact guarded_covers (fun h => ha.rank_eq ▸ h) hcover hc
  · obtain ⟨a, _, ha, rfl, rfl⟩ := h
    cases hc
    exact ⟨a, rfl, ha⟩
  · next fill x =>
    obtain ⟨a, _, ha, rfl, rfl⟩ := h
    exact guarded_covers (fun h => ha.rank_eq ▸ h) ha hc
  · next discount x y =>
    obtain ⟨a, _, ha, ⟨b, _, hb, rfl, rfl⟩, rfl⟩ := h
    exact inferDiscountedSum_covers discount ha hb hc
  · next seed step like =>
    obtain ⟨a, _, ha, ⟨b, _, hb, rfl, rfl⟩, rfl⟩ := h
    exact guarded_covers (fun h => ha.rank_eq ▸ h) (TensorSpec.covers_withDType hb .f32) hc
  · next depth x =>
    obtain ⟨a, _, ha, rfl, rfl⟩ := h
    have hcover : TensorSpec.Covers ⟨.f32, a.dims ++ [.fixed depth]⟩ ⟨.f32, x.dims ++ [.fixed depth]⟩ :=
      ⟨rfl, List.rel_append ha.2 (.cons (Dim.covers_refl _) .nil)⟩
    exact guarded_covers (fun h => ha.1 ▸ h) hcover hc
  · cases hc

end Primitive

/-! ## Specs of operands that are not known yet -/

/-- Operands declared by specs have an inferred result wherever the tensors that these admit have
    one, with its element type, its rank, and no fixed extent that is not its own. -/
theorem infer_on_specs_covers_tensors {p : Primitive} {ss : List TensorSpec} {ts : List Tensor} {c : TensorSpec}
    (hadmits : List.Forall₂ (fun s t => TensorSpec.admits s t = true) ss ts)
    (hc : p.infer (ts.map Tensor.spec) = .ok c) :
    ∃ s, p.infer ss = .ok s ∧ s.dtype = c.dtype ∧ s.rank = c.rank ∧
      (∀ i n : Nat, s.dims[i]? = some (Dim.fixed n) → c.dims[i]? = some (Dim.fixed n)) ∧
      ∀ t : Tensor, t.spec = c → s.admits t = true := by
  have hcover : List.Forall₂ TensorSpec.Covers ss (ts.map Tensor.spec) :=
    List.forall₂_map_right_iff.mpr (hadmits.imp fun _ _ => TensorSpec.admits_iff_covers.mp)
  obtain ⟨s, hs, hsc⟩ := Primitive.infer_covers hcover hc
  refine ⟨s, hs, hsc.1, hsc.rank_eq, fun _ _ => Dim.fixed_at_of_allCover hsc.2, ?_⟩
  intro t ht
  subst ht
  exact TensorSpec.admits_iff_covers.mpr hsc

/-- A choice between a batch of unknown length and a row of unknown length. -/
theorem infer_select_on_specs :
    List.Forall₂ (fun s t => TensorSpec.admits s t = true)
      [⟨.bool, []⟩, ⟨.f32, [.named "B", .fixed 3]⟩, ⟨.f32, [.named "N"]⟩]
      [Tensor.scalarBool true, Tensor.zeros ⟨[2, 3]⟩, Tensor.zeros ⟨[3]⟩] ∧
    ∃ s, Primitive.infer .select [⟨.bool, []⟩, ⟨.f32, [.named "B", .fixed 3]⟩, ⟨.f32, [.named "N"]⟩] = .ok s ∧
      s.admits (Tensor.zeros ⟨[2, 3]⟩) = true := by
  have hadmits : List.Forall₂ (fun s t => TensorSpec.admits s t = true)
      [⟨.bool, []⟩, ⟨.f32, [.named "B", .fixed 3]⟩, ⟨.f32, [.named "N"]⟩]
      [Tensor.scalarBool true, Tensor.zeros ⟨[2, 3]⟩, Tensor.zeros ⟨[3]⟩] :=
    .cons (by decide) (.cons (by decide) (.cons (by decide) .nil))
  obtain ⟨s, hs, -, -, -, hadmit⟩ :=
    infer_on_specs_covers_tensors (p := .select) (c := ⟨.f32, [.fixed 2, .fixed 3]⟩) hadmits rfl
  exact ⟨hadmits, s, hs, hadmit _ rfl⟩

end ComponentFlow
