/-
  ComponentFlow.Proofs.Immediate — calls that run at once. They see tensors only and give tensors
  only, whatever was counted before (`Tree.invoke_repeats`), so that bindings which cannot be told
  apart stand for calls with the same results.
-/
import ComponentFlow.Graph.Invocation
import ComponentFlow.Kernel.Basic
import ComponentFlow.Proofs.Contract

namespace ComponentFlow

/-- What immediate calls work on. -/
inductive Value.Concrete : Value → Prop
  | tensor (t : Tensor) : Concrete (.tensor t)
  | absent : Concrete .absent

/-! ## Evaluating -/

namespace Kernels

variable {k : Kernels} {p : Primitive} {spec : TensorSpec} {ts : List Tensor} {tally tally' : Tally}

@[simp] theorem runOn_call (k : Kernels) (p : Primitive) (ts : List Tensor) (tally : Tally) :
    (k.call p ts).runOn tally = (Outcome.ofKernel (k.execute p ts), k.noted p ts tally) :=
  congrArg (fun done : Except KernelError Tensor × Tally => (Outcome.ofKernel done.1, done.2)) (k.run_eq p ts tally)

theorem evaluate_ok {t : Tensor} : (k.evaluate p spec ts).runOn tally = (.ok t, tally') ↔
    tally' = k.noted p ts tally ∧ k.execute p ts = .ok t ∧ spec.admits t = true := by
  unfold evaluate
  rcases hexecute : k.execute p ts with e | out
  · simp [Effect.runOn_bind, Outcome.ofKernel, Except.mapError, hexecute]
  · by_cases hadmits : spec.admits out = true
    · simp only [Effect.runOn_bind, runOn_call, Outcome.ofKernel, Except.mapError, hexecute, hadmits, Bool.not_true,
        Bool.false_eq_true, if_false, Effect.runOn_pure, Prod.mk.injEq, Except.ok.injEq]
      constructor
      · rintro ⟨rfl, rfl⟩
        exact ⟨rfl, rfl, hadmits⟩
      · rintro ⟨rfl, rfl, -⟩
        exact ⟨rfl, rfl⟩
    · simp only [Effect.runOn_bind, runOn_call, Outcome.ofKernel, Except.mapError, hexecute, hadmits, Bool.not_false,
        if_true, Effect.runOn_throw, Prod.mk.injEq, reduceCtorEq, false_and, Except.ok.injEq, false_iff]
      rintro ⟨-, rfl, h⟩
      exact hadmits h

/-- What makes an evaluation fail: the kernels do, or what they give is not admitted. -/
theorem evaluate_error {e : GraphError} (h : ((k.evaluate p spec ts).runOn tally).1 = .error e) :
    (∃ cause, k.execute p ts = .error cause ∧ e = .ofKernel cause) ∨
      ∃ t, k.execute p ts = .ok t ∧ spec.admits t = false := by
  unfold evaluate at h
  rcases hexecute : k.execute p ts with cause | out
  · simp only [Effect.runOn_bind, runOn_call, Outcome.ofKernel, Except.mapError, hexecute, Except.error.injEq] at h
    exact .inl ⟨cause, rfl, h.symm⟩
  · refine .inr ⟨out, rfl, ?_⟩
    rcases hadmits : spec.admits out with _ | _
    · rfl
    · simp [Effect.runOn_bind, Outcome.ofKernel, Except.mapError, hexecute, hadmits] at h

/-- Where kernels give the same, their evaluations come to the same, whatever they noted before. -/
theorem evaluate_alike {k' : Kernels} (h : k'.execute = k.execute) (p : Primitive) (spec : TensorSpec)
    (ts : List Tensor) : (k'.evaluate p spec ts).Alike (k.evaluate p spec ts) := by
  have hcall : (k'.call p ts).Alike (k.call p ts) := fun tally tally' => by simp [h]
  refine hcall.bind fun out => ?_
  split
  · exact fun _ _ => rfl
  · exact Effect.alike_pure _

end Kernels

theorem Handler.operands_ok {p : Primitive} {vs : List Value} {ts : List Tensor} :
    vs.mapM (Handler.operand p) = .ok ts ↔ vs = ts.map .tensor := by
  rw [Outcome.mapM_ok]
  constructor
  · intro h
    induction h with
    | nil => rfl
    | @cons v t _ _ hv _ ih =>
      cases v <;> cases hv
      rw [ih, List.map_cons]
  · rintro rfl
    exact List.forall₂_map_left_iff.mpr (List.forall₂_same.mpr fun _ _ => rfl)

theorem Handler.immediate_ok {k : Kernels} {p : Primitive} {vs : List Value} {tally tally' : Tally} {v : Value} :
    ((Handler.immediate k).apply p vs).runOn tally = (.ok v, tally') ↔
      ∃ ts spec t, vs = ts.map .tensor ∧ p.infer (ts.map Tensor.spec) = .ok spec ∧ k.execute p ts = .ok t ∧
        spec.admits t = true ∧ v = .tensor t ∧ tally' = k.noted p ts tally := by
  constructor
  · intro h
    obtain ⟨ts, _, hts, h⟩ := Effect.bind_ok.mp h
    obtain ⟨spec, _, hspec, h⟩ := Effect.bind_ok.mp h
    obtain ⟨t, _, ht, h⟩ := Effect.bind_ok.mp h
    cases h
    simp only [Effect.runOn_ofOutcome, Prod.mk.injEq] at hts hspec
    obtain ⟨hts, rfl⟩ := hts
    obtain ⟨hspec, rfl⟩ := hspec
    obtain ⟨htally, hexecute, hadmits⟩ := Kernels.evaluate_ok.mp ht
    exact ⟨ts, spec, t, operands_ok.mp hts, Outcome.ofShape_ok.mp hspec, hexecute, hadmits, rfl, htally⟩
  · intro h
    obtain ⟨ts, spec, t, hvs, hspec, hexecute, hadmits, rfl, rfl⟩ := h
    refine Effect.bind_ok.mpr ⟨ts, tally, by simp [operands_ok.mpr hvs], ?_⟩
    refine Effect.bind_ok.mpr ⟨spec, tally, by simp [Outcome.ofShape_ok.mpr hspec], ?_⟩
    exact Effect.bind_ok.mpr ⟨t, _, Kernels.evaluate_ok.mpr ⟨rfl, hexecute, hadmits⟩, rfl⟩

/-! ## Running a call again -/

/-- States that have nothing to do with each other. -/
def Coupling.loose (σ τ : Type) : Coupling σ τ where
  World := Unit
  Grows _ _ := True
  refl _ := trivial
  trans _ _ := trivial
  Holds _ _ _ := True

/-- The same value, which is concrete. -/
def SameConcrete (v v' : Value) : Prop := v = v' ∧ v.Concrete

theorem sameConcretes_iff {vs vs' : List Value} :
    List.Forall₂ SameConcrete vs vs' ↔ vs = vs' ∧ ∀ v ∈ vs, v.Concrete := forall₂_eq_and

/-- A method that is run at once, twice. -/
def Lockstep.repeated (k : Kernels) :
    Lockstep (Coupling.loose Tally Tally) (Handler.immediate k) (Handler.immediate k) where
  Rel _ := SameConcrete
  lasting := fun _ _ _ _ _ h => h
  absent := fun _ => ⟨rfl, .absent⟩
  tensor := fun _ t => ⟨rfl, .tensor t⟩
  dtype := fun h => h.1 ▸ rfl
  absence := fun h => h.1 ▸ rfl
  apply := by
    intro w p vs vs' h tally tally' _ v tally₁ hrun
    obtain ⟨rfl, -⟩ := sameConcretes_iff.mp h
    obtain ⟨ts, spec, t, hvs, hspec, hexecute, hadmits, rfl, -⟩ := Handler.immediate_ok.mp hrun
    exact ⟨(), .tensor t, _, trivial,
      Handler.immediate_ok.mpr ⟨ts, spec, t, hvs, hspec, hexecute, hadmits, rfl, rfl⟩, trivial, rfl, .tensor t⟩
  Permits m := m.plain = true
  foreign := fun hm hp => absurd hp (Method.not_foreign hm)
  check := by
    intro m w scope ins ins' outs outs' _ hins houts hcheck
    obtain ⟨rfl, -⟩ := sameConcretes_iff.mp hins
    obtain ⟨rfl, -⟩ := sameConcretes_iff.mp houts
    exact hcheck

namespace Tree

variable {t : Tree} {k : Kernels} {id : NodeId} {name : String} {vs : List Value} {o : Outputs}

/-- What a call gives at once for these inputs. -/
def Gives (t : Tree) (k : Kernels) (id : NodeId) (name : String) (vs : List Value) (o : Outputs) : Prop :=
  ∀ tally, ∃ tally', (t.invoke (.immediate k) id name vs).runOn tally = (.ok o, tally')

theorem Gives.unique {o' : Outputs} (h : t.Gives k id name vs o) (h' : t.Gives k id name vs o') : o = o' := by
  obtain ⟨tally, hrun⟩ := h []
  obtain ⟨tally', hrun'⟩ := h' []
  exact Except.ok.inj (Prod.mk.inj (hrun.symm.trans hrun')).1

/-- What was counted before makes no difference to a call, and only concrete values come out. -/
theorem invoke_repeats (ht : t.plain = true) (hvs : ∀ v ∈ vs, v.Concrete) {tally tally' : Tally}
    (h : (t.invoke (.immediate k) id name vs).runOn tally = (.ok o, tally')) :
    t.Gives k id name vs o ∧ ∀ v ∈ o.values, v.Concrete := by
  have hfollows := Lockstep.invoke_follows (l := .repeated k) (fun _ _ _ hm => plain_method ht hm) id name
    (w := ()) (sameConcretes_iff.mpr ⟨rfl, hvs⟩)
  have hsame : ∀ tally₁, ∃ tally₂, (t.invoke (.immediate k) id name vs).runOn tally₁ = (.ok o, tally₂) ∧
      ∀ v ∈ o.values, v.Concrete := fun tally₁ => by
    obtain ⟨_, o', tally₂, -, hrun, -, hnames, hvalues⟩ := hfollows tally tally₁ trivial o tally' h
    obtain ⟨hvalues, hconcrete⟩ := sameConcretes_iff.mp hvalues
    obtain ⟨names, values⟩ := o
    obtain ⟨names', values'⟩ := o'
    obtain rfl : names = names' := hnames
    obtain rfl : values = values' := hvalues
    exact ⟨tally₂, hrun, hconcrete⟩
  obtain ⟨-, -, hconcrete⟩ := hsame tally
  exact ⟨fun tally₁ => (hsame tally₁).imp fun _ h => h.1, hconcrete⟩

end Tree

/-! ## Completed inputs -/

namespace Signature

variable {m : Signature} {scope : String} {supplied ins : List Value}

theorem length_fillDefaults {filled : Nat} {slots : List InputSlot} {vs : List Value}
    (h : m.fillDefaults scope filled slots = .ok vs) : vs.length = slots.length := by
  induction slots generalizing filled vs with
  | nil =>
    cases h
    rfl
  | cons slot rest ih =>
    unfold fillDefaults at h
    split at h
    · cases h
    · obtain ⟨vs', hvs', rfl⟩ := Outcome.map_ok.mp h
      simp [ih hvs']
    · obtain ⟨vs', hvs', rfl⟩ := Outcome.map_ok.mp h
      simp [ih hvs']

theorem length_completeInputs (h : m.completeInputs scope supplied = .ok ins) : ins.length = m.inputs.length := by
  unfold completeInputs at h
  dsimp only at h
  split at h
  · cases h
  · next hcount =>
    obtain ⟨defaults, hdefaults, rfl⟩ := Outcome.map_ok.mp h
    have hlength := length_fillDefaults hdefaults
    rw [List.length_drop] at hlength
    rw [List.length_append]
    omega

/-- Inputs that are complete are completed to themselves. -/
theorem completeInputs_completed (h : m.completeInputs scope supplied = .ok ins) :
    m.completeInputs scope ins = .ok ins := by
  have hlength := length_completeInputs h
  have hleading : (m.inputs.takeWhile fun slot => slot.default.isRequired).length ≤ m.inputs.length :=
    (List.takeWhile_prefix _).length_le
  unfold completeInputs
  dsimp only
  rw [if_neg (by omega), hlength, List.drop_length]
  exact Outcome.map_ok.mpr ⟨[], rfl, List.append_nil ins⟩

end Signature

/-- A call is one of the method on its completed inputs, and its outputs keep the method's contract. -/
theorem Tree.invoke_ok {σ : Type} {t : Tree} {d : Handler σ} {id : NodeId} {name : String} {supplied : List Value}
    {o : Outputs} {s s' : σ} (h : (t.invoke d id name supplied).runOn s = (.ok o, s')) :
    ∃ m ins, t.method id name = .ok m ∧ m.completeInputs (t.displayName id) supplied = .ok ins ∧
      m.checkOutputs (t.displayName id) (ins.map Value.spec?) o.values = .ok () ∧ o.names = m.outputNames ∧
      (t.invoke d id name ins).runOn s = (.ok o, s') := by
  unfold Tree.invoke at h ⊢
  rcases hdepth : t.size with _ | depth
  · rw [hdepth] at h
    cases h
  · rw [hdepth] at h
    unfold Tree.invokeWithin at h ⊢
    obtain ⟨m, s₁, hm, h⟩ := Effect.bind_ok.mp h
    obtain ⟨ins, s₂, hins, h⟩ := Effect.bind_ok.mp h
    simp only [Effect.runOn_ofOutcome, Prod.mk.injEq] at hm hins
    obtain ⟨hm, rfl⟩ := hm
    obtain ⟨hins, rfl⟩ := hins
    have hrest := h
    obtain ⟨values, s₃, -, h⟩ := Effect.bind_ok.mp h
    obtain ⟨_, s₄, hcheck, h⟩ := Effect.bind_ok.mp h
    cases h
    simp only [Effect.runOn_ofOutcome, Prod.mk.injEq] at hcheck
    refine ⟨m, ins, hm, hins, hcheck.1, rfl, ?_⟩
    refine Effect.bind_ok.mpr ⟨m, s, by simp [hm], ?_⟩
    exact Effect.bind_ok.mpr ⟨ins, s, by simp [Signature.completeInputs_completed hins], hrest⟩

/-! ## Bindings that cannot be told apart -/

theorem Scalar.eq_of_identical {a b : Float32} (h : Scalar.identical a b = true) : a = b := by
  simp only [Scalar.identical, Bool.and_eq_true, beq_iff_eq] at h
  obtain ⟨⟨bits, hvalid⟩⟩ := a
  obtain ⟨⟨bits', hvalid'⟩⟩ := b
  obtain rfl : bits = bits' := h.1
  rfl

theorem Tensor.eq_of_identical {a b : Tensor} (h : a.identical b = true) : a = b := by
  obtain ⟨dtype, shape, data, hsize⟩ := a
  obtain ⟨dtype', shape', data', hsize'⟩ := b
  simp only [Tensor.identical, Bool.and_eq_true, beq_iff_eq] at h
  obtain ⟨⟨rfl, rfl⟩, hall⟩ := h
  have hdata : data = data' := by
    refine Array.ext (hsize.trans hsize'.symm) fun i hi hi' => Scalar.eq_of_identical ?_
    have hmem : (data[i], data'[i]) ∈ data.toList.zip data'.toList := by
      have hzip : (data.toList.zip data'.toList)[i]? = some (data[i], data'[i]) :=
        List.getElem?_zip_eq_some.mpr ⟨by simp [hi], by simp [hi']⟩
      exact List.mem_of_getElem? hzip
    exact List.all_eq_true.mp hall _ hmem
  subst hdata
  rfl

theorem Binding.eq_of_identical {a b : Binding} (h : a.identical b = true) : a = b := by
  cases a <;> cases b <;> simp [Binding.identical] at h ⊢
  · exact Tensor.eq_of_identical h
  · exact h
  · exact h

theorem Binding.eq_of_allIdentical {as bs : List Binding} (h : Binding.allIdentical as bs = true) : as = bs := by
  induction as generalizing bs with
  | nil =>
    cases bs with
    | nil => rfl
    | cons _ _ => cases h
  | cons a as ih =>
    cases bs with
    | nil => cases h
    | cons b bs =>
      simp only [Binding.allIdentical, Bool.and_eq_true] at h
      rw [Binding.eq_of_identical h.1, ih h.2]

end ComponentFlow
