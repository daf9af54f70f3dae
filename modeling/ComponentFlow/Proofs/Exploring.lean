/-
  ComponentFlow.Proofs.Exploring — which actions exploration replaces, and by what. The body works on scalars
  up to the probability and on whole tensors from the draws on, so what it comes to is one rule that is applied
  in each place (`Schedule.replaced`). The probability in the body is that of the schedule, whose factors stand
  in the other order (`Exploration.follows_schedule`).
-/
import ComponentFlow.Layers.Exploration
import ComponentFlow.Proofs.Construction
import ComponentFlow.Proofs.Pointwise
import ComponentFlow.Proofs.Answer
import ComponentFlow.Proofs.Whole

namespace ComponentFlow

/-! ## Conditions -/

namespace Scalar

theorem ofBool_ne_zero (b : Bool) : (ofBool b != 0) = b := by cases b <;> decide +kernel

theorem choose_ofBool (b : Bool) (x y : Float32) : choose (ofBool b) x y = if b = true then x else y := by
  rw [choose, ofBool_ne_zero]

theorem coerce_ofBool (b : Bool) : DType.bool.coerce (ofBool b) = ofBool b :=
  congrArg ofBool (ofBool_ne_zero b)

end Scalar

/-! ## The rule for one element -/

namespace Schedule

open Layers.Exploration (actionStream)

variable (s : Schedule)

/-- The sample that a generator with this seed draws for place `i` at a time step. It gets the step as a payload
    value. -/
def sample (seed : UInt64) (step i : Nat) : Float32 :=
  Random.uniform seed (UInt64.ofInt (Scalar.toInt64 (Scalar.ofNat step))) i.toUInt64

/-- The action in place `i` at a time step, where `action` was chosen. -/
def replaced (explore : Bool) (step i : Nat) (action : Float32) : Float32 :=
  if explore = true ∧ sample s.seed step i < s.probability step then
    Scalar.trunc (sample (s.seed ^^^ actionStream) step i * Scalar.ofNat s.numActions)
  else action

end Schedule

namespace Layers.Exploration

open Scalar (ofBool)
open Tensor (tabulated)
open Kernel (reads_scalarOf reads_tabulated)

variable {s : Schedule} {shape : Shape} {f g : Nat → Float32} {chosen : Nat → Bool}

/-! ## Kernels -/

theorem execute_scalars (op : BinaryOp) (x y : Float32) :
    Kernel.execute (.binary op) [.scalarOf .f32 x, .scalarOf .f32 y] = .ok (.scalarOf .f32 (op.apply x y)) := by
  rw [Kernel.execute_binary op (reads_scalarOf .f32 x .scalar) (reads_scalarOf .f32 y .scalar) (.inl rfl) rfl,
    Tensor.tabulated_scalar]
  rfl

theorem execute_less (x : Float32) : Kernel.execute (.compare .less) [tabulated .f32 shape f, .scalarOf .f32 x] =
    .ok (tabulated .bool shape fun i => ofBool (f i < x)) := by
  rw [Kernel.execute_compare .less (reads_tabulated (f := f)) (reads_scalarOf .f32 x shape) (.inl rfl) rfl]
  simp only [CompareOp.apply, Scalar.coerce_ofBool]

theorem execute_scale (x : Float32) : Kernel.execute (.binary .mul) [tabulated .f32 shape f, .scalarOf .f32 x] =
    .ok (tabulated .f32 shape fun i => f i * x) :=
  Kernel.execute_binary .mul (reads_tabulated (f := f)) (reads_scalarOf .f32 x shape) (.inl rfl) rfl

/-- Nothing is chosen unless the flag is set. -/
theorem execute_gate (flag : Bool) : Kernel.execute .select [.scalarOf .bool (ofBool flag),
    tabulated .bool shape fun i => ofBool (chosen i), .scalarOf .bool (ofBool false)] =
      .ok (tabulated .bool shape fun i => ofBool (flag && chosen i)) := by
  have hgate : ∀ i, DType.bool.coerce (Scalar.choose (ofBool flag) (ofBool (chosen i)) (ofBool false)) =
      ofBool (flag && chosen i) := by
    intro i
    rw [Scalar.choose_ofBool]
    cases flag with
    | true => exact Scalar.coerce_ofBool (chosen i)
    | false => exact Scalar.coerce_ofBool false
  rw [Kernel.execute_select (reads_scalarOf .bool (ofBool flag) shape)
    (reads_tabulated (f := fun i => ofBool (chosen i))) (reads_scalarOf .bool (ofBool false) shape) rfl rfl rfl]
  exact congrArg Except.ok (Tensor.tabulated_congr fun i _ => hgate i)

theorem execute_choice : Kernel.execute .select [tabulated .bool shape fun i => ofBool (chosen i),
    tabulated .i32 shape f, tabulated .i32 shape g] =
      .ok (tabulated .i32 shape fun i => Scalar.trunc (if chosen i = true then f i else g i)) := by
  rw [Kernel.execute_select (reads_tabulated (f := fun i => ofBool (chosen i))) (reads_tabulated (f := f))
    (reads_tabulated (f := g)) rfl rfl rfl]
  simp only [Scalar.choose_ofBool]
  rfl

/-! ## Bodies -/

section Bodies

variable {site : Site Tally}

/-- The body multiplies the range of probabilities by the progress, the schedule the other way around. -/
theorem probability_eq (s : Schedule) (step : Nat) :
    s.first - Scalar.minimum (Scalar.ofNat step / s.decay) 1 * (s.first - s.last) = s.probability step := by
  rw [Scalar.mul_comm]
  rfl

/-- The steps in order: the first five on scalars, the others on tensors with the shape of the actions. -/
theorem run_body (hsite : site.Settled) (h : site.handler = .immediate .reference) (s : Schedule) (explore : Bool)
    (step : Nat) (hwhole : ∀ i < shape.count, Scalar.trunc (g i) = g i) :
    ((body s).run site [.tensor (tabulated .i32 shape g), .tensor (.scalarInt step),
      .tensor (.scalarBool explore)]).outcome =
        .ok [.tensor (tabulated .i32 shape fun i => s.replaced explore step i (g i))] := by
  have hstep : (site.handler.apply (.cast .f32) [.tensor (.scalarInt step)]).outcome =
      .ok (.tensor (.scalar (Scalar.ofNat step))) := by
    rw [← Scalar.ofInt_natCast]
    exact Site.applied h rfl (Kernel.execute_cast .f32 (.scalarInt step))
  have hscalars : ∀ (op : BinaryOp) (x y : Float32),
      (site.handler.apply (.binary op) [.tensor (.scalar x), .tensor (.scalar y)]).outcome =
        .ok (.tensor (.scalar (op.apply x y))) :=
    fun op x y => (Site.applied h rfl (execute_scalars op x y) :)
  have hdraw : ∀ seed, (site.handler.apply (.randomUniform seed)
      [.tensor (.scalarInt step), .tensor (tabulated .i32 shape g)]).outcome =
        .ok (.tensor (tabulated .f32 shape (Schedule.sample seed step))) := by
    intro seed
    have hrun := Kernel.execute_randomUniform seed .i32 (Scalar.ofInt step) (tabulated .i32 shape g)
    rw [Scalar.ofInt_natCast] at hrun
    exact Site.applied h rfl hrun
  have hless : ∀ (f : Nat → Float32) (x : Float32),
      (site.handler.apply (.compare .less) [.tensor (tabulated .f32 shape f), .tensor (.scalar x)]).outcome =
        .ok (.tensor (tabulated .bool shape fun i => ofBool (f i < x))) :=
    fun f x => (Site.applied h rfl (execute_less x) :)
  have hgate : ∀ chosen : Nat → Bool, (site.handler.apply .select [.tensor (.scalarBool explore),
      .tensor (tabulated .bool shape fun i => ofBool (chosen i)), .tensor (.scalarBool false)]).outcome =
        .ok (.tensor (tabulated .bool shape fun i => ofBool (explore && chosen i))) :=
    fun chosen => (Site.applied h rfl (execute_gate explore) :)
  have hscale : ∀ (f : Nat → Float32) (x : Float32),
      (site.handler.apply (.binary .mul) [.tensor (tabulated .f32 shape f), .tensor (.scalar x)]).outcome =
        .ok (.tensor (tabulated .f32 shape fun i => f i * x)) :=
    fun f x => (Site.applied h rfl (execute_scale x) :)
  have hdrop : ∀ f : Nat → Float32, (site.handler.apply (.cast .i32) [.tensor (tabulated .f32 shape f)]).outcome =
      .ok (.tensor (tabulated .i32 shape fun i => Scalar.trunc (f i))) :=
    fun f => (Site.applied h rfl (Kernel.execute_cast_tabulated (f := f) .i32) :)
  have hchoice : ∀ (chosen : Nat → Bool) (f : Nat → Float32),
      (site.handler.apply .select [.tensor (tabulated .bool shape fun i => ofBool (chosen i)),
        .tensor (tabulated .i32 shape f), .tensor (tabulated .i32 shape g)]).outcome =
          .ok (.tensor (tabulated .i32 shape fun i => Scalar.trunc (if chosen i = true then f i else g i))) :=
    fun chosen f => (Site.applied h rfl execute_choice :)
  have htype : Body.dtypeOf (.tensor (tabulated .i32 shape g)) = .i32 := rfl
  refine (Body.outcome_run _ _).trans ?_
  simp only [Body.outcome_runSteps hsite, Body.outcome_runSteps_nil, Step.apply,
    Body.outcome_perform_apply, Body.outcome_perform_castLike, htype, List.mapM_cons, List.mapM_nil, Frame.resolve,
    Frame.orBadReference, Ref.scalar, List.nil_append, List.cons_append, List.getElem?_cons_zero,
    List.getElem?_cons_succ, Outcome.ok_bind, Outputs.first_cons, pure_bind, hstep, hscalars, hdraw, hless, hgate,
    hscale, hdrop, hchoice]
  refine congrArg (fun t => Except.ok [Value.tensor t]) (Tensor.tabulated_congr fun i hi => ?_)
  show Scalar.trunc (if (explore && decide (Schedule.sample s.seed step i <
    s.first - Scalar.minimum (Scalar.ofNat step / s.decay) 1 * (s.first - s.last))) = true then _ else _) = _
  rw [probability_eq, Schedule.replaced]
  simp only [Bool.and_eq_true, decide_eq_true_eq]
  split
  · exact Scalar.trunc_trunc _
  · exact hwhole i hi

end Bodies

/-! ## Calls -/

theorem ofSchedule_ok {component : Component} (h : ofSchedule s = .ok component) :
    component = { kind, config := s.toJson, methods := [method s], detail := .exploration s } := by
  unfold ofSchedule at h
  split at h
  · cases h
  · split at h
    · cases h
    · exact (Except.ok.inj h).symm

/-- With an accepted schedule, wherever the component stands in a graph on the reference kernels that can be built, the
    call succeeds on integer actions of any shape. In each place it gives what the schedule makes of the action there,
    and without exploration the actions as they are. Among no actions at all no stride is ever used, so that the other
    extents may be large; only arithmetic that is checked stops where these do not fit into machine words. -/
theorem follows_schedule {component : Component} (hs : ofSchedule s = .ok component) {title : String} {g : Graph}
    {id : NodeId} (h : g.Hosts .reference id (.leaf title component)) (hbuildable : g.Buildable)
    (hunder : g.tree.Under id Tree.root) (explore : Bool) (step : Nat) {a : Tensor} (hdtype : a.dtype = .i32)
    (hwhole : ∀ x ∈ a.data, Scalar.trunc x = x) : ∃ r,
      ((Graph.call id getAction [.tensor a, .tensor (.scalarInt step), .tensor (.scalarBool explore)]).runOn g).1 =
        .ok ⟨["action"], [.tensor r]⟩ ∧
      r.spec = a.spec ∧ (∀ i : Nat, r.data[i]? = a.data[i]?.map (s.replaced explore step i)) ∧
      (explore = false → r = a) := by
  obtain ⟨shape, f, rfl⟩ : ∃ shape f, a = tabulated .i32 shape f := ⟨a.shape, _, hdtype ▸ a.eq_tabulated⟩
  have hplaces : ∀ i < shape.count, Scalar.trunc (f i) = f i := by simpa [tabulated] using hwhole
  have hm : component.method? getAction = some (method s) := ofSchedule_ok hs ▸ rfl
  refine ⟨tabulated .i32 shape fun i => s.replaced explore step i (f i), ?_, rfl, fun i => ?_, ?_⟩
  · refine h.call_of_run hbuildable hunder hm ?_ (fun _ => rfl)
      (fun site hsite hhandler => run_body hsite hhandler s explore step hplaces) ?_
    · simp [Graph.isRecorded]
    · exact .cons ⟨_, rfl, .present (TensorSpec.compatible_refl _)⟩ .nil
  · by_cases hi : i < shape.count
    · rw [Tensor.getElem?_tabulated hi, Tensor.getElem?_tabulated hi]
      rfl
    · simp [tabulated, hi]
  · rintro rfl
    exact Tensor.tabulated_congr fun i _ => if_neg fun h => Bool.false_ne_true h.1

/-- Three actions, of which a random one is taken half of the time at step 5. -/
def halfway : Schedule := ⟨3, 1, 0, 10, 5⟩

def pair : Tensor := ⟨.i32, ⟨[2]⟩, #[2, 2], rfl⟩

/-- Of two actions the first stays and the second is replaced. -/
theorem halfway_follows : ∃ component t r, ofSchedule halfway = .ok component ∧
    Tree.ofAssembly (.leaf kind component) = .ok t ∧
    ((Graph.call Tree.root getAction [.tensor pair, .tensor (.scalarInt (5 : Nat)), .tensor (.scalarBool true)]).runOn
      (.fresh 0 t ⟨.immediate, .reference⟩)).1 = .ok ⟨["action"], [.tensor r]⟩ ∧
    r.data[0]? = some 2 ∧ r.data[1]? = some 1 := by
  obtain ⟨component, hs⟩ :=
    Option.isSome_iff_exists.mp (show (ofSchedule halfway).toOption.isSome = true by decide +kernel)
  replace hs := Outcome.toOption_ok.mp hs
  have hsound : (Assembly.leaf kind component).Sound := Assembly.sound_leaf (by decide) (ofSchedule_solitary hs)
  obtain ⟨t, ht, hhosts, hbuildable⟩ := Graph.exists_host hsound .reference 0
  have hwhole : ∀ x ∈ pair.data, Scalar.trunc x = x := by
    have htwo : Scalar.trunc 2 = 2 := by decide +kernel
    simp [pair, htwo]
  have hkept : halfway.replaced true 5 0 2 = 2 := by decide +kernel
  have hreplaced : halfway.replaced true 5 1 2 = 1 := by decide +kernel
  obtain ⟨r, hcall, -, hdata, -⟩ := follows_schedule hs hhosts hbuildable .refl true 5 rfl hwhole
  exact ⟨component, t, r, hs, ht, hcall, (hdata 0).trans (congrArg some hkept),
    (hdata 1).trans (congrArg some hreplaced)⟩

end Layers.Exploration

end ComponentFlow
