/-
  ComponentFlow.Proofs.Estimating — what generalised advantage estimation computes. Its steps are kernels on
  sequences, so they come to one recursion from the last step backwards: an advantage is the error of its step
  and, unless an episode or a fragment ends there, the discounted advantage of the next step
  (`Advantage.backward_recursion`). Nothing before a step and nothing behind the first end counts, but for
  the value right behind that end, which is multiplied away and not left out.
-/
import ComponentFlow.Layers.Advantage
import ComponentFlow.Proofs.Construction
import ComponentFlow.Proofs.Sequences
import ComponentFlow.Proofs.Answer

namespace ComponentFlow.Layers.Advantage

open Kernel (sumFrom)
open Tensor (series)

/-- What is known of `n` steps, in any element types. -/
structure Episodes (n : Nat) where
  values : Tensor
  rewards : Tensor
  terminals : Tensor
  ends : Tensor
  values_dims : values.shape.dims = [n]
  rewards_dims : rewards.shape.dims = [n]
  terminals_dims : terminals.shape.dims = [n]
  ends_dims : ends.shape.dims = [n]

namespace Episodes

variable {n : Nat} (s : Episodes n) (c : Config)

def inputs : List Value := [.tensor s.values, .tensor s.rewards, .tensor s.terminals, .tensor s.ends]

/-- Not zero where an episode or a fragment ends. -/
def boundary (t : Nat) : Float32 := Scalar.maximum (s.terminals.step t) (s.ends.step t)

/-- The value that is expected behind step `t`. -/
def next (t : Nat) : Float32 :=
  (if t + 1 < n then s.values.step (t + 1) else 0) * (1 - s.boundary t) +
    (s.values.step t * s.ends.step t) * (1 - s.terminals.step t)

/-- How far the value of step `t` is off. -/
def error (t : Nat) : Float32 := (s.rewards.step t + s.next t * c.discount) - s.values.step t

/-- The error of each step and what follows of those behind it. -/
def advantages : Tensor :=
  .series n fun t => sumFrom (c.discount * c.lambda) (s.error c) s.boundary (n - t) t

/-- The same at step `u`. -/
structure SameAt (s s' : Episodes n) (u : Nat) : Prop where
  values : s.values.step u = s'.values.step u
  rewards : s.rewards.step u = s'.rewards.step u
  terminals : s.terminals.step u = s'.terminals.step u
  ends : s.ends.step u = s'.ends.step u

/-- The same from step `t` to the first end, and in the value right behind it. -/
def AgreeFrom (s s' : Episodes n) (t : Nat) : Prop := ∀ u, t ≤ u → u < n →
  (∀ w, t ≤ w → w < u → (s.boundary w == 0) = true) →
    s.SameAt s' u ∧ (u + 1 < n → s.values.step (u + 1) = s'.values.step (u + 1))

/-- The recursion, from the last step backwards. -/
theorem advantages_step {t : Nat} (ht : t < n) : (s.advantages c).step t = s.error c t + (c.discount * c.lambda) *
    (if t + 1 < n ∧ (s.boundary t == 0) = true then (s.advantages c).step (t + 1) else 0) := by
  have hlater : (if t + 1 < n ∧ (s.boundary t == 0) = true then (s.advantages c).step (t + 1) else 0) =
      if t + 1 < n ∧ (s.boundary t == 0) = true then
        sumFrom (c.discount * c.lambda) (s.error c) s.boundary (n - (t + 1)) (t + 1) else 0 :=
    ite_congr rfl (fun hnext => Tensor.step_series hnext.1) fun _ => rfl
  rw [hlater, advantages, Tensor.step_series ht]
  exact Kernel.sumFrom_step _ _ _ ht

theorem SameAt.boundary {s s' : Episodes n} {u : Nat} (h : s.SameAt s' u) : s.boundary u = s'.boundary u := by
  simp only [Episodes.boundary, h.terminals, h.ends]

theorem SameAt.error {s s' : Episodes n} {u : Nat} (h : s.SameAt s' u)
    (hnext : u + 1 < n → s.values.step (u + 1) = s'.values.step (u + 1)) : s.error c u = s'.error c u := by
  have hbehind : (if u + 1 < n then s.values.step (u + 1) else 0) = if u + 1 < n then s'.values.step (u + 1) else 0 :=
    ite_congr rfl hnext fun _ => rfl
  simp only [Episodes.error, Episodes.next, hbehind, h.boundary, h.values, h.rewards, h.terminals, h.ends]

theorem AgreeFrom.advantages {s s' : Episodes n} {t : Nat} (h : s.AgreeFrom s' t) (ht : t < n) :
    (s.advantages c).step t = (s'.advantages c).step t := by
  rw [Episodes.advantages, Episodes.advantages, Tensor.step_series ht, Tensor.step_series ht]
  refine Kernel.sumFrom_congr fun u hle hlt hopen => ?_
  obtain ⟨hsame, hnext⟩ := h u hle (by omega) hopen
  exact ⟨hsame.error c hnext, hsame.boundary⟩

end Episodes

/-! ## Bodies -/

section Bodies

variable {site : Site Tally} {n : Nat}

/-- The steps in order, each on sequences. -/
theorem run_body (hsite : site.Settled) (h : site.handler = .immediate .reference) (c : Config) (s : Episodes n) :
    ((body c).run site s.inputs).outcome = .ok [.tensor (s.advantages c)] := by
  have hcast : ∀ {x : Tensor}, x.shape.dims = [n] →
      (site.handler.apply (.cast .f32) [.tensor x]).outcome = .ok (.tensor (series n x.step)) :=
    fun hx => (Site.applied h rfl (Kernel.execute_cast_series hx) :)
  have hbinary : ∀ (op : BinaryOp) (f g : Nat → Float32),
      (site.handler.apply (.binary op) [.tensor (series n f), .tensor (series n g)]).outcome =
        .ok (.tensor (series n fun t => op.apply (f t) (g t))) :=
    fun op f g => (Site.applied h rfl (Kernel.execute_binary_series op) :)
  have hleft : ∀ (op : BinaryOp) (x : Float32) (f : Nat → Float32),
      (site.handler.apply (.binary op) [.tensor (.scalar x), .tensor (series n f)]).outcome =
        .ok (.tensor (series n fun t => op.apply x (f t))) :=
    fun op x f => (Site.applied h rfl (Kernel.execute_binary_left op x) :)
  have hright : ∀ (op : BinaryOp) (f : Nat → Float32) (x : Float32),
      (site.handler.apply (.binary op) [.tensor (series n f), .tensor (.scalar x)]).outcome =
        .ok (.tensor (series n fun t => op.apply (f t) x)) :=
    fun op f x => (Site.applied h rfl (Kernel.execute_binary_right op x) :)
  have hshift : ∀ (fill : Float32) (f : Nat → Float32),
      (site.handler.apply (.shiftLeft fill) [.tensor (series n f)]).outcome =
        .ok (.tensor (series n fun t => if t + 1 < n then f (t + 1) else fill)) :=
    fun fill f => (Site.applied h rfl (Kernel.execute_shiftLeft fill) :)
  have hsum : ∀ (discount : Float32) (f g : Nat → Float32),
      (site.handler.apply (.discountedSum discount) [.tensor (series n f), .tensor (series n g)]).outcome =
        .ok (.tensor (series n fun t => sumFrom discount f g (n - t) t)) :=
    fun discount f g => (Site.applied h rfl (Kernel.execute_discountedSum discount) :)
  have hstop : ∀ f : Nat → Float32, (site.handler.apply .stopGradient [.tensor (series n f)]).outcome =
      .ok (.tensor (series n f)) :=
    fun f => (Site.applied h rfl Kernel.execute_stopGradient :)
  refine (Body.outcome_run _ _).trans ?_
  simp only [Episodes.inputs, Body.outcome_runSteps hsite, Body.outcome_runSteps_nil, Step.apply,
    Body.outcome_perform_apply, List.mapM_cons, List.mapM_nil, Frame.resolve, Frame.orBadReference, Ref.scalar,
    List.nil_append, List.cons_append, List.getElem?_cons_zero, List.getElem?_cons_succ, Outcome.ok_bind,
    Outputs.first_cons, pure_bind, hcast s.values_dims, hcast s.rewards_dims, hcast s.terminals_dims,
    hcast s.ends_dims, hbinary, hleft, hright, hshift, hsum, hstop]
  rfl

end Bodies

/-! ## Calls -/

theorem ofConfig_ok {c : Config} {component : Component} (h : ofConfig c = .ok component) :
    component = { kind, config := c.toJson, methods := [method c] } := by
  unfold ofConfig at h
  split at h
  · cases h
  · exact (Except.ok.inj h).symm

/-- With accepted factors, wherever the component stands in a graph on the reference kernels that can be built, the
    call succeeds for any number of steps and gives a sequence that satisfies the recursion. Advantages depend on what
    is known from their step to the first end of an episode or a fragment and on the value right behind that end. -/
theorem backward_recursion {c : Config} {component : Component} (hc : ofConfig c = .ok component) {title : String}
    {g : Graph} {id : NodeId} (h : g.Hosts .reference id (.leaf title component)) (hbuildable : g.Buildable)
    (hunder : g.tree.Under id Tree.root) (n : Nat) : ∃ advantages : Episodes n → Tensor,
      (∀ s, ((Graph.call id calcAdvantages s.inputs).runOn g).1 = .ok ⟨["advantages"], [.tensor (advantages s)]⟩ ∧
        (advantages s).dtype = .f32 ∧ (advantages s).shape = ⟨[n]⟩ ∧
        ∀ t < n, (advantages s).step t = s.error c t + (c.discount * c.lambda) *
          (if t + 1 < n ∧ (s.boundary t == 0) = true then (advantages s).step (t + 1) else 0)) ∧
      ∀ s s' t, t < n → s.AgreeFrom s' t → (advantages s).step t = (advantages s').step t := by
  have hm : component.method? calcAdvantages = some (method c) := ofConfig_ok hc ▸ rfl
  refine ⟨fun s => s.advantages c, fun s => ⟨?_, rfl, rfl, fun t ht => s.advantages_step c ht⟩,
    fun s s' t ht hagree => hagree.advantages c ht⟩
  have hspec : s.rewards.spec.withDType .f32 = (s.advantages c).spec := by
    simp only [TensorSpec.withDType, Tensor.spec, TensorSpec.ofShape, s.rewards_dims]
    rfl
  refine h.call_of_run hbuildable hunder hm ?_ (fun _ => rfl)
    (fun site hsite hhandler => run_body hsite hhandler c s) ?_
  · simp [Episodes.inputs, Graph.isRecorded]
  · refine .cons ⟨_, rfl, ?_⟩ .nil
    show Meets (some (s.rewards.spec.withDType .f32)) (some (s.advantages c).spec)
    rw [hspec]
    exact .present (TensorSpec.compatible_refl _)

/-- Three steps, of which the second ends an episode. -/
def episode (last : Float32) : Episodes 3 where
  values := .ones ⟨[3]⟩
  rewards := .series 3 fun t => if t = 2 then last else 1
  terminals := ⟨.bool, ⟨[3]⟩, #[0, 1, 0], rfl⟩
  ends := .zeros ⟨[3]⟩
  values_dims := rfl
  rewards_dims := rfl
  terminals_dims := rfl
  ends_dims := rfl

/-- What the last step brings does not matter to the episode before it. -/
theorem episode_apart : ∃ component t a a', ofConfig {} = .ok component ∧
    Tree.ofAssembly (.leaf "gae" component) = .ok t ∧
    ((Graph.call Tree.root calcAdvantages (episode 0).inputs).runOn (.fresh 0 t ⟨.immediate, .reference⟩)).1 =
      .ok ⟨["advantages"], [.tensor a]⟩ ∧
    ((Graph.call Tree.root calcAdvantages (episode 5).inputs).runOn (.fresh 0 t ⟨.immediate, .reference⟩)).1 =
      .ok ⟨["advantages"], [.tensor a']⟩ ∧
    a.shape = ⟨[3]⟩ ∧ a.step 0 = a'.step 0 := by
  obtain ⟨component, hc⟩ := Option.isSome_iff_exists.mp (show (ofConfig {}).toOption.isSome = true by decide +kernel)
  replace hc := Outcome.toOption_ok.mp hc
  have hsound : (Assembly.leaf "gae" component).Sound := Assembly.sound_leaf (by decide) (ofConfig_solitary hc)
  obtain ⟨t, ht, hhosts, hbuildable⟩ := Graph.exists_host hsound .reference 0
  have hagree : (episode 0).AgreeFrom (episode 5) 0 := by
    intro u _ hu hopen
    have hend : ¬ ((episode 0).boundary 1 == 0) = true := by decide +kernel
    have hfirst : u ≠ 2 := by
      rintro rfl
      exact hend (hopen 1 (by decide) (by decide))
    have hrewards : (episode 0).rewards.step u = (episode 5).rewards.step u := by
      simp only [episode, Tensor.step_series hu, if_neg hfirst]
    exact ⟨⟨rfl, hrewards, rfl, rfl⟩, fun _ => rfl⟩
  obtain ⟨advantages, hcalls, hagrees⟩ := backward_recursion hc hhosts hbuildable .refl 3
  exact ⟨component, t, _, _, hc, ht, (hcalls (episode 0)).1, (hcalls (episode 5)).1, (hcalls (episode 0)).2.2.1,
    hagrees _ _ 0 (by decide) hagree⟩

end ComponentFlow.Layers.Advantage
