/-
  ComponentFlow.Proofs.Answer — what a call that runs at once comes to. Kernels are counted, but no result
  depends on what was counted before; so a body comes to what its steps come to, one after the other, and a
  call to what the body comes to on completed inputs, once it is held against the contract
  (`Tree.answer_succ`). A call of a graph is such a call behind the checks of its place, of the build before
  it and of its inputs (`Graph.call_answer`).

  - `Effect.Settled`: an operation that fares the same from every state.
  - `Tree.answer_mono`: a call that succeeds does so however much deeper calls may nest.
  - `Graph.Hosts`: a graph on the reference kernels, with an assembly at and below a node.
-/
import ComponentFlow.Proofs.Connection
import ComponentFlow.Proofs.Deferral
import ComponentFlow.Proofs.Lifecycle
import ComponentFlow.Proofs.Reference

namespace ComponentFlow

/-! ## Operations that fare the same from every state -/

namespace Effect

variable {σ α β : Type} {x : Effect Tally α} {f : α → Effect Tally β}

/-- Fares the same from every state. -/
def Settled (op : Effect σ α) : Prop := op.Alike op

/-- What an operation comes to where nothing was counted. -/
def outcome (op : Effect Tally α) : Outcome α := (op.runOn []).1

theorem settled_pure (a : α) : Settled (pure a : Effect σ α) := fun _ _ => rfl
theorem settled_throw (e : GraphError) : Settled (throw e : Effect σ α) := fun _ _ => rfl
theorem settled_ofOutcome (r : Outcome α) : Settled (ofOutcome r : Effect σ α) := fun _ _ => rfl

@[simp] theorem outcome_pure (a : α) : (pure a : Effect Tally α).outcome = .ok a := rfl
@[simp] theorem outcome_throw (e : GraphError) : (throw e : Effect Tally α).outcome = .error e := rfl
@[simp] theorem outcome_ofOutcome (r : Outcome α) : (ofOutcome r : Effect Tally α).outcome = r := rfl

theorem Settled.outcome (h : x.Settled) (tally : Tally) : (x.runOn tally).1 = x.outcome := h tally []

theorem Settled.bind {x : Effect σ α} {f : α → Effect σ β} (hx : x.Settled) (hf : ∀ a, (f a).Settled) :
    (x >>= f).Settled := Alike.bind hx hf

theorem outcome_bind (hf : ∀ a, (f a).Settled) : (x >>= f).outcome = x.outcome >>= fun a => (f a).outcome := by
  unfold Effect.outcome
  rw [runOn_bind]
  rcases x.runOn [] with ⟨e | a, tally⟩
  · rfl
  · exact hf a tally []

end Effect

/-! ## Evaluating -/

theorem Handler.settled_immediate (k : Kernels) (p : Primitive) (vs : List Value) :
    ((Handler.immediate k).apply p vs).Settled := by
  refine (Effect.settled_ofOutcome _).bind fun ts => (Effect.settled_ofOutcome _).bind fun spec => ?_
  exact Effect.Settled.bind (Kernels.evaluate_alike rfl p spec ts) fun _ => Effect.settled_pure _

/-- The reference kernels give what inference says, so an evaluation succeeds exactly if they do. -/
theorem Handler.reference_ok {p : Primitive} (hp : p.bounded = true) {vs : List Value} {v : Value} :
    ((Handler.immediate .reference).apply p vs).outcome = .ok v ↔
      ∃ ts t, vs = ts.map .tensor ∧ Kernel.execute p ts = .ok t ∧ v = .tensor t := by
  unfold Effect.outcome
  rw [Effect.ok_iff]
  simp only [Handler.immediate_ok]
  constructor
  · rintro ⟨_, ts, spec, t, hvs, -, hexecute, -, hv, -⟩
    exact ⟨ts, t, hvs, hexecute, hv⟩
  · rintro ⟨ts, t, hvs, hexecute, hv⟩
    exact ⟨_, ts, t.spec, t, hvs, Kernel.infer_of_execute hp hexecute, hexecute, TensorSpec.admits_self t, hv, rfl⟩

theorem Handler.reference_applied {p : Primitive} (hp : p.bounded = true) {ts : List Tensor} {t : Tensor}
    (h : Kernel.execute p ts = .ok t) :
    ((Handler.immediate .reference).apply p (ts.map .tensor)).outcome = .ok (.tensor t) :=
  (reference_ok hp).mpr ⟨ts, t, rfl, h, rfl⟩

/-- An evaluation of operands that inference takes comes to what the kernels give, if that has the inferred spec. -/
theorem Handler.immediate_gives {k : Kernels} {p : Primitive} {ts : List Tensor} {t : Tensor}
    (hinfer : p.infer (ts.map Tensor.spec) = .ok t.spec) (h : k.execute p ts = .ok t) :
    ((Handler.immediate k).apply p (ts.map .tensor)).outcome = .ok (.tensor t) :=
  Effect.ok_iff.mpr
    ⟨_, Handler.immediate_ok.mpr ⟨ts, t.spec, t, rfl, hinfer, h, TensorSpec.admits_self t, rfl, rfl⟩⟩

theorem Handler.immediate_fails {k : Kernels} {p : Primitive} {ts : List Tensor} {spec : TensorSpec} {e : KernelError}
    (hinfer : p.infer (ts.map Tensor.spec) = .ok spec) (h : k.execute p ts = .error e) :
    ((Handler.immediate k).apply p (ts.map .tensor)).outcome = .error (.ofKernel e) := by
  have hoperands : (ts.map Value.tensor).mapM (operand p) = .ok ts := operands_ok.mpr rfl
  simp [Handler.immediate, Kernels.evaluate, Effect.outcome, Effect.runOn_bind, hoperands, hinfer, h,
    Outcome.ofShape, Outcome.ofKernel, Except.mapError]

/-- Where a body runs on the reference kernels, it gets what these compute. -/
theorem Site.applied {site : Site Tally} (h : site.handler = .immediate .reference) {p : Primitive}
    (hp : p.bounded = true) {ts : List Tensor} {t : Tensor} (ht : Kernel.execute p ts = .ok t) :
    (site.handler.apply p (ts.map .tensor)).outcome = .ok (.tensor t) :=
  h ▸ Handler.reference_applied hp ht

/-! ## Bodies -/

@[simp] theorem Outputs.first_cons (names : List String) (v : Value) (vs : List Value) :
    (⟨names, v :: vs⟩ : Outputs).first = .ok v := rfl

/-- The handler and the calls of children fare the same from every state. -/
structure Site.Settled {σ : Type} (site : Site σ) : Prop where
  apply : ∀ p vs, (site.handler.apply p vs).Settled
  call : ∀ child method vs, (site.call child method vs).Settled

namespace Body

section Settled

variable {σ : Type} {site : Site σ} (h : site.Settled)
include h

theorem settled_perform (op : Operation) (vs : List Value) : (perform site op vs).Settled := by
  unfold perform
  split
  · exact (h.apply _ _).bind fun _ => Effect.settled_pure _
  · split
    · exact (h.apply _ _).bind fun _ => Effect.settled_pure _
    · exact Effect.settled_throw _
  · exact h.call _ _ _
  · exact Effect.settled_throw _

theorem settled_runSteps (ins : List Value) (results : List Outputs) (steps : List Step) :
    (runSteps site ins results steps).Settled := by
  induction steps generalizing results with
  | nil => exact Effect.settled_pure _
  | cons s rest ih =>
    exact (Effect.settled_ofOutcome _).bind fun args => (settled_perform h _ _).bind fun out => ih _

theorem settled_runFrom (ins : List Value) (results : List Outputs) (b : Body) :
    (runFrom site ins results b).Settled := by
  induction b generalizing results with
  | straight steps returns => exact (settled_runSteps h _ _ _).bind fun _ => Effect.settled_ofOutcome _
  | branch steps on absent present ihAbsent ihPresent =>
    refine (settled_runSteps h _ _ _).bind fun results => (Effect.settled_ofOutcome _).bind fun v => ?_
    split
    · exact ihAbsent results
    · exact ihPresent results

theorem settled_run (b : Body) (ins : List Value) : (b.run site ins).Settled := settled_runFrom h ins [] b

end Settled

variable {site : Site Tally} {ins : List Value} {results : List Outputs}

theorem outcome_perform_apply {p : Primitive} {args : List Value} : (perform site (.apply p) args).outcome =
    (do let v ← (site.handler.apply p args).outcome; return ⟨[], [v]⟩) :=
  Effect.outcome_bind fun _ => Effect.settled_pure _

theorem outcome_perform_castLike {v like : Value} : (perform site .castLike [v, like]).outcome =
    (do let w ← (site.handler.apply (.cast (dtypeOf like)) [v]).outcome; return ⟨[], [w]⟩) :=
  Effect.outcome_bind fun _ => Effect.settled_pure _

theorem perform_call {child method : String} {args : List Value} :
    perform site (.call child method) args = site.call child method args := rfl

theorem outcome_runSteps_nil : (runSteps site ins results []).outcome = .ok results := rfl

theorem outcome_runFrom_straight (steps : List Step) (returns : List Ref) :
    (runFrom site ins results (.straight steps returns)).outcome = (do
      let results ← (runSteps site ins results steps).outcome
      returns.mapM (Frame.resolve ⟨ins, results⟩)) :=
  Effect.outcome_bind fun _ => Effect.settled_ofOutcome _

theorem outcome_run (steps : List Step) (returns : List Ref) : ((Body.straight steps returns).run site ins).outcome =
    (do let results ← (runSteps site ins [] steps).outcome; returns.mapM (Frame.resolve ⟨ins, results⟩)) :=
  outcome_runFrom_straight steps returns

variable (h : site.Settled)
include h

theorem outcome_runFrom_branch (steps : List Step) (on : Ref) (absent present : Body) :
    (runFrom site ins results (.branch steps on absent present)).outcome = (do
      let results ← (runSteps site ins results steps).outcome
      let v ← Frame.resolve ⟨ins, results⟩ on
      (runFrom site ins results (if v.isAbsent then absent else present)).outcome) := by
  have hway : ∀ results (v : Value), (if v.isAbsent then runFrom site ins results absent
      else runFrom site ins results present) = runFrom site ins results (if v.isAbsent then absent else present) :=
    fun results v => (apply_ite (runFrom site ins results) _ _ _).symm
  simp only [runFrom, hway]
  have hlater : ∀ results (v : Value),
      (runFrom site ins results (if v.isAbsent then absent else present)).Settled :=
    fun results v => settled_runFrom h ins results _
  rw [Effect.outcome_bind fun results => (Effect.settled_ofOutcome _).bind (hlater results)]
  exact congrArg _ (funext fun results => Effect.outcome_bind (hlater results))

omit h in
/-- A mask that is left out is not applied, and its output is left out as well. -/
example (x : Value) : ((Body.branch [] (.input 1) (.straight [] [.input 0, .absent])
    (.straight [.apply (.binary .mul) [.input 0, .input 1]] [.first 0, .absent])).run site [x, .absent]).outcome =
      .ok [x, .absent] := rfl

theorem outcome_runSteps (s : Step) (rest : List Step) : (runSteps site ins results (s :: rest)).outcome = (do
    let args ← s.args.mapM (Frame.resolve ⟨ins, results⟩)
    let out ← (perform site s.operation args).outcome
    (runSteps site ins (results ++ [out]) rest).outcome) := by
  have hlater : ∀ args,
      (perform site s.operation args >>= fun out => runSteps site ins (results ++ [out]) rest).Settled := fun args =>
    (settled_perform h _ _).bind fun out => settled_runSteps h _ _ _
  rw [runSteps, Effect.outcome_bind hlater]
  exact congrArg _ (funext fun args => Effect.outcome_bind fun out => settled_runSteps h _ _ _)

/-- A body comes to the same where children give the same. -/
theorem run_of_calls {site' : Site Tally} (h' : site'.Settled) (hhandler : site'.handler = site.handler)
    (hcalls : ∀ child method vs o, (site.call child method vs).outcome = .ok o →
      (site'.call child method vs).outcome = .ok o) {b : Body} {values : List Value}
    (hrun : (b.run site ins).outcome = .ok values) : (b.run site' ins).outcome = .ok values := by
  have hperform : ∀ op vs o, (perform site op vs).outcome = .ok o → (perform site' op vs).outcome = .ok o := by
    intro op vs o ho
    cases op with
    | apply | castLike =>
      simp only [perform, hhandler] at ho ⊢
      exact ho
    | fail text => cases ho
    | call child method => exact hcalls child method vs o ho
  have hsteps : ∀ steps results rs, (runSteps site ins results steps).outcome = .ok rs →
      (runSteps site' ins results steps).outcome = .ok rs := by
    intro steps
    induction steps with
    | nil => exact fun _ _ hrs => hrs
    | cons s rest ih =>
      intro results rs hrs
      rw [outcome_runSteps h] at hrs
      rw [outcome_runSteps h']
      obtain ⟨args, hargs, hrs⟩ := Outcome.bind_ok.mp hrs
      obtain ⟨out, hout, hrs⟩ := Outcome.bind_ok.mp hrs
      rw [hargs, Outcome.ok_bind, hperform _ _ _ hout, Outcome.ok_bind]
      exact ih _ _ hrs
  have hbody : ∀ (b : Body) results values, (runFrom site ins results b).outcome = .ok values →
      (runFrom site' ins results b).outcome = .ok values := by
    intro b
    induction b with
    | straight steps returns =>
      intro results values hvalues
      rw [outcome_runFrom_straight] at hvalues ⊢
      obtain ⟨rs, hrs, hreturns⟩ := Outcome.bind_ok.mp hvalues
      rw [hsteps _ _ _ hrs, Outcome.ok_bind, hreturns]
    | branch steps on absent present ihAbsent ihPresent =>
      intro results values hvalues
      rw [outcome_runFrom_branch h] at hvalues
      rw [outcome_runFrom_branch h']
      obtain ⟨rs, hrs, hvalues⟩ := Outcome.bind_ok.mp hvalues
      obtain ⟨v, hv, hvalues⟩ := Outcome.bind_ok.mp hvalues
      rw [hsteps _ _ _ hrs, Outcome.ok_bind, hv, Outcome.ok_bind]
      by_cases hway : v.isAbsent = true
      · rw [if_pos hway] at hvalues ⊢
        exact ihAbsent _ _ hvalues
      · rw [if_neg hway] at hvalues ⊢
        exact ihPresent _ _ hvalues
  exact hbody b [] values hrun

end Body

/-! ## Contracts -/

/-- A value meets the spec that a rule gives for these inputs. -/
def OutputRule.Kept (rule : OutputRule) (ins : List (Option TensorSpec)) (v : Value) : Prop :=
  ∃ s, rule.apply ins = .ok s ∧ Meets s v.spec?

namespace OutputRule

variable {ins : List (Option TensorSpec)} {v : Value}

theorem kept_fixed {s : TensorSpec} : (fixed s).Kept ins v ↔ Meets (some s) v.spec? := by simp [Kept, apply]

theorem kept_absent : absent.Kept ins v ↔ Meets none v.spec? := by simp [Kept, apply]

theorem kept_like {s : Option TensorSpec} : (likeInput 0).Kept (s :: ins) v ↔ Meets s v.spec? := by
  simp [Kept, apply, inputSpec]

end OutputRule

theorem meets_absent : Meets none Value.absent.spec? := .absent

theorem meets_present {s s' : TensorSpec} : Meets (some s) (some s') ↔ s.compatible s' = true :=
  ⟨fun h => by cases h with | present h => exact h, .present⟩

/-- A method's outputs keep its contract if each keeps the rule of its slot. -/
theorem Signature.checkOutputs_kept {m : Signature} {scope : String} {ins : List (Option TensorSpec)}
    {outs : List Value} : m.checkOutputs scope ins outs = .ok () ↔
      List.Forall₂ (fun slot v => slot.rule.Kept ins v) m.outputs outs := by
  rw [checkOutputs_ok]
  constructor
  · rintro ⟨specs, hspecs, hmeets⟩
    exact forall₂_comp (Outcome.mapM_ok.mp hspecs) hmeets fun _ s _ hs hv => ⟨s, hs, hv⟩
  · intro h
    obtain ⟨specs, hspecs, hmeets⟩ := forall₂_split h
    exact ⟨specs, Outcome.mapM_ok.mpr hspecs, hmeets⟩

/-! ## Calls -/

namespace Tree

variable {t : Tree} {k : Kernels} {depth : Nat} {id : NodeId} {name : String} {vs : List Value} {o : Outputs}

/-- Where the body of a method of `id` runs, when its calls may nest `depth` deep. -/
def site (t : Tree) (k : Kernels) (depth : Nat) (id : NodeId) : Site Tally where
  scope := (t.scope? id).getD ""
  component := id
  handler := .immediate k
  call := fun child method args =>
    match t.child? id child with
    | some below => t.invokeWithin (.immediate k) depth below method args
    | none => throw (.unknownComponent ((t.scope? id).getD "") child)

/-- Holds what a body returned against the contract of the method. -/
def hold (m : Method) (scope : String) (ins values : List Value) : Effect Tally Outputs := do
  Effect.ofOutcome (m.checkOutputs scope (ins.map Value.spec?) values)
  return Outputs.of m.toSignature values

theorem settled_hold (m : Method) (scope : String) (ins values : List Value) : (hold m scope ins values).Settled :=
  (Effect.settled_ofOutcome _).bind fun _ => Effect.settled_pure _

theorem invokeWithin_succ : t.invokeWithin (.immediate k) (depth + 1) id name vs = (do
    let m ← Effect.ofOutcome (t.method id name)
    let ins ← Effect.ofOutcome (m.completeInputs (t.displayName id) vs)
    let values ← m.body.run (t.site k depth id) ins
    hold m (t.displayName id) ins values) := rfl

theorem settled_site_of (h : ∀ id name vs, (t.invokeWithin (.immediate k) depth id name vs).Settled) (id : NodeId) :
    (t.site k depth id).Settled where
  apply := Handler.settled_immediate k
  call := fun child method args => by
    dsimp only [site]
    split
    · exact h _ _ _
    · exact Effect.settled_throw _

theorem settled_invokeWithin (t : Tree) (k : Kernels) (depth : Nat) (id : NodeId) (name : String) (vs : List Value) :
    (t.invokeWithin (.immediate k) depth id name vs).Settled := by
  induction depth generalizing id name vs with
  | zero => exact Effect.settled_throw _
  | succ depth ih =>
    rw [invokeWithin_succ]
    refine (Effect.settled_ofOutcome _).bind fun m => (Effect.settled_ofOutcome _).bind fun ins => ?_
    exact (Body.settled_run (settled_site_of ih id) _ _).bind fun values => settled_hold _ _ _ _

theorem settled_site (t : Tree) (k : Kernels) (depth : Nat) (id : NodeId) : (t.site k depth id).Settled :=
  settled_site_of (t.settled_invokeWithin k depth) id

/-- What a call comes to at once, with calls nested at most `depth` deep. -/
def answer (t : Tree) (k : Kernels) (depth : Nat) (id : NodeId) (name : String) (vs : List Value) : Outcome Outputs :=
  (t.invokeWithin (.immediate k) depth id name vs).outcome

theorem outcome_call {child : String} {below : NodeId} (h : t.child? id child = some below) :
    ((t.site k depth id).call child name vs).outcome = t.answer k depth below name vs := by
  dsimp only [site]
  rw [h]
  rfl

/-- A call completes its inputs, runs its body and holds what that returns against the contract. -/
theorem answer_succ : t.answer k (depth + 1) id name vs = (do
    let m ← t.method id name
    let ins ← m.completeInputs (t.displayName id) vs
    let values ← (m.body.run (t.site k depth id) ins).outcome
    (hold m (t.displayName id) ins values).outcome) := by
  have hhold : ∀ (m : Method) ins values, (hold m (t.displayName id) ins values).Settled :=
    fun m ins values => settled_hold _ _ _ _
  have hrun : ∀ (m : Method) ins, (do
      let values ← m.body.run (t.site k depth id) ins
      hold m (t.displayName id) ins values).Settled :=
    fun m ins => (Body.settled_run (t.settled_site k depth id) _ _).bind (hhold m ins)
  rw [answer, invokeWithin_succ, Effect.outcome_bind fun m => (Effect.settled_ofOutcome _).bind (hrun m)]
  refine congrArg _ (funext fun m => ?_)
  rw [Effect.outcome_bind (hrun m)]
  exact congrArg _ (funext fun ins => Effect.outcome_bind (hhold m ins))

theorem hold_ok {m : Method} {scope : String} {ins values : List Value} : (hold m scope ins values).outcome = .ok o ↔
    m.checkOutputs scope (ins.map Value.spec?) values = .ok () ∧ o = Outputs.of m.toSignature values := by
  rw [hold, Effect.outcome_bind fun _ => Effect.settled_pure _, Effect.outcome_ofOutcome, Outcome.bind_ok]
  constructor
  · rintro ⟨⟨⟩, hcheck, ho⟩
    cases ho
    exact ⟨hcheck, rfl⟩
  · rintro ⟨hcheck, rfl⟩
    exact ⟨(), hcheck, rfl⟩

theorem answer_ok : t.answer k (depth + 1) id name vs = .ok o ↔ ∃ m ins values, t.method id name = .ok m ∧
    m.completeInputs (t.displayName id) vs = .ok ins ∧ (m.body.run (t.site k depth id) ins).outcome = .ok values ∧
    m.checkOutputs (t.displayName id) (ins.map Value.spec?) values = .ok () ∧ o = Outputs.of m.toSignature values := by
  simp only [answer_succ, Outcome.bind_ok, hold_ok]
  constructor
  · rintro ⟨m, hm, ins, hins, values, hvalues, hcheck, ho⟩
    exact ⟨m, ins, values, hm, hins, hvalues, hcheck, ho⟩
  · rintro ⟨m, ins, values, hm, hins, hvalues, hcheck, ho⟩
    exact ⟨m, hm, ins, hins, values, hvalues, hcheck, ho⟩

/-- A call that succeeds does so however much deeper calls may nest. -/
theorem answer_mono {deeper : Nat} (hle : depth ≤ deeper) (h : t.answer k depth id name vs = .ok o) :
    t.answer k deeper id name vs = .ok o := by
  induction depth generalizing deeper id name vs o with
  | zero => cases h
  | succ depth ih =>
    obtain ⟨deeper, rfl⟩ := Nat.exists_eq_add_one_of_ne_zero (Nat.ne_of_gt (Nat.lt_of_lt_of_le depth.succ_pos hle))
    obtain ⟨m, ins, values, hm, hins, hvalues, hcheck, ho⟩ := answer_ok.mp h
    have hcalls : ∀ child method vs o, ((t.site k depth id).call child method vs).outcome = .ok o →
        ((t.site k deeper id).call child method vs).outcome = .ok o := by
      intro child method vs o ho
      rcases hbelow : t.child? id child with _ | below
      · simp only [site, hbelow] at ho
        cases ho
      · rw [outcome_call hbelow] at ho ⊢
        exact ih (Nat.le_of_succ_le_succ hle) ho
    have hrun := Body.run_of_calls (t.settled_site k depth id) (t.settled_site k deeper id) rfl hcalls hvalues
    exact answer_ok.mpr ⟨m, ins, values, hm, hins, hrun, hcheck, ho⟩

theorem answer_gives : t.answer k t.size id name vs = .ok o ↔ t.Gives k id name vs o := by
  constructor
  · intro h tally
    refine Effect.ok_iff.mp ?_
    exact ((t.settled_invokeWithin k t.size id name vs).outcome tally).trans h
  · intro h
    exact Effect.ok_iff.mpr (h [])

end Tree

/-! ## Assemblies in trees -/

namespace Tree

/-- The node is that of an assembly, with those of its parts below it. -/
structure Bears (t : Tree) (id : NodeId) (a : Assembly) : Prop where
  forest : t.Forest
  laid : Laid t.nodes root id a

theorem bears_root {t : Tree} {a : Assembly} (h : ofAssembly a = .ok t) : t.Bears root a :=
  ⟨ofAssembly_forest h, (ofAssembly_laid h).1⟩

namespace Bears

variable {t : Tree} {id : NodeId} {a : Assembly} (h : t.Bears id a)
include h

theorem size_pos : 0 < t.size := h.forest.root_lt

theorem method {name : String} {m : Method} (hm : a.component.method? name = some m) : t.method id name = .ok m := by
  unfold Tree.method
  simp only [h.laid.component, hm]

/-- A call of a method that the component has. -/
theorem answer_ok {k : Kernels} {depth : Nat} {name : String} {m : Method} (hm : a.component.method? name = some m)
    {vs : List Value} {o : Outputs} : t.answer k (depth + 1) id name vs = .ok o ↔ ∃ ins values,
      m.completeInputs (t.displayName id) vs = .ok ins ∧ (m.body.run (t.site k depth id) ins).outcome = .ok values ∧
      m.checkOutputs (t.displayName id) (ins.map Value.spec?) values = .ok () ∧
      o = Outputs.of m.toSignature values := by
  simp only [Tree.answer_ok, h.method hm, Except.ok.injEq]
  constructor
  · rintro ⟨_, ins, values, rfl, hrest⟩
    exact ⟨ins, values, hrest⟩
  · rintro ⟨ins, values, hrest⟩
    exact ⟨m, ins, values, rfl, hrest⟩

theorem child {part : Assembly} (hpart : part ∈ a.children) :
    ∃ below, t.child? id part.name = some below ∧ t.Bears below part := by
  have hsiblings := h.forest.siblings id
  obtain ⟨hforest, hlaid⟩ := h
  cases hlaid with
  | mk _ hn hchildren =>
    rw [children_of_node hn, hchildren.names] at hsiblings
    obtain ⟨below, hlookup, hbelow⟩ := hchildren.lookup hsiblings hpart
    exact ⟨below, by rw [child?, children_of_node hn, hlookup], hforest, hbelow⟩

end Bears

/-- Where a node has a child there are two nodes. -/
theorem Forest.two_le {t : Tree} (h : t.Forest) {id below : NodeId} {name : String}
    (hchild : t.child? id name = some below) : 2 ≤ t.size := by
  have hparent : t.parent? below = some id := (h.child_iff.mp hchild).1
  have hne : below ≠ id := by
    rintro rfl
    exact h.no_cycle hparent .refl
  have htwo : ∀ a b n : Nat, a ≠ b → a < n → b < n → 2 ≤ n := fun a b n _ _ _ => by omega
  exact htwo below id t.size hne (lt_of_parent hparent) (h.parent_lt hparent)

end Tree

/-! ## Calls of a graph -/

namespace Graph

variable {g : Graph} {k : Kernels} {id : NodeId} {name : String} {vs : List Value} {o : Outputs}

/-- A call at once comes to what the call of the tree comes to, where the node offers the method, the build before it
    succeeds and no input is recorded. -/
theorem call_outcome (hbackend : g.backend = ⟨.immediate, k⟩) {offered : String × Signature}
    (hoffered : g.declaredMethod id name = .ok offered) (hprepare : (prepare.runOn g).1 = .ok ())
    (hrecorded : ∀ v ∈ vs, isRecorded v = false) :
    ((call id name vs).runOn g).1 = g.tree.answer k g.tree.size id name vs := by
  have hmode : g.backend.mode = .immediate := congrArg Backend.mode hbackend
  obtain ⟨scope, m⟩ := offered
  rcases hrun : prepare.runOn g with ⟨r, g'⟩
  obtain rfl : r = .ok () := by rw [← hprepare, hrun]
  obtain ⟨-, hsame, hshape⟩ := prepare_ok hmode hrun
  have hnone : vs.any isRecorded = false := by simpa using hrecorded
  have hanswer := (g.tree.settled_invokeWithin k g.tree.size id name vs).outcome g'.tally
  unfold call
  simp only [Effect.runOn_bind, Effect.runOn_reading, hoffered, Effect.runOn_get, callNow_eq, hrun, hnone,
    Bool.false_eq_true, if_false, counting, Effect.runOn_within, hsame, hbackend, hshape.invoke]
  rw [Tree.invoke, hanswer]
  rfl

/-- A call at once succeeds if the node offers the method, the build before it succeeds, no input is recorded, and
    the call of the tree succeeds. -/
theorem call_answer (hbackend : g.backend = ⟨.immediate, k⟩) : ((call id name vs).runOn g).1 = .ok o ↔
    (∃ offered, g.declaredMethod id name = .ok offered) ∧ (prepare.runOn g).1 = .ok () ∧
      (∀ v ∈ vs, isRecorded v = false) ∧ g.tree.answer k g.tree.size id name vs = .ok o := by
  have hmode : g.backend.mode = .immediate := congrArg Backend.mode hbackend
  constructor
  · intro ho
    have hreached := ho
    unfold call at hreached
    rw [Effect.runOn_bind, Effect.runOn_reading] at hreached
    rcases hoffered : g.declaredMethod id name with e | ⟨scope, m⟩
    · simp [hoffered] at hreached
    simp only [hoffered, Effect.runOn_bind, Effect.runOn_get, hmode, callNow_eq] at hreached
    rcases hprepare : prepare.runOn g with ⟨e | ⟨⟩, g'⟩
    · simp [hprepare] at hreached
    by_cases hrecorded : vs.any isRecorded = true
    · simp only [hprepare, hrecorded, if_true, Effect.runOn_bind, Effect.runOn_throw, reduceCtorEq] at hreached
    · have hnone : ∀ v ∈ vs, isRecorded v = false := by simpa using hrecorded
      refine ⟨⟨_, rfl⟩, rfl, hnone, ?_⟩
      rw [← call_outcome hbackend hoffered (congrArg Prod.fst hprepare) hnone]
      exact ho
  · rintro ⟨⟨offered, hoffered⟩, hprepare, hnone, ho⟩
    rw [call_outcome hbackend hoffered hprepare hnone, ho]

/-- A graph that runs calls at once on these kernels, where a node and those below it are those of an assembly. -/
structure Hosts (g : Graph) (k : Kernels) (id : NodeId) (a : Assembly) : Prop where
  backend : g.backend = ⟨.immediate, k⟩
  bears : g.tree.Bears id a

/-- The tree of an assembly, in a graph of its own. -/
theorem hosts_fresh {t : Tree} {a : Assembly} (h : Tree.ofAssembly a = .ok t) (k : Kernels) (number : Nat) :
    (fresh number t ⟨.immediate, k⟩).Hosts k Tree.root a :=
  ⟨rfl, Tree.bears_root h⟩

/-- A sound assembly has a tree, and a graph of its own can be built. -/
theorem exists_host {a : Assembly} (h : a.Sound) (k : Kernels) (number : Nat) : ∃ t, Tree.ofAssembly a = .ok t ∧
    (fresh number t ⟨.immediate, k⟩).Hosts k Tree.root a ∧ (fresh number t ⟨.immediate, k⟩).Buildable := by
  obtain ⟨t, ht⟩ := Tree.ofAssembly_of_sound h
  have hconnected : t.Connected := Tree.ofAssembly_connected h ht
  have hstate : t.state = .unbuilt := (Tree.ofAssembly_untouched ht).state
  exact ⟨t, ht, hosts_fresh ht k number, fresh_buildable hconnected hstate number _⟩

/-- Calls at once find a graph built, or build it. -/
theorem prepare_buildable (hmode : g.backend.mode = .immediate) (h : g.Buildable) : (prepare.runOn g).1 = .ok () := by
  rw [prepare_runOn]
  cases hstate : g.state with
  | building => exact absurd hstate h.state
  | built => rfl
  | unbuilt =>
    have hmust : g.mustResolve = false := by
      unfold mustResolve
      rw [hmode]
      rfl
    rw [build_idle h hmust]
    rfl

theorem Hosts.call {a : Assembly} (h : g.Hosts k id a) {m : Method} (hm : a.component.method? name = some m) :
    ((call id name vs).runOn g).1 = .ok o ↔ (∃ scope, g.tree.scope? id = some scope) ∧ (prepare.runOn g).1 = .ok () ∧
      (∀ v ∈ vs, isRecorded v = false) ∧ g.tree.answer k g.tree.size id name vs = .ok o := by
  have hoffered : (∃ offered, g.declaredMethod id name = .ok offered) ↔ ∃ scope, g.tree.scope? id = some scope := by
    constructor
    · rintro ⟨⟨scope, sig⟩, hoffered⟩
      exact ⟨scope, (declaredMethod_ok.mp hoffered).1⟩
    · rintro ⟨scope, hscope⟩
      exact ⟨(scope, m.toSignature), declaredMethod_ok.mpr ⟨hscope, m, h.bears.method hm, rfl⟩⟩
  rw [call_answer h.backend, hoffered]

/-- Where the graph can be built, a call comes to what its body comes to anywhere, held against the contract. -/
theorem Hosts.call_run {a : Assembly} (h : g.Hosts k id a) (hbuildable : g.Buildable)
    (hunder : g.tree.Under id Tree.root) {m : Method} (hm : a.component.method? name = some m)
    (hrecorded : ∀ v ∈ vs, isRecorded v = false) {ins : List Value} {r : Outcome (List Value)}
    (hins : ∀ scope, m.completeInputs scope vs = .ok ins)
    (hrun : ∀ site : Site Tally, site.Settled → site.handler = .immediate k →
      (m.body.run site ins).outcome = r) : ∃ scope, ((Graph.call id name vs).runOn g).1 = (do
        let values ← r
        (Tree.hold m scope ins values).outcome) := by
  obtain ⟨scope, hscope⟩ := Option.isSome_iff_exists.mp (h.bears.forest.scope_isSome.mpr hunder)
  have hmode : g.backend.mode = .immediate := congrArg Backend.mode h.backend
  have hmethod : g.tree.method id name = .ok m := h.bears.method hm
  have hoffered : g.declaredMethod id name = .ok (scope, m.toSignature) :=
    declaredMethod_ok.mpr ⟨hscope, m, hmethod, rfl⟩
  obtain ⟨depth, hdepth⟩ := Nat.exists_eq_add_of_le' h.bears.size_pos
  refine ⟨g.tree.displayName id, ?_⟩
  rw [call_outcome h.backend hoffered (prepare_buildable hmode hbuildable) hrecorded, hdepth, Tree.answer_succ,
    hmethod, Outcome.ok_bind, hins, Outcome.ok_bind, hrun _ (g.tree.settled_site k depth id) rfl]

/-- Where the graph can be built, a body that runs anywhere and keeps its contract runs in the graph. -/
theorem Hosts.call_of_run {a : Assembly} (h : g.Hosts k id a) (hbuildable : g.Buildable)
    (hunder : g.tree.Under id Tree.root) {m : Method} (hm : a.component.method? name = some m)
    (hrecorded : ∀ v ∈ vs, isRecorded v = false) {ins values : List Value}
    (hins : ∀ scope, m.completeInputs scope vs = .ok ins)
    (hrun : ∀ site : Site Tally, site.Settled → site.handler = .immediate k →
      (m.body.run site ins).outcome = .ok values)
    (hkept : List.Forall₂ (fun slot v => slot.rule.Kept (ins.map Value.spec?) v) m.outputs values) :
    ((Graph.call id name vs).runOn g).1 = .ok (Outputs.of m.toSignature values) := by
  obtain ⟨scope, hcall⟩ := h.call_run hbuildable hunder hm hrecorded hins hrun
  rw [hcall]
  exact Tree.hold_ok.mpr ⟨Signature.checkOutputs_kept.mpr hkept, rfl⟩

end Graph

end ComponentFlow
