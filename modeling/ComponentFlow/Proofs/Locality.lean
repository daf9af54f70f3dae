/-
  ComponentFlow.Proofs.Locality — methods that are closed. A body that works on its inputs, on literals
  and on what came before meets no placeholder while it is compiled, however deep its calls nest. So
  it can fail in many ways, but not for a binding that leads nowhere (`Tree.invoke_local`).
-/
import ComponentFlow.Graph.Plan
import ComponentFlow.Proofs.Contract
import ComponentFlow.Proofs.Shape

namespace ComponentFlow

/-- An error that is not about a binding. -/
def GraphError.Local : GraphError → Prop
  | .unresolvedBinding .. => False
  | _ => True

/-- A value that is no placeholder. -/
def Value.Direct : Value → Prop
  | .placeholder _ => False
  | _ => True

/-! ## What operations come to -/

namespace Outcome

variable {α β : Type} {P : α → Prop} {Q : β → Prop} {E : GraphError → Prop}

theorem ends_bind {x : Outcome α} {f : α → Outcome β} (hx : x.Ends P E) (hf : ∀ a, P a → (f a).Ends Q E) :
    (x >>= f).Ends Q E := by
  cases x with
  | error e => exact hx
  | ok a => exact hf a hx

theorem ends_map {x : Outcome α} {f : α → β} (hx : x.Ends P E) (hf : ∀ a, P a → Q (f a)) : (f <$> x).Ends Q E := by
  cases x with
  | error e => exact hx
  | ok a => exact hf a hx

theorem ends_mapM {R : α → β → Prop} {f : α → Outcome β} {xs : List α} (h : ∀ x ∈ xs, (f x).Ends (R x) E) :
    (xs.mapM f).Ends (List.Forall₂ R xs) E := by
  rcases hxs : xs.mapM f with e | ys
  · obtain ⟨x, hx, herror⟩ := mapM_error hxs
    have hends := h x hx
    rwa [herror] at hends
  · refine ((List.forall₂_and_left _ _).mpr ⟨h, mapM_ok.mp hxs⟩).imp fun x y hxy => ?_
    obtain ⟨hends, hy⟩ := hxy
    rwa [hy] at hends

end Outcome

namespace Effect

variable {σ α β : Type} {P : α → Prop} {Q : β → Prop} {E E' : GraphError → Prop}

/-- On every state a result with one property, or a failure with another. -/
def Comes (x : Effect σ α) (P : α → Prop) (E : GraphError → Prop) : Prop := ∀ s, (x.runOn s).1.Ends P E

theorem comes_any (x : Effect σ α) : x.Comes (fun _ => True) fun _ => True := by
  intro s
  rcases (x.runOn s).1 with e | a <;> trivial

theorem comes_pure {a : α} (h : P a) : (pure a : Effect σ α).Comes P E := fun _ => h

theorem comes_throw {e : GraphError} (h : E e) : (throw e : Effect σ α).Comes P E := fun _ => h

theorem comes_get : (get : Effect σ σ).Comes (fun _ => True) E := fun _ => trivial

theorem comes_modify (f : σ → σ) : (modify f : Effect σ Unit).Comes (fun _ => True) E := fun _ => trivial

theorem comes_ofOutcome {r : Outcome α} (h : r.Ends P E) : (ofOutcome r : Effect σ α).Comes P E := fun _ => h

theorem Comes.bind {x : Effect σ α} {f : α → Effect σ β} (hx : x.Comes P E) (hf : ∀ a, P a → (f a).Comes Q E) :
    (x >>= f).Comes Q E :=
  fun s => ends_bind (hx s) fun a s' ha => hf a ha s'

theorem Comes.imp {x : Effect σ α} {Q : α → Prop} (h : x.Comes P E) (hP : ∀ a, P a → Q a) (hE : ∀ e, E e → E' e) :
    x.Comes Q E' := by
  intro s
  have hs := h s
  rcases hrun : (x.runOn s).1 with e | a
  · rw [hrun] at hs
    exact hE e hs
  · rw [hrun] at hs
    exact hP a hs

theorem Comes.map {x : Effect σ α} {f : α → β} (hx : x.Comes P E) (hf : ∀ a, P a → Q (f a)) : (f <$> x).Comes Q E := by
  rw [map_eq_pure_bind]
  exact hx.bind fun a ha => comes_pure (hf a ha)

theorem comes_mapM {R : α → β → Prop} {f : α → Effect σ β} {xs : List α} (h : ∀ x ∈ xs, (f x).Comes (R x) E) :
    (xs.mapM f).Comes (List.Forall₂ R xs) E := by
  induction xs with
  | nil => exact comes_pure .nil
  | cons x xs ih =>
    obtain ⟨hx, hxs⟩ := List.forall_mem_cons.mp h
    rw [List.mapM_cons]
    exact hx.bind fun y hy => (ih hxs).bind fun ys hys => comes_pure (.cons hy hys)

end Effect

/-- What related elements have by themselves, all of them have. -/
theorem forall_of_forall₂ {α β : Type} {Q : β → Prop} {as : List α} {bs : List β}
    (h : List.Forall₂ (fun _ b => Q b) as bs) : ∀ b ∈ bs, Q b := by
  intro b hb
  obtain ⟨_, -, hQ⟩ := forall₂_of_mem h.flip hb
  exact hQ

/-! ## Closed methods -/

/-- A body that brings no placeholder in from elsewhere, and rules that raise no error about bindings. -/
structure Method.Closed (m : Method) : Prop where
  refs : ∀ p, .foreign p ∉ m.body.refs
  rules : ∀ slot ∈ m.outputs, ∀ specs e, slot.rule.apply specs = .error e → e.Local

def Tree.Closed (t : Tree) : Prop := ∀ {id name m}, t.method id name = .ok m → m.Closed

theorem Tree.SameShape.closed {t u : Tree} (h : t.SameShape u) (hu : u.Closed) : t.Closed :=
  fun hm => hu (h.method _ _ ▸ hm)

theorem OutputRule.apply_local {rule : OutputRule} (h : rule.isDerived = false) {specs : List (Option TensorSpec)}
    {e : GraphError} (herror : rule.apply specs = .error e) : e.Local := by
  have hinput : ∀ i, (inputSpec specs i).Ends (fun _ => True) GraphError.Local := by
    intro i
    unfold inputSpec
    split
    · trivial
    · exact trivial
  have hends : (rule.apply specs).Ends (fun _ => True) GraphError.Local := by
    cases rule with
    | likeInput i => exact hinput i
    | likeInputAs i dtype => exact Outcome.ends_bind (hinput i) fun _ _ => trivial
    | fixed | absent => trivial
    | derived => cases h
  rwa [herror] at hends

theorem Method.closed_of_plain {m : Method} (h : m.plain = true) : m.Closed where
  refs := fun _ => Method.not_foreign h
  rules := by
    intro slot hslot specs e herror
    have hruled := List.all_eq_true.mp (Method.ruled_of_plain h) slot hslot
    exact OutputRule.apply_local (by simpa using hruled) herror

/-- In a plain tree every method is closed. -/
theorem Tree.closed_of_plain {t : Tree} (h : t.plain = true) : t.Closed :=
  fun hm => Method.closed_of_plain (Tree.plain_method h hm)

namespace Signature

variable {m : Signature} {scope : String}

theorem fillDefaults_local (filled : Nat) (slots : List InputSlot) :
    (m.fillDefaults scope filled slots).Ends (fun vs => ∀ v ∈ vs, v.Direct) GraphError.Local := by
  induction slots generalizing filled with
  | nil => exact List.forall_mem_nil _
  | cons slot rest ih =>
    unfold fillDefaults
    split
    · exact trivial
    · exact Outcome.ends_map (ih (filled + 1)) fun vs hvs => List.forall_mem_cons.mpr ⟨trivial, hvs⟩
    · exact Outcome.ends_map (ih (filled + 1)) fun vs hvs => List.forall_mem_cons.mpr ⟨trivial, hvs⟩

theorem completeInputs_local {supplied : List Value} (h : ∀ v ∈ supplied, v.Direct) :
    (m.completeInputs scope supplied).Ends (fun vs => ∀ v ∈ vs, v.Direct) GraphError.Local := by
  unfold completeInputs
  dsimp only
  split
  · exact trivial
  · exact Outcome.ends_map (m.fillDefaults_local _ _) fun vs hvs => List.forall_mem_append.mpr ⟨h, hvs⟩

theorem checkOutputs_local (hrules : ∀ slot ∈ m.outputs, ∀ specs e, slot.rule.apply specs = .error e → e.Local)
    (inputs : List (Option TensorSpec)) (outputs : List Value) :
    (m.checkOutputs scope inputs outputs).Ends (fun _ => True) GraphError.Local := by
  unfold checkOutputs
  split
  · exact trivial
  · refine Outcome.ends_bind (P := fun _ => True) ?_ fun expected _ => ?_
    · rcases hinfer : m.inferOutputs inputs with e | specs
      · obtain ⟨slot, hslot, herror⟩ := Outcome.mapM_error hinfer
        exact hrules slot hslot inputs e herror
      · trivial
    · split
      · exact trivial
      · trivial

end Signature

/-! ## Bodies -/

/-- A call whose outputs are no placeholders. -/
def Outputs.Direct (o : Outputs) : Prop := ∀ v ∈ o.values, v.Direct

/-- Values in reach that are no placeholders. -/
structure Frame.Direct (f : Frame) : Prop where
  inputs : ∀ v ∈ f.inputs, v.Direct
  results : ∀ o ∈ f.results, o.Direct

namespace Frame

theorem orBadReference_local {α : Type} {o : Option α} {P : α → Prop} (h : ∀ a, o = some a → P a) :
    (orBadReference o).Ends P GraphError.Local := by
  cases o with
  | none => exact trivial
  | some a => exact h a rfl

theorem resolve_local {f : Frame} (h : f.Direct) {ref : Ref} (href : ∀ p, ref ≠ .foreign p) :
    (f.resolve ref).Ends Value.Direct GraphError.Local := by
  have hstep : ∀ step, (orBadReference f.results[step]?).Ends Outputs.Direct GraphError.Local :=
    fun step => orBadReference_local fun o ho => h.results o (List.mem_of_getElem? ho)
  cases ref with
  | absent => exact trivial
  | literal t => exact trivial
  | foreign p => exact absurd rfl (href p)
  | input i => exact orBadReference_local fun v hv => h.inputs v (List.mem_of_getElem? hv)
  | value i =>
    refine orBadReference_local fun v hv => ?_
    obtain ⟨o, ho, hmem⟩ := List.mem_flatMap.mp (List.mem_of_getElem? hv)
    exact h.results o ho v hmem
  | first step =>
    refine Outcome.ends_bind (hstep step) fun o ho => ?_
    obtain ⟨names, values⟩ := o
    cases values with
    | nil => exact trivial
    | cons v rest => exact ho v List.mem_cons_self
  | named step name =>
    refine Outcome.ends_bind (hstep step) fun o ho => ?_
    rcases hname : o.byName? name with _ | v
    · rw [Outputs.output, hname]
      exact trivial
    · rw [Outputs.output, hname]
      obtain ⟨i, -, hv⟩ := Option.bind_eq_some_iff.mp hname
      exact ho v (List.mem_of_getElem? hv)

theorem resolveAll_local {f : Frame} (h : f.Direct) {refs : List Ref} (hrefs : ∀ p, .foreign p ∉ refs) :
    (refs.mapM f.resolve).Ends (fun vs => ∀ v ∈ vs, v.Direct) GraphError.Local := by
  have hall : (refs.mapM f.resolve).Ends (List.Forall₂ (fun _ v => Value.Direct v) refs) GraphError.Local :=
    Outcome.ends_mapM fun ref href => resolve_local h fun p hp => hrefs p (hp ▸ href)
  rcases hresolve : refs.mapM f.resolve with e | vs
  · rwa [hresolve] at hall
  · rw [hresolve] at hall
    exact forall_of_forall₂ hall

end Frame

/-- A handler that gives no placeholder for values that are none, and fails for no binding. -/
def Handler.Local {σ : Type} (d : Handler σ) : Prop :=
  ∀ p vs, (∀ v ∈ vs, v.Direct) → (d.apply p vs).Comes Value.Direct GraphError.Local

section Calls

variable {σ : Type} {d : Handler σ} {site : Site σ}

/-- A place where primitives and calls neither give placeholders nor fail for a binding. -/
structure Site.Local (site : Site σ) : Prop where
  handler : site.handler.Local
  call : ∀ child method vs, (∀ v ∈ vs, v.Direct) →
    (site.call child method vs).Comes Outputs.Direct GraphError.Local

theorem Site.Local.apply (h : site.Local) (p : Primitive) {vs : List Value} (hvs : ∀ v ∈ vs, v.Direct) :
    (do return ⟨[], [← site.handler.apply p vs]⟩ : Effect σ Outputs).Comes Outputs.Direct GraphError.Local :=
  (h.handler p vs hvs).bind fun _ hv => Effect.comes_pure (List.forall_mem_singleton.mpr hv)

theorem Body.perform_local (h : site.Local) (op : Operation) {args : List Value} (hargs : ∀ v ∈ args, v.Direct) :
    (perform site op args).Comes Outputs.Direct GraphError.Local := by
  cases op with
  | apply p => exact h.apply p hargs
  | castLike =>
    rcases args with _ | ⟨v, _ | ⟨like, _ | _⟩⟩
    · exact Effect.comes_throw trivial
    · exact Effect.comes_throw trivial
    · exact h.apply _ (List.forall_mem_singleton.mpr (hargs v List.mem_cons_self))
    · exact Effect.comes_throw trivial
  | call child method => exact h.call child method args hargs
  | fail text => exact Effect.comes_throw trivial

theorem Body.runSteps_local (h : site.Local) {steps : List Step} (hsteps : ∀ p, .foreign p ∉ steps.flatMap Step.args)
    {inputs : List Value} {results : List Outputs} (hframe : Frame.Direct ⟨inputs, results⟩) :
    (runSteps site inputs results steps).Comes (fun os => Frame.Direct ⟨inputs, os⟩) GraphError.Local := by
  induction steps generalizing results with
  | nil => exact Effect.comes_pure hframe
  | cons step rest ih =>
    have hstep : ∀ p, .foreign p ∉ step.args := fun p hp => hsteps p (List.mem_append_left _ hp)
    have hrest : ∀ p, .foreign p ∉ rest.flatMap Step.args := fun p hp => hsteps p (List.mem_append_right _ hp)
    refine (Effect.comes_ofOutcome (Frame.resolveAll_local hframe hstep)).bind fun args hargs => ?_
    refine (perform_local h step.operation hargs).bind fun o ho => ?_
    exact ih hrest ⟨hframe.inputs, List.forall_mem_append.mpr ⟨hframe.results, List.forall_mem_singleton.mpr ho⟩⟩

theorem Body.runFrom_local (h : site.Local) {b : Body} (hrefs : ∀ p, .foreign p ∉ b.refs) {inputs : List Value}
    {results : List Outputs} (hframe : Frame.Direct ⟨inputs, results⟩) :
    (runFrom site inputs results b).Comes (fun vs => ∀ v ∈ vs, v.Direct) GraphError.Local := by
  induction b generalizing results with
  | straight steps returns =>
    have hsteps : ∀ p, .foreign p ∉ steps.flatMap Step.args := fun p hp => hrefs p (List.mem_append_left _ hp)
    have hreturns : ∀ p, .foreign p ∉ returns := fun p hp => hrefs p (List.mem_append_right _ hp)
    refine (runSteps_local h hsteps hframe).bind fun results hframe => ?_
    exact Effect.comes_ofOutcome (Frame.resolveAll_local hframe hreturns)
  | branch steps on absent present ihAbsent ihPresent =>
    have hsteps : ∀ p, .foreign p ∉ steps.flatMap Step.args := fun p hp => hrefs p (List.mem_append_left _ hp)
    have hon : ∀ p, on ≠ .foreign p := fun p hp => hrefs p (by simp [refs, hp])
    have habsent : ∀ p, .foreign p ∉ absent.refs := fun p hp => hrefs p (by simp [refs, hp])
    have hpresent : ∀ p, .foreign p ∉ present.refs := fun p hp => hrefs p (by simp [refs, hp])
    refine (runSteps_local h hsteps hframe).bind fun results hframe => ?_
    refine (Effect.comes_ofOutcome (Frame.resolve_local hframe hon)).bind fun v _ => ?_
    split
    · exact ihAbsent habsent hframe
    · exact ihPresent hpresent hframe

theorem Body.run_local (h : site.Local) {b : Body} (hrefs : ∀ p, .foreign p ∉ b.refs) {inputs : List Value}
    (hinputs : ∀ v ∈ inputs, v.Direct) : (b.run site inputs).Comes (fun vs => ∀ v ∈ vs, v.Direct) GraphError.Local :=
  runFrom_local h hrefs ⟨hinputs, List.forall_mem_nil _⟩

/-! ## Calls -/

theorem Tree.method_local (t : Tree) (id : NodeId) (name : String) :
    (t.method id name).Ends (fun m => t.method id name = .ok m) GraphError.Local := by
  rcases hm : t.method id name with e | m
  · unfold Tree.method at hm
    dsimp only at hm
    split at hm
    · cases hm
      exact trivial
    · split at hm
      · cases hm
      · cases hm
        exact trivial
  · rfl

theorem Tree.invokeWithin_local {t : Tree} (ht : t.Closed) (hd : d.Local) (depth : Nat) (id : NodeId) (name : String)
    {vs : List Value} (hvs : ∀ v ∈ vs, v.Direct) :
    (t.invokeWithin d depth id name vs).Comes Outputs.Direct GraphError.Local := by
  induction depth generalizing id name vs with
  | zero => exact Effect.comes_throw trivial
  | succ depth ih =>
    unfold invokeWithin
    refine (Effect.comes_ofOutcome (t.method_local id name)).bind fun m hm => ?_
    obtain ⟨hrefs, hrules⟩ := ht hm
    refine (Effect.comes_ofOutcome (Signature.completeInputs_local hvs)).bind fun inputs hinputs => ?_
    refine (Body.run_local ⟨hd, fun child method args hargs => ?_⟩ hrefs hinputs).bind fun values hvalues => ?_
    · dsimp only
      cases t.child? id child with
      | none => exact Effect.comes_throw trivial
      | some below => exact ih below method hargs
    · refine (Effect.comes_ofOutcome (Signature.checkOutputs_local hrules _ _)).bind fun _ _ => ?_
      exact Effect.comes_pure hvalues

/-- A call of a closed method on values that are no placeholders gives such values, or fails for something else
    than a binding. -/
theorem Tree.invoke_local {t : Tree} (ht : t.Closed) (hd : d.Local) (id : NodeId) (name : String) {vs : List Value}
    (hvs : ∀ v ∈ vs, v.Direct) : (t.invoke d id name vs).Comes Outputs.Direct GraphError.Local :=
  invokeWithin_local ht hd t.size id name hvs

end Calls

/-! ## Compiling -/

namespace Plan

variable {E : GraphError → Prop}

theorem push_comes (op : NodeOp) (operands : List Nat) (spec : TensorSpec) :
    (push op operands spec).Comes (fun _ => True) E := fun _ => trivial

theorem constant_comes (t : Tensor) : (constant t).Comes (fun _ => True) E := push_comes _ _ _

theorem feed_comes (name : String) (spec : TensorSpec) : (feed name spec).Comes (fun _ => True) E := by
  unfold feed
  refine Effect.comes_get.bind fun plan _ => ?_
  split
  · exact Effect.comes_pure trivial
  · refine (push_comes _ _ _).bind fun s _ => ?_
    exact (Effect.comes_modify _).bind fun _ _ => Effect.comes_pure trivial

theorem operand_local (p : Primitive) {v : Value} (hv : v.Direct) :
    (operand p v).Comes (fun _ => True) GraphError.Local := by
  cases v with
  | tensor t => exact constant_comes t
  | placeholder q => exact hv.elim
  | symbol s => exact Effect.comes_pure trivial
  | absent => exact Effect.comes_throw trivial

theorem primitive_local (p : Primitive) (operands : List Symbol) :
    (primitive p operands).Comes (fun _ => True) GraphError.Local := by
  refine (Effect.comes_ofOutcome (P := fun _ => True) ?_).bind fun spec _ => push_comes _ _ _
  rcases p.infer (operands.map Symbol.spec) with cause | spec
  · exact trivial
  · trivial

theorem symbolic_local : Handler.symbolic.Local := by
  intro p vs hvs
  refine (Effect.comes_mapM fun v hv => operand_local p (hvs v hv)).bind fun operands _ => ?_
  exact (primitive_local p operands).bind fun s _ => Effect.comes_pure trivial

end Plan

end ComponentFlow
