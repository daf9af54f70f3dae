/-
  ComponentFlow.Proofs.Keeping — what operations keep of a state, whether they succeed or fail. Where a
  handler keeps a property for primitives of a kind, calls of methods that apply only these keep it
  (`Tree.invoke_keeps`). So the nodes of an artifact apply only primitives of a kind that all methods
  keep to (`Artifact.applies_inherited`).
-/
import ComponentFlow.Proofs.Formation

namespace ComponentFlow

namespace Effect

variable {σ α β : Type} {I : σ → Prop}

/-- The property holds afterwards if it did before, whatever the outcome. -/
def Keeps (I : σ → Prop) (x : Effect σ α) : Prop := ∀ s, I s → I (x.runOn s).2

theorem keeps_pure (a : α) : Keeps I (pure a : Effect σ α) := fun _ hs => hs

theorem keeps_throw (e : GraphError) : Keeps I (throw e : Effect σ α) := fun _ hs => hs

theorem keeps_get : Keeps I (get : Effect σ σ) := fun _ hs => hs

theorem keeps_ofOutcome (r : Outcome α) : Keeps I (ofOutcome r : Effect σ α) := fun _ hs => hs

theorem Keeps.bind {x : Effect σ α} {f : α → Effect σ β} (hx : Keeps I x) (hf : ∀ a, Keeps I (f a)) :
    Keeps I (x >>= f) := by
  intro s hs
  have hafter := hx s hs
  rw [runOn_bind]
  rcases hrun : x.runOn s with ⟨_ | a, s'⟩
  · rwa [hrun] at hafter
  · rw [hrun] at hafter
    exact hf a s' hafter

/-- What follows an outcome runs if there is one. -/
theorem keeps_outcome {r : Outcome α} {f : α → Effect σ β} (hf : ∀ a, r = .ok a → Keeps I (f a)) :
    Keeps I (ofOutcome r >>= f) := by
  cases r with
  | error e => exact keeps_throw e
  | ok a => exact hf a rfl

theorem Keeps.map {x : Effect σ α} (hx : Keeps I x) (f : α → β) : Keeps I (f <$> x) := by
  rw [map_eq_pure_bind]
  exact hx.bind fun a => keeps_pure (f a)

theorem keeps_mapM {f : α → Effect σ β} (hf : ∀ a, Keeps I (f a)) (as : List α) : Keeps I (as.mapM f) := by
  induction as with
  | nil => exact keeps_pure []
  | cons a as ih =>
    rw [List.mapM_cons]
    exact (hf a).bind fun b => ih.bind fun bs => keeps_pure (b :: bs)

end Effect

/-! ## Bodies that keep to a kind of primitives -/

/-- An operation that applies no other primitives than these; casts aside. -/
def Operation.applies (good : Primitive → Bool) : Operation → Bool
  | .apply p => good p
  | _ => true

def Body.applies (good : Primitive → Bool) : Body → Bool
  | .straight steps _ => steps.all fun step => step.operation.applies good
  | .branch steps _ absent present =>
    (steps.all fun step => step.operation.applies good) && absent.applies good && present.applies good

def Method.applies (good : Primitive → Bool) (m : Method) : Bool := m.body.applies good

/-- A tree of which all methods apply only these. -/
def Tree.applies (good : Primitive → Bool) (t : Tree) : Bool :=
  t.nodes.all fun n => n.component.methods.all (Method.applies good)

/-- A handler that keeps a property whenever one of these primitives is applied. -/
def Handler.Keeps {σ : Type} (d : Handler σ) (good : Primitive → Bool) (I : σ → Prop) : Prop :=
  ∀ p, good p = true → ∀ vs, Effect.Keeps I (d.apply p vs)

section Calls

variable {σ : Type} {d : Handler σ} {good : Primitive → Bool} {I : σ → Prop} {site : Site σ}

theorem Body.perform_keeps (hsite : site.handler.Keeps good I) (hcast : ∀ dtype, good (.cast dtype) = true)
    (hcall : ∀ child method vs, Effect.Keeps I (site.call child method vs)) {op : Operation}
    (hop : op.applies good = true) (args : List Value) : Effect.Keeps I (perform site op args) := by
  cases op with
  | apply p => exact (hsite p hop args).bind fun _ => Effect.keeps_pure _
  | castLike =>
    rcases args with _ | ⟨v, _ | ⟨like, _ | _⟩⟩
    · exact Effect.keeps_throw _
    · exact Effect.keeps_throw _
    · exact (hsite _ (hcast _) _).bind fun _ => Effect.keeps_pure _
    · exact Effect.keeps_throw _
  | call child method => exact hcall child method args
  | fail text => exact Effect.keeps_throw _

theorem Body.runSteps_keeps (hsite : site.handler.Keeps good I) (hcast : ∀ dtype, good (.cast dtype) = true)
    (hcall : ∀ child method vs, Effect.Keeps I (site.call child method vs)) {steps : List Step}
    (hsteps : ∀ step ∈ steps, step.operation.applies good = true) (inputs : List Value) (results : List Outputs) :
    Effect.Keeps I (runSteps site inputs results steps) := by
  induction steps generalizing results with
  | nil => exact Effect.keeps_pure results
  | cons step rest ih =>
    obtain ⟨hstep, hrest⟩ := List.forall_mem_cons.mp hsteps
    refine Effect.keeps_outcome fun args _ => ?_
    refine (perform_keeps hsite hcast hcall hstep args).bind fun out => ?_
    exact ih hrest (results ++ [out])

theorem Body.runFrom_keeps (hsite : site.handler.Keeps good I) (hcast : ∀ dtype, good (.cast dtype) = true)
    (hcall : ∀ child method vs, Effect.Keeps I (site.call child method vs)) {b : Body} (hb : b.applies good = true)
    (inputs : List Value) (results : List Outputs) : Effect.Keeps I (runFrom site inputs results b) := by
  induction b generalizing results with
  | straight steps returns =>
    refine (runSteps_keeps hsite hcast hcall (List.all_eq_true.mp hb) inputs results).bind fun results => ?_
    exact Effect.keeps_ofOutcome _
  | branch steps on absent present ihAbsent ihPresent =>
    simp only [applies, Bool.and_eq_true] at hb
    obtain ⟨⟨hsteps, habsent⟩, hpresent⟩ := hb
    refine (runSteps_keeps hsite hcast hcall (List.all_eq_true.mp hsteps) inputs results).bind fun results => ?_
    refine Effect.keeps_outcome fun v _ => ?_
    split
    · exact ihAbsent habsent results
    · exact ihPresent hpresent results

/-- A call keeps what the handler keeps, however deep calls nest. -/
theorem Tree.invokeWithin_keeps {t : Tree} (hd : d.Keeps good I) (hcast : ∀ dtype, good (.cast dtype) = true)
    (hmethods : ∀ {id name m}, t.method id name = .ok m → m.applies good = true) (depth : Nat) (id : NodeId)
    (name : String) (vs : List Value) : Effect.Keeps I (t.invokeWithin d depth id name vs) := by
  induction depth generalizing id name vs with
  | zero => exact Effect.keeps_throw _
  | succ depth ih =>
    unfold invokeWithin
    refine Effect.keeps_outcome fun m hm => Effect.keeps_outcome fun inputs _ => ?_
    have hrun : ∀ site : Site σ, site.handler = d →
        (∀ child method vs, Effect.Keeps I (site.call child method vs)) → Effect.Keeps I (m.body.run site inputs) :=
      fun site hhandler hcall => Body.runFrom_keeps (hhandler ▸ hd) hcast hcall (hmethods hm) inputs []
    refine (hrun _ rfl fun child method vs => ?_).bind fun values => ?_
    · dsimp only
      cases t.child? id child with
      | none => exact Effect.keeps_throw _
      | some below => exact ih below method vs
    · exact Effect.keeps_outcome fun _ _ => Effect.keeps_pure _

theorem Tree.invoke_keeps {t : Tree} (hd : d.Keeps good I) (hcast : ∀ dtype, good (.cast dtype) = true)
    (hmethods : ∀ {id name m}, t.method id name = .ok m → m.applies good = true) (id : NodeId) (name : String)
    (vs : List Value) : Effect.Keeps I (t.invoke d id name vs) :=
  invokeWithin_keeps hd hcast hmethods t.size id name vs

end Calls

/-! ## Plans that keep to a kind of primitives -/

namespace Plan

/-- The nodes compute nothing but these primitives. -/
def Applies (good : Primitive → Bool) (P : Plan) : Prop :=
  ∀ (i : Nat) n p, P.nodes[i]? = some n → n.op = .primitive p → good p = true

variable {good : Primitive → Bool}

theorem applies_empty : Applies good {} := by
  intro i n p hn
  simp at hn

theorem push_keeps {op : NodeOp} (hop : ∀ p, op = .primitive p → good p = true) (operands : List Nat)
    (spec : TensorSpec) : Effect.Keeps (Applies good) (push op operands spec) := by
  intro P hP i n p hn hp
  rw [push_runOn] at hn
  rcases append_node hn with hold | ⟨-, rfl⟩
  · exact hP i n p hold hp
  · exact hop p hp

theorem constant_keeps (t : Tensor) : Effect.Keeps (Applies good) (constant t) :=
  push_keeps (fun _ h => by cases h) _ _

theorem feed_keeps (name : String) (spec : TensorSpec) : Effect.Keeps (Applies good) (feed name spec) := by
  refine Effect.keeps_get.bind fun P => ?_
  split
  · exact Effect.keeps_pure _
  · refine (push_keeps (fun _ h => by cases h) _ _).bind fun s => Effect.Keeps.bind ?_ fun _ => Effect.keeps_pure s
    exact fun _ hP => hP

theorem primitive_keeps {p : Primitive} (hp : good p = true) (operands : List Symbol) :
    Effect.Keeps (Applies good) (primitive p operands) := by
  refine Effect.keeps_outcome fun spec _ => push_keeps (fun q hq => ?_) _ _
  cases hq
  exact hp

theorem operand_keeps (p : Primitive) (v : Value) : Effect.Keeps (Applies good) (operand p v) := by
  cases v with
  | symbol s => exact Effect.keeps_pure s
  | tensor t => exact constant_keeps t
  | placeholder q => exact Effect.keeps_get.bind fun _ => Effect.keeps_throw _
  | absent => exact Effect.keeps_throw _

theorem symbolic_keeps : Handler.symbolic.Keeps good (Applies good) := by
  intro p hp vs
  refine (Effect.keeps_mapM (operand_keeps p) vs).bind fun operands => ?_
  exact (primitive_keeps hp operands).bind fun s => Effect.keeps_pure _

end Plan

/-! ## Building -/

namespace Resolution

variable {r : Resolution} {good : Primitive → Bool}

theorem output_keeps (done : Resolved) (current i k : Nat) :
    Effect.Keeps (Plan.Applies good) (r.output done current i k) := by
  unfold output
  rcases done.lookup i with _ | outs
  · rcases r.base.bind fun a => a.wiring? i with _ | w
    · exact Effect.keeps_throw _
    · dsimp only
      rcases w.outputs[k]? with _ | v
      · exact Effect.keeps_throw _
      · exact Effect.keeps_get.bind fun P => Effect.keeps_pure _
  · dsimp only
    rcases outs[k]? with _ | s
    · exact Effect.keeps_throw _
    · exact Effect.keeps_pure s

theorem bind_keeps (done : Resolved) (current : Nat) (b : Binding) :
    Effect.Keeps (Plan.Applies good) (r.bind done current b) := by
  cases b with
  | literal t => exact (Plan.constant_keeps t).map some
  | feed name =>
    simp only [bind]
    rcases r.feeds.lookup name with _ | spec
    · exact Effect.keeps_throw _
    · exact (Plan.feed_keeps name spec).map some
  | output i k => exact output_keeps done current i k
  | absent => exact Effect.keeps_pure none

theorem settle_keeps (record : Invocation) (index : Nat) (p : Option Placeholder) (v : Value) :
    Effect.Keeps (Plan.Applies good) (settle record index p v) := by
  unfold settle
  split
  · exact Effect.keeps_pure none
  · split
    · exact Effect.keeps_pure _
    · exact Effect.keeps_throw _
  · split
    · exact (Plan.constant_keeps _).map some
    · exact Effect.keeps_throw _
  · exact Effect.keeps_throw _

theorem settleAll_keeps (record : Invocation) (index : Nat) (ps : List (Option Placeholder)) (vs : List Value) :
    Effect.Keeps (Plan.Applies good) (settleAll record index ps vs) := by
  induction ps generalizing index vs with
  | nil => exact Effect.keeps_pure []
  | cons p ps ih =>
    cases vs with
    | nil => exact Effect.keeps_pure []
    | cons v vs =>
      refine (settle_keeps record index p v).bind fun s => ?_
      exact (ih (index + 1) vs).bind fun ss => Effect.keeps_pure (s :: ss)

theorem resolveOne_keeps (hcast : ∀ dtype, good (.cast dtype) = true)
    (hmethods : ∀ {id name m}, r.tree.method id name = .ok m → m.applies good = true) (done : Resolved)
    (record : Invocation) : Effect.Keeps (Plan.Applies good) (r.resolveOne done record) := by
  have hmark : Effect.Keeps (Plan.Applies good) (modify fun plan : Plan => { plan with current := record.id }) :=
    fun _ hP => hP
  refine hmark.bind fun _ => ?_
  refine (Effect.keeps_mapM (bind_keeps done record.id) record.inputs).bind fun inputs => ?_
  refine (Tree.invoke_keeps Plan.symbolic_keeps hcast hmethods _ _ _).bind fun produced => ?_
  dsimp only
  split
  · exact Effect.keeps_throw _
  · exact (settleAll_keeps record 0 record.outputs produced.values).bind fun outputs => Effect.keeps_pure _

theorem resolveAll_keeps (hcast : ∀ dtype, good (.cast dtype) = true)
    (hmethods : ∀ {id name m}, r.tree.method id name = .ok m → m.applies good = true) (done : Resolved)
    (records : List Invocation) : Effect.Keeps (Plan.Applies good) (r.resolveAll done records) := by
  induction records generalizing done with
  | nil => exact Effect.keeps_pure []
  | cons record rest ih =>
    refine (resolveOne_keeps hcast hmethods done record).bind fun resolved => ?_
    exact (ih _).bind fun wirings => Effect.keeps_pure _

end Resolution

/-- What is built with methods that keep to a kind of primitives computes only these. -/
theorem Artifact.applies_inherited {tree : Tree} {good : Primitive → Bool} (hcast : ∀ dtype, good (.cast dtype) = true)
    (htree : tree.applies good = true) (k : Kernels) :
    Session.Inherited tree k fun a => a.extend.Applies good := by
  intro r records a m hshape _ _ hrun hbase
  obtain ⟨ws, P, hresolve, rfl, -⟩ := Resolution.run_ok.mp hrun
  have hstart : r.start.Applies good := by
    unfold Resolution.start
    rcases hb : r.base with _ | b
    · exact Plan.applies_empty
    · exact hbase b hb
  have hmethods : ∀ {id name m}, r.tree.method id name = .ok m → m.applies good = true := by
    intro id name m hm
    rw [hshape.method] at hm
    exact Tree.all_methods htree hm
  have hafter := Resolution.resolveAll_keeps hcast hmethods [] records r.start hstart
  rw [hresolve] at hafter
  exact hafter

end ComponentFlow
